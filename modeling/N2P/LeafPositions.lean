import N2P.LockedSchema
import N2P.ValueReader
import N2P.RoundTrip

/-!
# Levels and values of untrusted offsets

`Shredder::walk` checks a list slot's offsets one slot at a time; a null slot's are never looked
at.  So the range of a slot behind a null may go back to positions another slot has given already,
and `present` collapses what `present_count` counts twice.

* `ValueAt` and `InOrder` — the leaf values below a slot, and that they lie in row order.
* `visit_inOrder` — the walk visits increasing positions exactly when the values are in order.
* `listLeaf_consistent_iff` — an accepted batch's levels and values agree exactly then.
* `listLeaf_backwards` — an accepted batch where they do not.
-/

namespace N2P

open Dremel Outcome Shredder

/-! ## Values in row order -/

/-- A slot holds something: its node is REQUIRED, or its bit is set.  A null count of 0 stands for
    bits all set. -/
def LeafSpec.presentAt (leaf : LeafSpec) (st : PathStep) (a : ArrowArray) (e : Nat) : Bool :=
  !st.optional || !leaf.nullStep st && (a.nullCount = 0 || a.bitAt e)

/-- Slot `e` of an array holds, at or below it, the value at a leaf position. -/
inductive ValueAt (leaf : LeafSpec) : List PathStep → ArrowArray → Nat → Nat → Prop where
  | leaf {st rest a} {e : Nat} (hk : st.kind = .leaf) (hv : leaf.presentAt st a e = true) :
      ValueAt leaf (st :: rest) a e e
  | struct {st rest a child p} {e : Nat} (hk : st.kind = .struct)
      (hv : leaf.presentAt st a e = true) (ht : st.target? a = some child)
      (h : ValueAt leaf rest child e p) :
      ValueAt leaf (st :: rest) a e p
  | list {st rest a child p} {s t : Int} {e j : Nat} (hk : st.kind.isList)
      (hv : leaf.presentAt st a e = true) (ht : st.target? a = some child)
      (hs : st.offset? a e = some s) (hn : st.offset? a (e + 1) = some t) (hsj : s ≤ j)
      (hjt : j < t) (h : ValueAt leaf rest child j p) : ValueAt leaf (st :: rest) a e p

/-- Every value of an earlier slot lies before every value of a later one. -/
def Before (leaf : LeafSpec) (steps : List PathStep) (a : ArrowArray) (e e' : Nat) : Prop :=
  ∀ p p', ValueAt leaf steps a e p → ValueAt leaf steps a e' p' → p < p'

/-- The values below a slot are in order, list slot by list slot. -/
def InOrder (leaf : LeafSpec) : List PathStep → ArrowArray → Nat → Prop
  | [], _, _ => True
  | st :: rest, a, e =>
    leaf.presentAt st a e = true → ∀ child, st.target? a = some child →
      match st.kind with
      | .leaf => True
      | .struct => InOrder leaf rest child e
      | _ => ∀ s t, st.offset? a e = some s → st.offset? a (e + 1) = some t →
          ∀ j : Nat, s ≤ j → j < t → InOrder leaf rest child j ∧
            ∀ j' : Nat, j < j' → j' < t → Before leaf rest child j j'

/-- The values of the first rows of a column are in order. -/
def RowsInOrder (leaf : LeafSpec) (column : ArrowArray) (rows : Nat) : Prop :=
  ∀ i < rows, InOrder leaf leaf.steps column i ∧
    ∀ i', i < i' → i' < rows → Before leaf leaf.steps column i i'

section InOrder

variable {leaf : LeafSpec} {st : PathStep} {rest : List PathStep} {a child : ArrowArray} {e : Nat}

theorem inOrder_cons :
    InOrder leaf (st :: rest) a e ↔
      (leaf.presentAt st a e = true → ∀ child, st.target? a = some child →
        match st.kind with
        | .leaf => True
        | .struct => InOrder leaf rest child e
        | _ => ∀ s t, st.offset? a e = some s → st.offset? a (e + 1) = some t →
            ∀ j : Nat, s ≤ j → j < t → InOrder leaf rest child j ∧
              ∀ j' : Nat, j < j' → j' < t → Before leaf rest child j j') := Iff.rfl

theorem inOrder_struct (hk : st.kind = .struct) (hv : leaf.presentAt st a e = true)
    (ht : st.target? a = some child) :
    InOrder leaf (st :: rest) a e ↔ InOrder leaf rest child e := by
  rw [inOrder_cons, hk]
  constructor
  · intro h
    exact h hv child ht
  · intro h _ child' ht'
    rw [ht] at ht'
    cases ht'
    exact h

theorem inOrder_list {s t : Int} (hk : st.kind.isList) (hv : leaf.presentAt st a e = true)
    (ht : st.target? a = some child) (hs : st.offset? a e = some s)
    (hn : st.offset? a (e + 1) = some t) :
    InOrder leaf (st :: rest) a e ↔ ∀ j : Nat, s ≤ j → j < t → InOrder leaf rest child j ∧
      ∀ j' : Nat, j < j' → j' < t → Before leaf rest child j j' := by
  have hlist : ∀ P Q R : Prop, (match st.kind with | .leaf => P | .struct => Q | _ => R) = R := by
    intro P Q R
    cases hkind : st.kind <;> simp_all [StepKind.isList]
  rw [inOrder_cons]
  constructor
  · intro h
    have h' := h hv child ht
    rw [hlist] at h'
    exact h' s t hs hn
  · intro h _ child' ht'
    rw [ht] at ht'
    cases ht'
    rw [hlist]
    intro s' t' hs' hn'
    rw [hs] at hs'
    rw [hn] at hn'
    cases hs'
    cases hn'
    exact h

/-- A null slot holds no value, and so do its empty ranges. -/
theorem inOrder_null (hv : leaf.presentAt st a e = false) : InOrder leaf (st :: rest) a e := by
  rw [inOrder_cons]
  intro h
  rw [hv] at h
  cases h

theorem inOrder_leaf (hk : st.kind = .leaf) : InOrder leaf (st :: rest) a e := by
  rw [inOrder_cons, hk]
  exact fun _ _ _ => trivial

end InOrder

section ValueAt

variable {leaf : LeafSpec} {st : PathStep} {rest : List PathStep} {a child : ArrowArray}
  {e p : Nat}

theorem valueAt_null (hv : leaf.presentAt st a e = false) : ¬ ValueAt leaf (st :: rest) a e p := by
  rintro (⟨_, h⟩ | ⟨_, h⟩ | ⟨_, h⟩)
  all_goals
    rw [hv] at h
    cases h

theorem valueAt_leaf (hk : st.kind = .leaf) (hv : leaf.presentAt st a e = true) :
    ValueAt leaf (st :: rest) a e p ↔ p = e := by
  constructor
  · rintro (_ | ⟨hk', _⟩ | ⟨hk', _⟩)
    · rfl
    · rw [hk] at hk'
      cases hk'
    · rw [hk] at hk'
      cases hk'
  · rintro rfl
    exact .leaf hk hv

theorem valueAt_struct (hk : st.kind = .struct) (hv : leaf.presentAt st a e = true)
    (ht : st.target? a = some child) :
    ValueAt leaf (st :: rest) a e p ↔ ValueAt leaf rest child e p := by
  constructor
  · rintro (⟨hk', _⟩ | ⟨_, _, ht', h⟩ | ⟨hk', _⟩)
    · rw [hk] at hk'
      cases hk'
    · rw [ht] at ht'
      cases ht'
      exact h
    · rw [hk] at hk'
      cases hk'
  · exact .struct hk hv ht

theorem valueAt_list {s t : Int} (hk : st.kind.isList) (hv : leaf.presentAt st a e = true)
    (ht : st.target? a = some child) (hs : st.offset? a e = some s)
    (hn : st.offset? a (e + 1) = some t) :
    ValueAt leaf (st :: rest) a e p ↔
      ∃ j : Nat, s ≤ j ∧ j < t ∧ ValueAt leaf rest child j p := by
  constructor
  · rintro (⟨hk', _⟩ | ⟨hk', _⟩ | ⟨_, _, ht', hs', hn', hsj, hjt, h⟩)
    · rw [hk'] at hk
      cases hk
    · rw [hk'] at hk
      cases hk
    · rw [ht] at ht'
      rw [hs] at hs'
      rw [hn] at hn'
      cases ht'
      cases hs'
      cases hn'
      exact ⟨_, hsj, hjt, h⟩
  · rintro ⟨j, hsj, hjt, h⟩
    exact .list hk hv ht hs hn hsj hjt h

end ValueAt

/-- Increasing blocks are increasing together exactly when each is and earlier ones lie before. -/
theorem pairwise_flatMap_range {f : Nat → List Nat} {n : Nat} :
    ((List.range n).flatMap f).Pairwise (· < ·) ↔
      ∀ i < n, (f i).Pairwise (· < ·) ∧ ∀ i', i < i' → i' < n → ∀ p ∈ f i, ∀ p' ∈ f i', p < p' := by
  rw [List.pairwise_flatMap, List.pairwise_iff_getElem]
  simp only [List.mem_range, List.length_range, List.getElem_range]
  constructor
  · rintro ⟨h1, h2⟩ i hi
    exact ⟨h1 i hi, fun i' hii hi' => h2 i i' hi hi' hii⟩
  · intro h
    exact ⟨fun i hi => (h i hi).1, fun i i' hi hi' hii => (h i hi).2 i' hii hi'⟩

/-- What a node's checks let past is what the slot holds. -/
theorem presentAt_of_slot {leaf : LeafSpec} {st : PathStep} {a : ArrowArray} {e : Nat} {b : Bool}
    (h : slot leaf st a e = .ok b) : leaf.presentAt st a e = b := by
  obtain ⟨_, _, _, hb⟩ := slot_eq_ok.mp h
  unfold LeafSpec.presentAt
  cases hopt : st.optional with
  | false =>
    rw [if_neg (by simp [hopt])] at hb
    simp [hb.1]
  | true =>
    rw [if_pos hopt] at hb
    cases hnull : leaf.nullStep st with
    | true =>
      rw [if_pos hnull] at hb
      simp [hb]
    | false =>
      rw [if_neg (by simp [hnull])] at hb
      rcases valid_eq_ok hb with ⟨h0, rfl⟩ | ⟨h0, rfl⟩
      · simp [h0]
      · simp [h0]

/-- The visits of consecutive slots of a node, from what is visited of each of them. -/
theorem slots_inOrder {leaf : LeafSpec} {rest : List PathStep} {child : ArrowArray} {s m : Nat}
    {g : Nat → List Visit}
    (h : ∀ j < m, (∀ p, p ∈ positions (g j) ↔ ValueAt leaf rest child (s + j) p) ∧
      ((positions (g j)).Pairwise (· < ·) ↔ InOrder leaf rest child (s + j))) :
    (∀ p, p ∈ positions ((List.range m).flatMap g) ↔
      ∃ j < m, ValueAt leaf rest child (s + j) p) ∧
    ((positions ((List.range m).flatMap g)).Pairwise (· < ·) ↔
      ∀ j < m, InOrder leaf rest child (s + j) ∧
        ∀ j', j < j' → j' < m → Before leaf rest child (s + j) (s + j')) := by
  rw [positions_flatMap, pairwise_flatMap_range]
  refine ⟨fun p => ?_, ?_, ?_⟩
  · simp only [List.mem_flatMap, List.mem_range]
    exact exists_congr fun j => and_congr_right fun hj => (h j hj).1 p
  · intro hall j hj
    obtain ⟨hsorted, hbefore⟩ := hall j hj
    refine ⟨(h j hj).2.mp hsorted, fun j' hjj hj' p p' hp hp' => ?_⟩
    exact hbefore j' hjj hj' p (((h j hj).1 p).mpr hp) p' (((h j' hj').1 p').mpr hp')
  · intro hall j hj
    obtain ⟨hin, hbefore⟩ := hall j hj
    refine ⟨(h j hj).2.mpr hin, fun j' hjj hj' p hp p' hp' => ?_⟩
    exact hbefore j' hjj hj' p p' (((h j hj).1 p).mp hp) (((h j' hj').1 p').mp hp')

/-- **The walk visits the values of its slot, and in increasing order exactly when they are in
    order.** -/
theorem visit_inOrder (leaf : LeafSpec) : ∀ (steps : List PathStep) (a : ArrowArray) (e r d : Nat)
    (vs : List Visit), visit leaf steps a e r d = .ok vs →
    (∀ p, p ∈ positions vs ↔ ValueAt leaf steps a e p) ∧
      ((positions vs).Pairwise (· < ·) ↔ InOrder leaf steps a e)
  | [], _, _, _, _, _, h => by cases h
  | st :: rest, a, e, r, d, vs, h => by
    rcases visit_cases h with ⟨hs, rfl⟩ | ⟨hs, hk, rfl⟩ | ⟨child, hs, hk, hc, hv⟩ |
      ⟨child, s, hs, hk, hc, rfl⟩ | ⟨child, s, t, hs, hk, hc, hne, hv⟩
    · have hs := presentAt_of_slot hs
      exact ⟨fun p => iff_of_false (by simp [positions]) (valueAt_null hs),
        iff_of_true (by simp [positions]) (inOrder_null hs)⟩
    · have hs := presentAt_of_slot hs
      refine ⟨fun p => ?_, iff_of_true (by simp [positions]) (inOrder_leaf hk)⟩
      rw [valueAt_leaf hk hs]
      simp [positions]
    · have hs := presentAt_of_slot hs
      have ht : st.target? a = some child := by
        simpa [PathStep.target?, hk] using (structChild_eq_ok.mp hc).2
      obtain ⟨hmem, hsorted⟩ := visit_inOrder leaf rest child e r _ vs hv
      exact ⟨fun p => (hmem p).trans (valueAt_struct hk hs ht).symm,
        hsorted.trans (inOrder_struct hk hs ht).symm⟩
    · have hs := presentAt_of_slot hs
      obtain ⟨_, _, hoff, hoff', ⟨_, ht⟩, _⟩ := (listRange_eq_ok hk).mp hc
      rw [Int.toNat_natCast] at hoff hoff'
      refine ⟨fun p => iff_of_false (by simp [positions]) ?_, iff_of_true (by simp [positions]) ?_⟩
      · rw [valueAt_list hk hs ht hoff hoff']
        rintro ⟨j, hsj, hjt, _⟩
        omega
      · rw [inOrder_list hk hs ht hoff hoff']
        intro j hsj hjt
        omega
    · have hs := presentAt_of_slot hs
      obtain ⟨_, _, hoff, hoff', ⟨_, ht⟩, h0, hle, _⟩ := (listRange_eq_ok hk).mp hc
      rw [Int.toNat_natCast] at hoff hoff'
      obtain ⟨g, hg, rfl⟩ := flatMapM_eq_ok.mp hv
      -- element `j` of the slot is slot `s + j` of the child
      have hchild : ∀ j < (t - s).toNat,
          (∀ p, p ∈ positions (g j) ↔ ValueAt leaf rest child (s.toNat + j) p) ∧
            ((positions (g j)).Pairwise (· < ·) ↔ InOrder leaf rest child (s.toNat + j)) := by
        intro j hj
        have hgj := hg j (List.mem_range.mpr hj)
        rw [show s + (j : Int) = ((s.toNat + j : Nat) : Int) by omega] at hgj
        exact visit_inOrder leaf rest child (s.toNat + j) _ _ _ hgj
      obtain ⟨hmem, hsorted⟩ := slots_inOrder hchild
      refine ⟨fun p => (hmem p).trans ?_, hsorted.trans ?_⟩
      · rw [valueAt_list hk hs ht hoff hoff']
        constructor
        · rintro ⟨j, hj, hp⟩
          exact ⟨s.toNat + j, by omega, by omega, hp⟩
        · rintro ⟨j, hsj, hjt, hp⟩
          refine ⟨j - s.toNat, by omega, ?_⟩
          rwa [show s.toNat + (j - s.toNat) = j by omega]
      · rw [inOrder_list hk hs ht hoff hoff']
        constructor
        · intro hall j hsj hjt
          obtain ⟨hin, hbefore⟩ := hall (j - s.toNat) (by omega)
          rw [show s.toNat + (j - s.toNat) = j by omega] at hin hbefore
          refine ⟨hin, fun j' hjj hj't => ?_⟩
          have hb := hbefore (j' - s.toNat) (by omega) (by omega)
          rwa [show s.toNat + (j' - s.toNat) = j' by omega] at hb
        · intro hall j hj
          obtain ⟨hin, hbefore⟩ := hall (s.toNat + j) (by omega) (by omega)
          exact ⟨hin, fun j' hjj hj' => hbefore (s.toNat + j') (by omega) (by omega)⟩

/-- The row loop visits the values of the rows, and in increasing order exactly when they are in
    order. -/
theorem rowVisits_inOrder {leaf : LeafSpec} {column : ArrowArray} {n : Nat} {vs : List Visit}
    (h : rowVisits leaf column n = .ok vs) :
    (positions vs).Pairwise (· < ·) ↔ RowsInOrder leaf column n := by
  obtain ⟨g, hg, rfl⟩ := flatMapM_eq_ok.mp h
  have hrow : ∀ i < n, (∀ p, p ∈ positions (g i) ↔ ValueAt leaf leaf.steps column (0 + i) p) ∧
      ((positions (g i)).Pairwise (· < ·) ↔ InOrder leaf leaf.steps column (0 + i)) := by
    intro i hi
    rw [Nat.zero_add]
    exact visit_inOrder leaf leaf.steps column i 0 0 (g i) (hg i (List.mem_range.mpr hi))
  have hslots := (slots_inOrder hrow).2
  simp only [Nat.zero_add] at hslots
  exact hslots

/-! ## Levels -/

/-- An entry has a value exactly at the path's largest definition level. -/
theorem visit_dfn (leaf : LeafSpec) : ∀ (steps : List PathStep) (k : Nat) (a : ArrowArray)
    (e : Int) (r d : Nat) (vs : List Visit), StepsFrom k steps →
    visit leaf steps a e r d = .ok vs →
    ∀ v ∈ vs, v.value.isSome ↔ v.dfn = d + defLevels steps
  | [], _, _, _, _, _, _, hst, _ => hst.elim
  | st :: rest, k, a, e, r, d, vs, hst, h => by
    have hlevels : defLevels (st :: rest) =
        st.defStep + (if st.kind.isList then 1 else 0) + defLevels rest := rfl
    intro v hv
    rcases visit_cases h with ⟨hs, rfl⟩ | ⟨hs, hk, rfl⟩ | ⟨child, hs, hk, hc, hvs⟩ |
      ⟨child, s, hs, hk, hc, rfl⟩ | ⟨child, s, t, hs, hk, hc, hne, hvs⟩
    · have hopt : st.optional = true := by
        have := (slot_eq_ok.mp hs).2.2.2
        by_contra hno
        rw [if_neg hno] at this
        exact absurd this.1 (by simp)
      rw [List.mem_singleton.mp hv, hlevels, PathStep.defStep, if_pos hopt]
      simp
    · have hrest := hst.leaf hk
      subst hrest
      rw [List.mem_singleton.mp hv, hlevels, hk]
      simp [StepKind.isList, defLevels]
    · rw [hlevels, hk]
      have := visit_dfn leaf rest k child e r _ vs (hst.struct hk) hvs v hv
      simpa [StepKind.isList, Nat.add_assoc] using this
    · rw [List.mem_singleton.mp hv, hlevels, if_pos hk]
      simp
      omega
    · obtain ⟨g, hg, rfl⟩ := flatMapM_eq_ok.mp hvs
      obtain ⟨j, hj, hv⟩ := List.mem_flatMap.mp hv
      have := visit_dfn leaf rest (k + 1) child _ _ _ _ (hst.list hk).2 (hg j hj) v hv
      rw [hlevels, if_pos hk, this]
      omega

/-- The entries at the largest definition level are those with a value. -/
theorem count_dfn {vs : List Visit} {D : Nat} (h : ∀ v ∈ vs, v.value.isSome ↔ v.dfn = D) :
    (vs.map (·.dfn)).count D = (positions vs).length := by
  induction vs with
  | nil => rfl
  | cons v vs ih =>
    have hrest := ih fun u hu => h u (List.mem_cons_of_mem v hu)
    have hv := h v List.mem_cons_self
    rw [List.map_cons, List.count_cons, hrest]
    cases hval : v.value with
    | none =>
      rw [hval] at hv
      have : v.dfn ≠ D := fun hd => by simpa using hv.mpr hd
      simp [this, positions, hval]
    | some p =>
      rw [hval] at hv
      have : v.dfn = D := hv.mp rfl
      simp [this, positions, hval]

/-- A run of rows has as many entries at the largest definition level as values. -/
theorem rowVisits_count {leaf : LeafSpec} {column : ArrowArray} {n : Nat} {vs : List Visit}
    (hst : StepsFrom 0 leaf.steps) (h : rowVisits leaf column n = .ok vs) :
    (vs.map (·.dfn)).count (defLevels leaf.steps) = (positions vs).length := by
  apply count_dfn
  intro v hv
  obtain ⟨g, hg, rfl⟩ := flatMapM_eq_ok.mp h
  obtain ⟨i, hi, hv⟩ := List.mem_flatMap.mp hv
  have := visit_dfn leaf leaf.steps 0 column i 0 0 _ hst (hg i hi) v hv
  rwa [Nat.zero_add] at this

/-! ## Stored values -/

/-- A value's slot in the leaf array is present. -/
theorem ValueAt.present {leaf : LeafSpec} {steps : List PathStep} {a : ArrowArray} {e p : Nat}
    (h : ValueAt leaf steps a e p) :
    ∃ st ∈ steps, ∃ x, st.kind = .leaf ∧ leaf.presentAt st x p = true := by
  induction h with
  | leaf hk hv => exact ⟨_, List.mem_cons_self, _, hk, hv⟩
  | struct _ _ _ _ ih =>
    obtain ⟨st, hst, hx⟩ := ih
    exact ⟨st, List.mem_cons_of_mem _ hst, hx⟩
  | list _ _ _ _ _ _ _ _ ih =>
    obtain ⟨st, hst, hx⟩ := ih
    exact ⟨st, List.mem_cons_of_mem _ hst, hx⟩

/-- The rows a page built under the Shredder's validity stores: one for each increasing
    position. -/
theorem validRows_positions {bytes : Nat} {ps : List Nat} {bs : Bytes} {len : Int}
    (hlen : IsInt64 len) (hbs : ByteSeq.setAll (List.replicate bytes 0) ps = some bs)
    (hbound : ∀ p ∈ ps, (p : Int) < len) (hsorted : ps.Pairwise (· < ·)) :
    (validRows (if ps.length < toSize len then some bs else none) len.toNat).length =
      ps.length := by
  have hnodup : ps.Nodup := hsorted.imp fun hab => Nat.ne_of_lt hab
  have hmem : ∀ p ∈ ps, p ∈ List.range len.toNat := by
    intro p hp
    have := hbound p hp
    rw [List.mem_range]
    omega
  have hle : ps.length ≤ len.toNat := by
    have := (List.subperm_of_subset hnodup hmem).length_le
    rwa [List.length_range] at this
  split
  · -- the set bits below the length are the positions
    have hrows : validRows (some bs) len.toNat = ps := by
      refine List.Perm.eq_of_pairwise (fun a b _ _ h1 h2 => by omega)
        (List.Pairwise.filter _ List.pairwise_lt_range) hsorted ?_
      refine (List.perm_ext_iff_of_nodup (List.Nodup.filter _ List.nodup_range) hnodup).mpr ?_
      intro p
      have hbit : ByteSeq.getBit bs p = some true ↔ p ∈ ps := by
        rw [← ByteSeq.mem_setBits, ByteSeq.mem_setBits_setAll hbs]
      simp only [List.mem_filter, rowValid, beq_iff_eq, hbit]
      exact ⟨fun h => h.2, fun h => ⟨hmem p h, h⟩⟩
    rw [hrows]
  · rename_i hfull
    rw [validRows_none, List.length_range]
    have hsize : toSize len = len.toNat := by
      unfold IsInt64 at hlen
      by_cases h0 : 0 ≤ len
      · exact toSize_of_nonneg h0 (by omega)
      · have hbig : toSize len = (len + 2 ^ 64).toNat := by
          unfold toSize
          rw [← Int.add_emod_right, Int.emod_eq_of_lt (by omega) (by omega)]
        omega
    omega

/-! ## Columns under a list -/

/-- The leaf step of a path stands for its last node. -/
theorem StepsFrom.last {steps : List PathStep} : ∀ {k : Nat}, StepsFrom k steps →
    ∀ st ∈ steps, st.kind = .leaf →
      (stepRepetitions steps).getLast? = some (if st.optional then .optional else .required) := by
  induction steps with
  | nil => intro k h; exact h.elim
  | cons x rest ih =>
    intro k h st hst hk
    have below : ∀ k', StepsFrom k' rest → x.kind ≠ .leaf →
        (stepRepetitions (x :: rest)).getLast? =
          some (if st.optional then .optional else .required) := by
      intro k' hrest hx
      have hmem : st ∈ rest := by
        rcases List.mem_cons.mp hst with rfl | hmem
        · exact absurd hk hx
        · exact hmem
      rw [stepRepetitions_cons, List.getLast?_append, ih hrest st hmem hk]
      rfl
    rcases x.kind.cases_isList with hx | hx | hx
    · have hrest := h.leaf hx
      subst hrest
      rw [List.mem_singleton.mp hst, stepRepetitions_cons]
      simp [PathStep.repetitions, hx, StepKind.isList]
    · exact below k (h.struct hx) (by simp [hx])
    · exact below (k + 1) (h.list hx).2 (StepKind.isList_ne hx).1

/-- A leaf under a list has the type of a column kind, and its step the column's nullability. -/
theorem list_leaf_column {columns : List ArrowSchema} {nodes : List SchemaNode}
    {leaves : List LeafSpec} (h : flattenColumns columns 0 ([], []) = .ok (nodes, leaves))
    {leaf : LeafSpec} (hleaf : leaf ∈ leaves) (hlist : leaf.hasList = true) :
    (∃ (k : ColumnKind) (name : String) (nullable : Bool), leaf.col = k.spec name nullable) ∧
      ∀ st ∈ leaf.steps, st.kind = .leaf → st.optional = leaf.col.nullable := by
  obtain ⟨ts, bs, hf⟩ := flattenColumns_spec columns 0 _ _ h
  have hleaves : leaves = bs.map Branch.column := by simpa using hf.leaves
  rw [hleaves] at hleaf
  obtain ⟨b, hb, rfl⟩ := List.mem_map.mp hleaf
  have hok := hf.ok b hb
  refine ⟨hok.kind, ?_⟩
  have hR : 0 < repLevels b.steps := by simpa [Branch.column, leafSpec] using hlist
  have hsteps : b.column.steps = b.steps := if_pos hR
  rw [hsteps]
  intro st hst hk
  have hlast := hok.steps.last st hst hk
  rw [hok.reps, List.getLast?_map, hok.leaf] at hlast
  show st.optional = b.spec.nullable
  have heq : (leafNode b.spec).repetition = if st.optional then .optional else .required := by
    simpa using hlast
  unfold SchemaNode.repetition leafNode at heq
  cases hs : st.optional <;> cases hn : b.spec.nullable <;> simp_all

/-- What the levels, `present` and the stored values of a leaf's page say together. -/
structure LeafConsistent (leaf : LeafSpec) (k : ColumnKind) (vs : List Visit) (sh : Shredded)
    (inp : LeafInputs) : Prop where
  increasing : (positions vs).Pairwise (· < ·)
  levels : sh.dfn.count leaf.maxDefLevel = sh.presentCount
  bits : (ByteSeq.setBits sh.present).length = sh.presentCount
  stored : ((k.values inp.arr inp.validity).length : Int) = inp.numValues - inp.nullCount

theorem ColumnKind.spec_extract_null {k : ColumnKind} {name : String} {nullable : Bool} :
    (k.spec name nullable).extract = .null ↔ k = .null := by
  cases k <;> simp [ColumnKind.spec]

theorem ColumnKind.length_values {k : ColumnKind} (hk : k ≠ .null) (arr : ArrowArray)
    (validity : Option Bytes) :
    (k.values arr validity).length = (validRows validity arr.length.toNat).length := by
  cases k <;> first | exact absurd rfl hk | exact List.length_map _

/-- A leaf of the null type has no values. -/
theorem positions_nullType {leaf : LeafSpec} (hnull : leaf.col.extract = .null)
    (hopt : ∀ st ∈ leaf.steps, st.kind = .leaf → st.optional = true) {column : ArrowArray} {n : Nat}
    {vs : List Visit} (h : rowVisits leaf column n = .ok vs) : positions vs = [] := by
  refine List.eq_nil_iff_forall_not_mem.mpr fun p hp => ?_
  obtain ⟨i, _, part, hpart, hp⟩ := mem_positions_flatMapM h hp
  have hat := ((visit_inOrder leaf leaf.steps column i 0 0 part hpart).1 p).mp hp
  obtain ⟨st, hst, x, hk, hpresent⟩ := hat.present
  simp [LeafSpec.presentAt, LeafSpec.nullStep, hopt st hst hk, hk, hnull] at hpresent

/-- Under a list the page stores one value for each position, when these increase. -/
theorem storedRows_list {leaf : LeafSpec}
    (hopt : ∀ st ∈ leaf.steps, st.kind = .leaf → st.optional = leaf.col.nullable)
    {column leafArr : ArrowArray} {rows bytes : Nat} {vs : List Visit} {sh : Shredded}
    (hfollow : followSteps leaf.steps column = .ok leafArr)
    (hvisits : rowVisits leaf column rows = .ok vs)
    (hbs : ByteSeq.setAll (List.replicate bytes 0) (positions vs) = some sh.present)
    (hcount : sh.presentCount = (positions vs).length) (hlen : IsInt64 leafArr.length)
    {k : ColumnKind} {name : String} {nullable : Bool} (hcol : leaf.col = k.spec name nullable)
    (hsorted : (positions vs).Pairwise (· < ·)) :
    (k.values leafArr
      (if sh.presentCount < toSize leafArr.length then some sh.present else none)).length =
      (positions vs).length := by
  by_cases hk : k = .null
  · -- the null type stores nothing, and has no positions
    have hnull : leaf.col.extract = .null := by rw [hcol, ColumnKind.spec_extract_null, hk]
    have hnullable : leaf.col.nullable = true := by rw [hcol, hk]; rfl
    have hleaf : ∀ st ∈ leaf.steps, st.kind = .leaf → st.optional = true :=
      fun st hst hkind => (hopt st hst hkind).trans hnullable
    rw [positions_nullType hnull hleaf hvisits, hk]
    rfl
  · have hbound : ∀ p ∈ positions vs, (p : Int) < leafArr.length := by
      intro p hp
      obtain ⟨i, _, part, hpart, hpp⟩ := mem_positions_flatMapM hvisits hp
      exact visit_bound leaf.steps (followSteps_eq_ok hfollow) hpart p hpp
    rw [ColumnKind.length_values hk, hcount]
    exact validRows_positions hlen hbs hbound hsorted

/-- **An accepted batch's levels and values agree exactly when its values are in row order.** -/
theorem listLeaf_consistent_iff {X : External} {w w' : Writer} {schema : Option ArrowSchema}
    {batch : Option Batch} (hw : Reachable X w)
    (h : n2pWriterWriteBatch X w schema (batch.map (·.array)) = some (.ok, w')) :
    ∃ b, batch = some b ∧ ∀ leaf ∈ w'.leaves, leaf.hasList = true →
      ∃ column leafArr vs sh inp,
        topColumn leaf b.array = .ok column ∧
        rowVisits leaf column b.array.length.toNat = .ok vs ∧
        shredLeaf leaf b.array = .ok (leafArr, sh) ∧ sh.Of vs ∧
        leafInputs X leaf b.array = .ok inp ∧
        (∃ (k : ColumnKind) (name : String) (nullable : Bool), leaf.col = k.spec name nullable) ∧
        (IsInt64 leafArr.length → ∀ (k : ColumnKind) (name : String) (nullable : Bool),
          leaf.col = k.spec name nullable →
          (LeafConsistent leaf k vs sh inp ↔
            RowsInOrder leaf column b.array.length.toNat)) := by
  obtain ⟨b, rfl, hacc⟩ := accepted_of_ok hw h
  refine ⟨b, rfl, fun leaf hleaf hlist => ?_⟩
  obtain ⟨columns, hflat, _⟩ := hacc.flattened
  obtain ⟨hst, hD, _⟩ := list_leaf_steps hflat hleaf hlist
  obtain ⟨hkind, hopt⟩ := list_leaf_column hflat hleaf hlist
  obtain ⟨inp, hinp⟩ := hacc.inputs leaf hleaf
  obtain ⟨leafArr, sh, _, _, hshred, _, _, rfl⟩ := leafInputs_list hlist hinp
  obtain ⟨column, vs, hcolumn, hfollow, _, hvisits, hof, hbs⟩ := shredLeaf_eq_ok hshred
  refine ⟨column, leafArr, vs, sh, _, hcolumn, hvisits, hshred, hof, hinp, hkind, ?_⟩
  intro hlen k name nullable hcol
  rw [← rowVisits_inOrder hvisits]
  constructor
  · exact fun hc => hc.increasing
  intro hsorted
  have hlevels : sh.dfn.count leaf.maxDefLevel = sh.presentCount := by
    rw [hof.dfn, hof.count, hD, maxDef_stepRepetitions]
    exact rowVisits_count hst hvisits
  refine ⟨hsorted, hlevels, ?_, ?_⟩
  · rw [ByteSeq.setBits_setAll hbs hsorted, hof.count]
  have hcount : (sh.dfn.length : Int) - ((sh.dfn.length : Int) - sh.presentCount) =
      (positions vs).length := by
    rw [hof.count]
    omega
  show ((k.values leafArr _).length : Int) = _
  rw [hcount, Nat.cast_inj]
  exact storedRows_list hopt hfollow hvisits hbs hof.count hlen hcol hsorted

/-- Arrays that keep the Arrow format have their values in row order. -/
theorem rowsInOrder_wellFormed {leaf : LeafSpec} {column : ArrowArray} {n : Nat} {vs : List Visit}
    (hst : StepsFrom 0 leaf.steps) (hwf : WellFormed leaf leaf.steps column)
    (hn : n ≤ column.length) (h : rowVisits leaf column n = .ok vs) :
    RowsInOrder leaf column n :=
  (rowVisits_inOrder h).mp (rowVisits_sorted hst hwf hn h)

/-! ## Small inputs -/

/-- The schema of a nullable list of nullable numbers. -/
def listSchema : ArrowSchema := .nested "+s" "" false listColumns

/-- `listRows` as a record batch. -/
def listBatch : Batch where
  array := .struct 4 none 0 [listRows]
  int64 := by show IsInt64 4; decide

/-- Three rows, the middle one null, whose offsets go back behind it: `[1, 2]`, `null`, `[1, 2]`. -/
def backwardRows : ArrowArray := .list [0, 2, 0, 2] (some [0b101]) 1 (.int32 [1, 2] none 0)

def backwardBatch : Batch where
  array := .struct 3 none 0 [backwardRows]
  int64 := by show IsInt64 3; decide

/-- A null list slot's offsets are not looked at, so the slot after it may give the same two
    positions again: four entries count as present, two bits are set and two values stored. -/
theorem listLeaf_backwards :
    ∃ w', n2pWriterWriteBatch .reference freshWriter (some listSchema) (some backwardBatch.array) =
        some (.ok, w') ∧ listLeaf ∈ w'.leaves ∧
      ∃ leafArr vs sh inp, topColumn listLeaf backwardBatch.array = .ok backwardRows ∧
        rowVisits listLeaf backwardRows 3 = .ok vs ∧
        shredLeaf listLeaf backwardBatch.array = .ok (leafArr, sh) ∧ sh.Of vs ∧
        leafInputs .reference listLeaf backwardBatch.array = .ok inp ∧
        positions vs = [0, 1, 0, 1] ∧ sh.dfn.count listLeaf.maxDefLevel = 4 ∧
        sh.presentCount = 4 ∧ (ByteSeq.setBits sh.present).length = 2 ∧
        inp.numValues - inp.nullCount = 4 ∧
        ((ColumnKind.int32 false).values inp.arr inp.validity).length = 2 := by
  have hfacts : (n2pWriterWriteBatch .reference freshWriter (some listSchema)
      (some backwardBatch.array)).map (fun r => (r.1, r.2.leaves)) =
      some (.ok, [listLeaf]) := by decide +kernel
  obtain ⟨⟨status, w'⟩, hcall, heq⟩ := Option.map_eq_some_iff.mp hfacts
  simp only [Prod.mk.injEq] at heq
  obtain ⟨rfl, hleaves⟩ := heq
  refine ⟨w', hcall, by rw [hleaves]; exact List.mem_singleton_self _, ?_⟩
  have hset : ByteSeq.setAll (List.replicate 1 0) [0, 1, 0, 1] = some [3] := by decide
  have hout : (shredLeaf listLeaf backwardBatch.array).map (·.2) =
      .ok ⟨[0, 1, 0, 0, 1], [3, 3, 0, 3, 3], [3], 4⟩ := by decide +kernel
  obtain ⟨⟨leafArr, sh⟩, hshred, rfl⟩ := map_eq_ok.mp hout
  refine ⟨leafArr, [⟨0, 3, some 0⟩, ⟨1, 3, some 1⟩, ⟨0, 0, none⟩, ⟨0, 3, some 0⟩, ⟨1, 3, some 1⟩],
    _, _, rfl, by decide +kernel, hshred, ⟨rfl, rfl, fun p => ByteSeq.mem_setBits_setAll hset, rfl⟩,
    rfl, ?_⟩
  decide +kernel

theorem listLeaf_consistent_iff_listRows :
    ∃ w', n2pWriterWriteBatch .reference freshWriter (some listSchema) (some listBatch.array) =
        some (.ok, w') ∧ listLeaf ∈ w'.leaves ∧
      ∃ vs sh inp, rowVisits listLeaf listRows 4 = .ok vs ∧ sh.Of vs ∧
        leafInputs .reference listLeaf listBatch.array = .ok inp ∧
        LeafConsistent listLeaf (.int32 false) vs sh inp := by
  have hfacts : (n2pWriterWriteBatch .reference freshWriter (some listSchema)
      (some listBatch.array)).map (fun r => (r.1, r.2.leaves)) =
      some (.ok, [listLeaf]) := by decide +kernel
  obtain ⟨⟨status, w'⟩, hcall, heq⟩ := Option.map_eq_some_iff.mp hfacts
  simp only [Prod.mk.injEq] at heq
  obtain ⟨rfl, hleaves⟩ := heq
  have hmem : listLeaf ∈ w'.leaves := by rw [hleaves]; exact List.mem_singleton_self _
  have hreach : Reachable .reference freshWriter := ⟨.fresh 8191 none, "out.parquet", [], [], rfl⟩
  obtain ⟨b, hb, hall⟩ := @listLeaf_consistent_iff .reference freshWriter w' (some listSchema)
    (some listBatch) hreach hcall
  cases hb
  obtain ⟨column, leafArr, vs, sh, inp, hcolumn, hvisits, hshred, hof, hinp, _, hiff⟩ :=
    hall listLeaf hmem rfl
  have hc : topColumn listLeaf listBatch.array = .ok listRows := rfl
  rw [hc] at hcolumn
  cases hcolumn
  have harr : (shredLeaf listLeaf listBatch.array).map (fun r => r.1.length) = .ok 3 := rfl
  rw [hshred] at harr
  have hlen : IsInt64 leafArr.length := by
    rw [show leafArr.length = 3 from Except.ok.inj harr]
    decide
  refine ⟨w', hcall, hmem, vs, sh, inp, hvisits, hof, hinp, ?_⟩
  apply (hiff hlen (.int32 false) "element" true rfl).mpr
  apply rowsInOrder_wellFormed (n := 4) ?_ listRows_wellFormed (by decide) hvisits
  exact ⟨rfl, rfl⟩

end N2P
