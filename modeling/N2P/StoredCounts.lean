import N2P.Bounds
import N2P.LeafPositions
import N2P.PageFraming
import N2P.Refusals

/-!
# How many values a chunk stores

A chunk's `null_count` is what its level entries have more than its values.  Outside lists the row
loop counts the rows it marks; under a list the Shredder counts positions, which are distinct as
long as no list's offsets decrease.

* `MonotoneOffsets`, `rowVisits_monotone` — positions visited below such offsets increase.
* `flatLevel_nullType` — a leaf of the null type outside lists has no value in any row.
* `StoredCounts`, `storedCounts` — what a leaf's chunk counts and what its page stores.
-/

namespace N2P

open Outcome Shredder

/-! ## Offsets that never decrease -/

/-- The offsets of every list array on the path never decrease. -/
def MonotoneOffsets : List PathStep → ArrowArray → Prop
  | [], _ => True
  | st :: rest, a =>
    (st.kind.isList → ∀ i j : Nat, i ≤ j → (j : Int) ≤ a.length → ∀ s t, st.offset? a i = some s →
      st.offset? a j = some t → s ≤ t) ∧
    ∀ child, st.target? a = some child → MonotoneOffsets rest child

/-- Where a position below a slot comes from. -/
inductive PositionFrom (leaf : LeafSpec) (st : PathStep) (rest : List PathStep) (a : ArrowArray)
    (e : Int) (p : Nat) : Prop where
  | leaf (hk : st.kind = .leaf) (hp : p = e.toNat)
  | struct (hk : st.kind = .struct) (child : ArrowArray) (ht : st.target? a = some child)
      (r d : Nat) (part : List Visit) (hv : visit leaf rest child e r d = .ok part)
      (hp : p ∈ positions part)
  | list (hk : st.kind.isList) (child : ArrowArray) (ht : st.target? a = some child) (s t j : Int)
      (hs : st.offset? a e.toNat = some s) (hn : st.offset? a (e.toNat + 1) = some t) (hsj : s ≤ j)
      (hjt : j < t) (r d : Nat) (part : List Visit) (hv : visit leaf rest child j r d = .ok part)
      (hp : p ∈ positions part)

theorem position_from {leaf : LeafSpec} {st : PathStep} {rest : List PathStep} {a : ArrowArray}
    {e : Int} {r d p : Nat} {vs : List Visit} (h : visit leaf (st :: rest) a e r d = .ok vs)
    (hp : p ∈ positions vs) : (0 ≤ e ∧ e < a.length) ∧ PositionFrom leaf st rest a e p := by
  rcases visit_cases h with ⟨_, rfl⟩ | ⟨hs, hk, rfl⟩ | ⟨child, hs, hk, hc, hv⟩ |
    ⟨child, s, hs, hk, hc, rfl⟩ | ⟨child, s, t, hs, hk, hc, hne, hv⟩
  · simp [positions] at hp
  · obtain ⟨_, h0, hlt, _⟩ := slot_eq_ok.mp hs
    exact ⟨⟨h0, hlt⟩, .leaf hk (by simpa [positions] using hp)⟩
  · obtain ⟨_, h0, hlt, _⟩ := slot_eq_ok.mp hs
    have ht : st.target? a = some child := by
      simpa [PathStep.target?, hk] using (structChild_eq_ok.mp hc).2
    exact ⟨⟨h0, hlt⟩, .struct hk child ht _ _ vs hv hp⟩
  · simp [positions] at hp
  · obtain ⟨_, h0, hlt, _⟩ := slot_eq_ok.mp hs
    obtain ⟨_, _, hoff, hoff', ⟨_, ht⟩, _⟩ := (listRange_eq_ok hk).mp hc
    obtain ⟨j, hj, part, hpart, hp⟩ := mem_positions_flatMapM hv hp
    rw [List.mem_range] at hj
    exact ⟨⟨h0, hlt⟩, .list hk child ht s t (s + j) hoff hoff' (by omega) (by omega) _ _ part hpart
      hp⟩

/-- Positions below an earlier slot lie before those below a later one. -/
theorem visit_before (leaf : LeafSpec) (steps : List PathStep) : ∀ (a : ArrowArray) (e e' : Int)
    (r r' d d' : Nat) (vs vs' : List Visit), MonotoneOffsets steps a →
    visit leaf steps a e r d = .ok vs → visit leaf steps a e' r' d' = .ok vs' → e < e' →
    ∀ p ∈ positions vs, ∀ p' ∈ positions vs', p < p' := by
  induction steps with
  | nil =>
    intro a e e' r r' d d' vs vs' _ h
    cases h
  | cons st rest ih =>
    intro a e e' r r' d d' vs vs' hmono h h' hlt p hp p' hp'
    obtain ⟨⟨h0, hle⟩, hfrom⟩ := position_from h hp
    obtain ⟨⟨h0', hle'⟩, hfrom'⟩ := position_from h' hp'
    rcases hfrom with ⟨hk, rfl⟩ | ⟨hk, child, ht, _, _, part, hv, hp⟩ |
      ⟨hk, child, ht, s, t, j, hs, hn, hsj, hjt, _, _, part, hv, hp⟩
    · rcases hfrom' with ⟨_, rfl⟩ | ⟨hk', _⟩ | ⟨hk', _⟩
      · omega
      · rw [hk] at hk'
        cases hk'
      · rw [hk] at hk'
        cases hk'
    · rcases hfrom' with ⟨hk', _⟩ | ⟨_, child', ht', _, _, part', hv', hp'⟩ | ⟨hk', _⟩
      · rw [hk] at hk'
        cases hk'
      · rw [ht] at ht'
        cases ht'
        exact ih child e e' _ _ _ _ part part' (hmono.2 child ht) hv hv' hlt p hp p' hp'
      · rw [hk] at hk'
        cases hk'
    · rcases hfrom' with ⟨hk', _⟩ | ⟨hk', _⟩ |
        ⟨_, child', ht', s', t', j', hs', _, hsj', _, _, _, part', hv', hp'⟩
      · rw [hk'] at hk
        cases hk
      · rw [hk'] at hk
        cases hk
      · rw [ht] at ht'
        cases ht'
        -- the earlier slot ends where, or before, the later one begins
        have hts := hmono.1 hk (e.toNat + 1) e'.toNat (by omega) (by omega) t s' hn hs'
        exact ih child j j' _ _ _ _ part part' (hmono.2 child ht) hv hv' (by omega) p hp p' hp'

/-- Positions below one slot increase. -/
theorem visit_sorted (leaf : LeafSpec) (steps : List PathStep) : ∀ (a : ArrowArray) (e : Int)
    (r d : Nat) (vs : List Visit), MonotoneOffsets steps a → visit leaf steps a e r d = .ok vs →
    (positions vs).Pairwise (· < ·) := by
  induction steps with
  | nil =>
    intro a e r d vs _ h
    cases h
  | cons st rest ih =>
    intro a e r d vs hmono h
    rcases visit_cases h with ⟨_, rfl⟩ | ⟨_, _, rfl⟩ | ⟨child, _, hk, hc, hv⟩ |
      ⟨_, _, _, _, _, rfl⟩ | ⟨child, s, t, _, hk, hc, _, hv⟩
    · simp [positions]
    · simp [positions]
    · have ht : st.target? a = some child := by
        simpa [PathStep.target?, hk] using (structChild_eq_ok.mp hc).2
      exact ih child e _ _ vs (hmono.2 child ht) hv
    · simp [positions]
    · obtain ⟨_, _, _, _, ⟨_, ht⟩, _⟩ := (listRange_eq_ok hk).mp hc
      obtain ⟨g, hg, rfl⟩ := flatMapM_eq_ok.mp hv
      rw [positions_flatMap]
      apply pairwise_flatMap_range.mpr
      intro i hi
      have hvi := hg i (List.mem_range.mpr hi)
      refine ⟨ih child _ _ _ _ (hmono.2 child ht) hvi, fun i' hii hi' => ?_⟩
      have hvi' := hg i' (List.mem_range.mpr hi')
      exact visit_before leaf rest child _ _ _ _ _ _ _ _ (hmono.2 child ht) hvi hvi' (by omega)

/-- **Below offsets that never decrease, the rows visit increasing positions.** -/
theorem rowVisits_monotone {leaf : LeafSpec} {column : ArrowArray} {n : Nat} {vs : List Visit}
    (hmono : MonotoneOffsets leaf.steps column) (h : rowVisits leaf column n = .ok vs) :
    (positions vs).Pairwise (· < ·) := by
  obtain ⟨g, hg, rfl⟩ := flatMapM_eq_ok.mp h
  rw [positions_flatMap]
  apply pairwise_flatMap_range.mpr
  intro i hi
  have hvi := hg i (List.mem_range.mpr hi)
  refine ⟨visit_sorted leaf leaf.steps column _ _ _ _ hmono hvi, fun i' hii hi' => ?_⟩
  have hvi' := hg i' (List.mem_range.mpr hi')
  exact visit_before leaf leaf.steps column _ _ _ _ _ _ _ _ hmono hvi hvi' (by omega)

/-! ## Leaves outside lists -/

/-- A leaf of the null type outside lists has no value in any row. -/
theorem flatLevel_nullType {i : Nat} (nodes : List ArrowArray) :
    ∀ (opts : List Bool) (d d' : Nat) (p : Bool), nodes.length = opts.length →
      opts.getLast? = some true → flatLevel true nodes opts i d = .ok (d', p) → p = false := by
  induction nodes with
  | nil =>
    intro opts d d' p hlen hlast
    have hopts : opts = [] := List.eq_nil_of_length_eq_zero hlen.symm
    rw [hopts] at hlast
    cases hlast
  | cons a as ih =>
    intro opts d d' p hlen hlast h
    cases opts with
    | nil => cases hlen
    | cons optional opts =>
      have hlen' : as.length = opts.length := by simpa using hlen
      rw [flatLevel] at h
      by_cases has : as = []
      · -- the leaf itself
        subst has
        have hopts : opts = [] := List.eq_nil_of_length_eq_zero hlen'.symm
        subst hopts
        have hopt : optional = true := by simpa using hlast
        rw [hopt] at h
        cases h
        rfl
      · have hne : opts ≠ [] := by
          rintro rfl
          exact has (List.eq_nil_of_length_eq_zero hlen')
        have hlast' : opts.getLast? = some true := by
          rwa [List.getLast?_cons_of_ne_nil hne] at hlast
        split at h
        · exact ih opts d d' p hlen' hlast' h
        split at h
        · cases h
          rfl
        split at h
        · cases h
        split at h
        · cases h
        · cases h
          rfl
        · exact ih opts (d + 1) d' p hlen' hlast' h

/-! ## What a chunk counts -/

/-- What a leaf's chunk counts, and what its page stores: the null count is what the level entries
    have more than the values. -/
structure StoredCounts (k : ColumnKind) (inp : LeafInputs) : Prop where
  validity : ValidityOk inp.validity inp.arr.length.toNat
  nullCount : inp.nullCount = (inp.numLevels : Int) - (k.values inp.arr inp.validity).length

/-- Outside lists the last flag of a leaf of the null type says that it is optional. -/
theorem FlatSteps.getLast_optional {leaf : LeafSpec} {steps : List PathStep}
    (hf : FlatSteps leaf steps) (hext : leaf.col.extract = .null) :
    leaf.pathOptional.getLast? = some true := by
  obtain ⟨ss, st, hss, hleaf, _⟩ := hf.structs
  have hst : st.optional = true := hf.nullType hext st (by rw [hss]; simp) hleaf
  rw [hf.opt, hss]
  simp [hst]

/-- No row of a leaf of the null type outside lists is marked as present. -/
theorem validRows_nullType {leaf : LeafSpec} {nodes : List ArrowArray} {n : Nat} {bm : Bytes}
    {level : Nat → Nat × Bool} (hlen : nodes.length = leaf.pathOptional.length)
    (hopt : leaf.pathOptional.count true = leaf.maxDefLevel)
    (hlast : leaf.pathOptional.getLast? = some true)
    (h : ∀ i < n, flatLevel true nodes leaf.pathOptional i 0 = .ok (level i) ∧
      ByteSeq.getBit bm i = some (decide ((level i).1 = leaf.maxDefLevel))) :
    validRows (some bm) n = [] := by
  apply List.filter_eq_nil_iff.mpr
  intro i hi
  obtain ⟨hl, hbit⟩ := h i (List.mem_range.mp hi)
  have hfalse := flatLevel_nullType nodes leaf.pathOptional 0 _ _ hlen hlast hl
  have hbound := (flatLevel_bounds nodes leaf.pathOptional 0 _ _ hlen hl).2
  rw [hfalse, hopt] at hbound
  have hne : ¬ (level i).1 = leaf.maxDefLevel := by simpa using hbound
  simp [rowValid, hbit, hne]

/-- A leaf outside lists. -/
theorem storedCounts_flat {X : External} {columns : List ArrowSchema} {leaf : LeafSpec}
    (hof : LeafOfColumns columns leaf) (hflat : leaf.hasList = false) {batch : ArrowArray}
    {inp : LeafInputs} (hinp : leafInputs X leaf batch = .ok inp) {k : ColumnKind} {name : String}
    {nullable : Bool} (hcol : leaf.col = k.spec name nullable) (hbuf : k.BuffersOk inp.arr) :
    StoredCounts k inp := by
  obtain ⟨hidx, hopt, _⟩ := flat_path hof hflat
  obtain ⟨steps, hsteps⟩ := hof.steps
  have hf := hsteps.flat hflat
  obtain ⟨nodes, child, _, _, _, _, hfollow, _, hvalid, hlv, rfl⟩ := leafInputs_flat hflat hinp
  have hlen : nodes.length = leaf.pathOptional.length := by
    rw [length_followIdx hfollow, hidx]
  have hrows := (validateChild_ok hvalid).1
  have hlength := hbuf.length
  dsimp only at hlength
  have hn : toSize batch.length = child.length.toNat := by
    rw [← hrows, toSize_length hlength]
  rw [hn] at hlv
  have hnull : k = .null → leaf.pathOptional.getLast? = some true := fun hk =>
    hf.getLast_optional (by rw [hcol, ColumnKind.spec_extract_null, hk])
  rcases flatLevels_ok hlv with ⟨hD, fl, p', hfl, hp, heq⟩ | ⟨hD, heq⟩
  · cases heq
    obtain ⟨level, hlevel, _, hbytes, hcount⟩ := flatRows_ok (by omega) hlen hopt hfl
    constructor
    · intro bm hbm
      dsimp only at hbm ⊢
      split at hbm
      · cases hbm
        omega
      · cases hbm
    · show ((child.length.toNat : Int) - fl.presentCount) = (toSize batch.length : Int) - _
      rw [hn]
      by_cases hk : k = .null
      · -- no row of the null type is marked
        have hlast := hnull hk
        have hext : (decide (leaf.col.extract = .null)) = true := by
          rw [hcol, decide_eq_true_iff, ColumnKind.spec_extract_null, hk]
        have hnone : validRows (some fl.present) child.length.toNat = [] :=
          validRows_nullType hlen hopt hlast fun i hi => by
            obtain ⟨hl, _, hbit⟩ := hlevel i hi
            rw [hext] at hl
            exact ⟨hl, hbit⟩
        rw [hcount, hnone, hk]
        rfl
      · rw [ColumnKind.length_values hk]
        congr 2
        dsimp only
        split
        · exact hcount
        · have hle := List.length_filter_le (rowValid (some fl.present))
            (List.range child.length.toNat)
          rw [List.length_range] at hle
          unfold validRows at hcount
          rw [validRows_none, List.length_range]
          omega
  · cases heq
    have hk : k ≠ .null := by
      intro hk
      have hpos : 0 < leaf.pathOptional.count true :=
        List.count_pos_iff.mpr (List.mem_of_getLast? (hnull hk))
      omega
    refine ⟨fun bm hbm => (by cases hbm), ?_⟩
    show (0 : Int) = (toSize batch.length : Int) - ((k.values child none).length : Int)
    rw [ColumnKind.length_values hk, validRows_none, List.length_range, hn, Int.sub_self]

/-- A leaf under a list, over arrays whose offsets never decrease. -/
theorem storedCounts_list {X : External} {columns : List ArrowSchema} {nodes : List SchemaNode}
    {leaves : List LeafSpec} (h : flattenColumns columns 0 ([], []) = .ok (nodes, leaves))
    {leaf : LeafSpec} (hleaf : leaf ∈ leaves) (hlist : leaf.hasList = true) {batch : ArrowArray}
    {inp : LeafInputs} (hinp : leafInputs X leaf batch = .ok inp) {k : ColumnKind} {name : String}
    {nullable : Bool} (hcol : leaf.col = k.spec name nullable) (hbuf : k.BuffersOk inp.arr)
    (hmono : ∀ column, topColumn leaf batch = .ok column → MonotoneOffsets leaf.steps column) :
    StoredCounts k inp := by
  obtain ⟨_, hopt⟩ := list_leaf_column h hleaf hlist
  obtain ⟨leafArr, sh, _, _, hshred, _, _, rfl⟩ := leafInputs_list hlist hinp
  obtain ⟨column, vs, hcolumn, hfollow, _, hvisits, hof, hbs⟩ := shredLeaf_eq_ok hshred
  have hlength := hbuf.length
  dsimp only at hlength
  have hlen : IsInt64 leafArr.length := by
    unfold IsInt64
    omega
  have hsorted := rowVisits_monotone (hmono column hcolumn) hvisits
  constructor
  · intro bm hbm
    dsimp only at hbm ⊢
    split at hbm
    · cases hbm
      have hbound := length_le_present hlen
      rw [ByteSeq.length_setAll hbs, List.length_replicate]
      omega
    · cases hbm
  · have hstored := storedRows_list hopt hfollow hvisits hbs hof.count hlen hcol hsorted
    show (sh.dfn.length : Int) - sh.presentCount = (sh.dfn.length : Int) - _
    rw [hstored, hof.count]

/-- **The null count of a leaf's chunk is what its level entries have more than its values.** -/
theorem storedCounts {X : External} {columns : List ArrowSchema} {nodes : List SchemaNode}
    {leaves : List LeafSpec} (h : flattenColumns columns 0 ([], []) = .ok (nodes, leaves))
    {leaf : LeafSpec} (hleaf : leaf ∈ leaves) {batch : ArrowArray} {inp : LeafInputs}
    (hinp : leafInputs X leaf batch = .ok inp) {k : ColumnKind} {name : String} {nullable : Bool}
    (hcol : leaf.col = k.spec name nullable) (hbuf : k.BuffersOk inp.arr)
    (hmono : leaf.hasList = true → ∀ column, topColumn leaf batch = .ok column →
      MonotoneOffsets leaf.steps column) : StoredCounts k inp := by
  cases hl : leaf.hasList with
  | true => exact storedCounts_list h hleaf hl hinp hcol hbuf (hmono hl)
  | false => exact storedCounts_flat (leafOf_of_flattenColumns h leaf hleaf) hl hinp hcol hbuf

end N2P
