import Mathlib.Tactic.IntervalCases
import N2P.SchemaTree
import N2P.Visits

/-!
# The Dremel round trip

What a path of Arrow arrays means, independently of the writer: `project` reads row by row what
the arrays hold on a leaf, nulls, empty lists and nested lists included, as a value of the path's
nested type.  `WellFormed` is what the Arrow format promises of the arrays on the path.

* `visit_project` — on well-formed arrays a walk succeeds, and its entries are the striping of
  the projection.
* `visit_positions` — the leaf positions of a slot are increasing and lie before those of the
  next slot, so `present` gives the stored values in emission order.
* `shredder_roundTrip` — record assembly from the levels and values gives back the projected rows.
-/

namespace N2P

open Dremel Outcome Shredder

/-! ## Well-formed arrays -/

/-- One array of the path, as the Arrow format defines it. -/
structure NodeOk (nullType : Bool) (a : ArrowArray) : Prop where
  offset : a.offset = 0
  /-- No bitmap, or one bit for every slot. -/
  bitmap : a.nBuffers < 1 ∨ a.buffers = none ∨
    ∃ v rest, a.buffers = some (v :: rest) ∧ ∀ bm, v = some bm → a.length ≤ 8 * bm.length
  /-- Exact, or not computed. -/
  nullCount : a.nullCount = -1 ∨
    a.nullCount = ((List.range a.length.toNat).countP (a.slotNull nullType) : Nat)

/-- A struct array has a child with all its rows. -/
structure StructOk (st : PathStep) (a child : ArrowArray) : Prop where
  index : (st.child : Int) < a.nChildren
  rows : a.length ≤ child.length

/-- A list array has offsets that are monotone and within its child. -/
structure ListOk (st : PathStep) (a child : ArrowArray) : Prop where
  buffers : 2 ≤ a.nBuffers
  children : 1 ≤ a.nChildren
  /-- A map's entries are a struct of key and value. -/
  entries : st.kind = .map → ∀ entries, a.child? 0 = some entries →
    entries.offset = 0 ∧ entries.nChildren = 2
  offsets : ∀ e : Nat, e < a.length → ∃ s t, st.offset? a e = some s ∧
    st.offset? a (e + 1) = some t ∧ 0 ≤ s ∧ s ≤ t ∧ t ≤ child.length ∧
    (st.kind = .map → ∀ entries, a.child? 0 = some entries → t ≤ entries.length)

theorem ListOk.entriesOk {st : PathStep} {a child : ArrowArray} (h : ListOk st a child) {t : Int}
    (ht : st.kind = .map → ∀ entries, a.child? 0 = some entries → t ≤ entries.length) :
    EntriesOk st a t :=
  fun hk entries he => ⟨(h.entries hk entries he).1, (h.entries hk entries he).2, ht hk entries he⟩

def WellFormed (leaf : LeafSpec) : List PathStep → ArrowArray → Prop
  | [], _ => False
  | st :: rest, a =>
    NodeOk (leaf.nullStep st) a ∧
      (st.kind = .leaf ∨ ∃ child, st.target? a = some child ∧
        (if st.kind = .struct then StructOk st a child else ListOk st a child) ∧
        WellFormed leaf rest child)

/-- No null at a slot the walk of slot `e` comes to, unless the node is OPTIONAL. -/
def NoNulls (leaf : LeafSpec) (steps : List PathStep) (a : ArrowArray) (e : Nat) : Prop :=
  ∀ st' a' e', Reached leaf steps a e st' a' e' → st'.optional = false →
    leaf.nullAt st' a' e' = false

/-! ## The projection on a leaf -/

/-- What an OPTIONAL or REQUIRED node holds. -/
def atNode {α : Type} {p : List Repetition} : (optional null : Bool) → Val α p →
    Val α ((if optional then .optional else .required) :: p)
  | true, true, _ => (none : Option (Val α p))
  | true, false, x => some x
  | false, _, x => x

/-- What a list holds, or any other node. -/
def inList {α : Type} {p : List Repetition} : (isList : Bool) → List (Val α p) → Val α p →
    Val α ((if isList then [.repeated] else []) ++ p)
  | true, xs, _ => xs
  | false, _, x => x

/-- What slot `e` of an array holds on the leaf; `value` reads the leaf array. -/
def project {α : Type} (leaf : LeafSpec) (value : Nat → α) :
    (steps : List PathStep) → ArrowArray → Nat → Val α (stepRepetitions steps)
  | [], _, e => value e
  | st :: rest, a, e =>
    let child := (st.target? a).getD a
    let s := ((st.offset? a e).getD 0).toNat
    let t := ((st.offset? a (e + 1)).getD 0).toNat
    atNode st.optional (leaf.nullAt st a e)
      (inList st.kind.isList
        ((List.range (t - s)).map fun j => project leaf value rest child (s + j))
        (project leaf value rest child e))

theorem shred_atNode {α : Type} {p : List Repetition} (optional null : Bool) (x : Val α p)
    (k r d : Nat) :
    shred ((if optional then .optional else .required) :: p) k r d (atNode optional null x) =
      if optional && null then [⟨r, d, none⟩]
      else shred p k r (d + if optional then 1 else 0) x := by
  cases optional <;> cases null <;> rfl

theorem shred_inList_false {α : Type} {p : List Repetition} {l : Bool} (h : l = false)
    (xs : List (Val α p)) (x : Val α p) (k r d : Nat) :
    shred ((if l then [.repeated] else []) ++ p) k r d (inList l xs x) = shred p k r d x := by
  subst h
  rfl

theorem shred_inList_true {α : Type} {p : List Repetition} {l : Bool} (h : l = true)
    (xs : List (Val α p)) (x : Val α p) (k r d : Nat) :
    shred ((if l then [.repeated] else []) ++ p) k r d (inList l xs x) =
      shred (.repeated :: p) k r d xs := by
  subst h
  rfl

/-- Striping a projected slot: nothing below a null, and otherwise what the node holds. -/
theorem shred_project {α : Type} (leaf : LeafSpec) (value : Nat → α) (st : PathStep)
    (rest : List PathStep) (a : ArrowArray) (e k r d : Nat) :
    shred (stepRepetitions (st :: rest)) k r d (project leaf value (st :: rest) a e) =
      if st.optional && leaf.nullAt st a e then [⟨r, d, none⟩]
      else
        shred ((if st.kind.isList then [.repeated] else []) ++ stepRepetitions rest) k r
          (d + st.defStep)
          (inList st.kind.isList
            ((List.range
                (((st.offset? a (e + 1)).getD 0).toNat - ((st.offset? a e).getD 0).toNat)).map
              fun j => project leaf value rest ((st.target? a).getD a)
                (((st.offset? a e).getD 0).toNat + j))
            (project leaf value rest ((st.target? a).getD a) e)) :=
  shred_atNode st.optional (leaf.nullAt st a e) _ k r d

/-! ## A walk of well-formed arrays -/

theorem NodeOk.valid {a : ArrowArray} (h : NodeOk false a) {e : Nat} (he : e < a.length) :
    Shredder.valid a e = .ok (a.bitAt e) := by
  have hexact : a.nullCount = 0 → a.bitAt e = true := by
    intro h0
    rcases h.nullCount with hn | hn
    · omega
    · rw [h0] at hn
      have hz : (List.range a.length.toNat).countP (a.slotNull false) = 0 := by omega
      have := List.countP_eq_zero.mp hz e (List.mem_range.mpr (by omega))
      simpa [ArrowArray.slotNull] using this
  unfold Shredder.valid
  split
  · rename_i hc
    rcases hc with hc | hc | hc
    · rw [hexact hc]
    · rw [ArrowArray.bitAt, if_pos hc]
    · have hb : a.buffer? 0 = none := by
        unfold ArrowArray.buffer?
        rw [Option.isNone_iff_eq_none.mp hc]
        rfl
      simp [ArrowArray.bitAt, hb]
  · rename_i hc
    push Not at hc
    obtain ⟨_, hnb, hbuf⟩ := hc
    rcases h.bitmap with hb | hb | ⟨v, rest, hb, hbits⟩
    · omega
    · exact absurd (by rw [hb]; rfl) hbuf
    · have hb0 : a.buffer 0 = .ok v := by
        simp [ArrowArray.buffer, hb]
      have hq : a.buffer? 0 = v := by
        simp [ArrowArray.buffer?, hb]
      unfold ArrowArray.bitAt
      rw [if_neg (by omega), hb0, hq]
      cases v with
      | none => rfl
      | some bm =>
        have hlen := hbits bm rfl
        have hsome : (ByteSeq.getBit bm e).isSome := ByteSeq.getBit_isSome.mpr (by omega)
        obtain ⟨b, hbit⟩ := Option.isSome_iff_exists.mp hsome
        simp [readBit, hbit]

theorem NodeOk.slot {leaf : LeafSpec} {st : PathStep} {a : ArrowArray}
    (h : NodeOk (leaf.nullStep st) a) {e : Nat} (he : e < a.length)
    (hn : st.optional = false → leaf.nullAt st a e = false) :
    Shredder.slot leaf st a e = .ok (!(st.optional && leaf.nullAt st a e)) := by
  rw [slot_eq_ok]
  refine ⟨h.offset, by omega, he, ?_⟩
  cases hopt : st.optional with
  | true =>
    rw [if_pos rfl]
    cases hnull : leaf.nullStep st with
    | true => simp [LeafSpec.nullAt, ArrowArray.slotNull, hnull]
    | false =>
      rw [hnull] at h
      rw [if_neg (by simp)]
      simpa [LeafSpec.nullAt, ArrowArray.slotNull, hnull] using h.valid he
  | false =>
    have hnot := hn hopt
    unfold LeafSpec.nullAt ArrowArray.slotNull at hnot
    simp only [Bool.or_eq_false_iff, Bool.not_eq_false'] at hnot
    rw [hnot.1] at h
    simp only [Bool.false_eq_true, if_false, Bool.false_and, Bool.not_false, true_and]
    intro _
    simpa [hnot.2] using h.valid he

theorem NoNulls.struct {leaf : LeafSpec} {st : PathStep} {rest : List PathStep}
    {a child : ArrowArray} {e : Nat} (h : NoNulls leaf (st :: rest) a e)
    (hk : st.kind = .struct) (hv : leaf.nullAt st a e = false) (ht : st.target? a = some child) :
    NoNulls leaf rest child e :=
  fun st' a' e' hr => h st' a' e' (.struct hk (fun _ => hv) ht hr)

theorem NoNulls.list {leaf : LeafSpec} {st : PathStep} {rest : List PathStep}
    {a child : ArrowArray} {e p : Nat} {s t : Int} (h : NoNulls leaf (st :: rest) a e)
    (hk : st.kind.isList) (hv : leaf.nullAt st a e = false) (ht : st.target? a = some child)
    (hs : st.offset? a e = some s) (hn : st.offset? a (e + 1) = some t) (hsp : s ≤ p)
    (hpt : p < t) : NoNulls leaf rest child p :=
  fun st' a' e' hr => h st' a' e' (.list hk (fun _ => hv) ht hs hn hsp hpt hr)

/-- The link to the next array, by the kind of step. -/
theorem WellFormed.link {leaf : LeafSpec} {st : PathStep} {rest : List PathStep} {a : ArrowArray}
    (h : WellFormed leaf (st :: rest) a) (hk : st.kind ≠ .leaf) :
    ∃ child, st.target? a = some child ∧
      (if st.kind = .struct then StructOk st a child else ListOk st a child) ∧
      WellFormed leaf rest child :=
  h.2.resolve_left hk

/-- A present list slot: the visits of its elements, one after the other. -/
theorem visit_project_list {leaf : LeafSpec} {st : PathStep} {rest : List PathStep}
    {a child : ArrowArray} {e k r d : Nat} {s t : Int}
    (hslot : slot leaf st a e = .ok true) (hk : st.kind.isList = true)
    (hrange : listRange leaf st a e = .ok (child, s, t)) (h0 : 0 ≤ s) (hle : s ≤ t)
    (helem : ∀ j : Nat, j < t.toNat - s.toNat → ∃ vs,
      visit leaf rest child (s + j) (if j = 0 then r else st.repLevel) (d + st.defStep + 1) =
        .ok vs ∧ ∀ {α : Type} (value : Nat → α), vs.map (Entry.map value) =
          shred (stepRepetitions rest) (k + 1) (if j = 0 then r else k + 1)
            (d + st.defStep + 1) (project leaf value rest child (s.toNat + j))) :
    ∃ vs, visit leaf (st :: rest) a e r d = .ok vs ∧ ∀ {α : Type} (value : Nat → α),
      vs.map (Entry.map value) =
        shred (.repeated :: stepRepetitions rest) k r (d + st.defStep)
          ((List.range (t.toNat - s.toNat)).map fun j =>
            project leaf value rest child (s.toNat + j)) := by
  have hcount : (t - s).toNat = t.toNat - s.toNat := by omega
  have htotal : ∀ j : Nat, ∃ vs, j < t.toNat - s.toNat →
      visit leaf rest child (s + j) (if j = 0 then r else st.repLevel) (d + st.defStep + 1) =
        .ok vs ∧ ∀ {α : Type} (value : Nat → α), vs.map (Entry.map value) =
          shred (stepRepetitions rest) (k + 1) (if j = 0 then r else k + 1)
            (d + st.defStep + 1) (project leaf value rest child (s.toNat + j)) := by
    intro j
    by_cases hj : j < t.toNat - s.toNat
    · obtain ⟨vs, hvs⟩ := helem j hj
      exact ⟨vs, fun _ => hvs⟩
    · exact ⟨[], fun h => absurd h hj⟩
  choose f hf using htotal
  have hall : flatMapM
      (fun (j : Nat) =>
        visit leaf rest child (s + j) (if j = 0 then r else st.repLevel) (d + st.defStep + 1))
      (List.range (t - s).toNat) = .ok ((List.range (t - s).toNat).flatMap f) :=
    flatMapM_ok fun j hj => (hf j (by rw [List.mem_range] at hj; omega)).1
  rw [visit_list hslot hk hrange, hall]
  by_cases hst : s = t
  · refine ⟨_, if_pos hst, fun value => ?_⟩
    rw [shred_repeated_range, if_pos (by omega)]
    rfl
  · refine ⟨_, if_neg hst, fun value => ?_⟩
    rw [shred_repeated_range, if_neg (by omega), List.map_flatMap, hcount]
    refine List.flatMap_congr fun j hj => ?_
    exact (hf j (List.mem_range.mp hj)).2 value

/-- **A walk's entries are the striping of the projection.** -/
theorem visit_project (leaf : LeafSpec) : ∀ (steps : List PathStep) (k : Nat) (a : ArrowArray)
    (e r d : Nat), StepsFrom k steps → WellFormed leaf steps a → e < a.length →
    NoNulls leaf steps a e →
    ∃ vs, visit leaf steps a e r d = .ok vs ∧ ∀ {α : Type} (value : Nat → α),
      vs.map (Entry.map value) = shred (stepRepetitions steps) k r d (project leaf value steps a e)
  | [], _, _, _, _, _, hst, _, _, _ => hst.elim
  | st :: rest, k, a, e, r, d, hst, hwf, he, hnn => by
    have hslot := hwf.1.slot he (hnn st a e .here)
    cases hnull : st.optional && leaf.nullAt st a e with
    | true =>
      rw [hnull] at hslot
      refine ⟨_, visit_null hslot, fun value => ?_⟩
      rw [shred_project, if_pos hnull]
      rfl
    | false =>
      rw [hnull] at hslot
      have hpresent : leaf.nullAt st a e = false := by
        cases hopt : st.optional with
        | true => simpa [hopt] using hnull
        | false => exact hnn st a e .here hopt
      simp only [shred_project, hnull, Bool.false_eq_true, if_false]
      rcases st.kind.cases_isList with hk | hk | hk
      · have hrest := hst.leaf hk
        subst hrest
        refine ⟨_, visit_leaf hslot hk, fun value => ?_⟩
        rw [shred_inList_false (by rw [hk]; rfl)]
        rfl
      · obtain ⟨child, ht, hlink, hwf'⟩ := hwf.link (by simp [hk])
        rw [if_pos hk] at hlink
        have hc : structChild leaf st a = .ok child := by
          rw [structChild_eq_ok]
          exact ⟨hlink.index, by simpa [PathStep.target?, hk] using ht⟩
        have hrows := hlink.rows
        obtain ⟨vs, hv, hproj⟩ := visit_project leaf rest k child e r (d + st.defStep)
          (hst.struct hk) hwf' (by omega) (hnn.struct hk hpresent ht)
        refine ⟨vs, by rw [visit_struct hslot hk hc, hv], fun value => ?_⟩
        rw [hproj value, shred_inList_false (by rw [hk]; rfl), ht]
        rfl
      · obtain ⟨child, ht, hlink, hwf'⟩ := hwf.link (StepKind.isList_ne hk).1
        rw [if_neg (StepKind.isList_ne hk).2] at hlink
        obtain ⟨s, t, hs, hn, h0, hle, htc, hent⟩ := hlink.offsets e he
        obtain ⟨hlevel, hst'⟩ := hst.list hk
        have hrange : listRange leaf st a e = .ok (child, s, t) :=
          (listRange_eq_ok hk).mpr
            ⟨hlink.buffers, hlink.children, hs, hn, ⟨hlink.entriesOk hent, ht⟩, h0, hle, htc⟩
        -- the elements of the slot, one visit each
        obtain ⟨vs, hv, hproj⟩ := @visit_project_list leaf st rest a child e k r d s t hslot hk
          hrange h0 hle fun j hj => by
            obtain ⟨vs, hv, hproj⟩ := visit_project leaf rest (k + 1) child (s.toNat + j)
              (if j = 0 then r else k + 1) (d + st.defStep + 1) hst' hwf' (by omega)
              (hnn.list hk hpresent ht hs hn (by omega) (by omega))
            refine ⟨vs, ?_, fun value => hproj value⟩
            rw [hlevel, ← hv]
            congr 1
            omega
        refine ⟨vs, hv, fun value => ?_⟩
        simp only [ht, hs, hn, Option.getD_some]
        rw [shred_inList_true hk]
        exact hproj value

/-! ## Leaf positions of well-formed arrays -/

/-- The leaf position at which slot `e` begins. -/
def firstLeaf : List PathStep → ArrowArray → Nat → Nat
  | [], _, e => e
  | st :: rest, a, e =>
    firstLeaf rest ((st.target? a).getD a)
      (if st.kind.isList then ((st.offset? a e).getD 0).toNat else e)

/-- The offsets of a well-formed list are monotone and stay within its child. -/
theorem ListOk.mono {st : PathStep} {a child : ArrowArray} (h : ListOk st a child) {e e' : Nat}
    (he : e ≤ e') (hlen : e' ≤ a.length) (hne : e ≠ e') :
    ((st.offset? a e).getD 0).toNat ≤ ((st.offset? a e').getD 0).toNat ∧
      (((st.offset? a e').getD 0).toNat : Int) ≤ child.length := by
  induction e' with
  | zero => omega
  | succ n ih =>
    obtain ⟨s, t, hs, ht, h0, hst, htc, _⟩ := h.offsets n (by omega)
    rw [ht, Option.getD_some]
    by_cases hn : e = n
    · subst hn
      rw [hs, Option.getD_some]
      omega
    · obtain ⟨ih1, _⟩ := ih (by omega) (by omega) hn
      rw [hs, Option.getD_some] at ih1
      omega

/-- Later slots begin later. -/
theorem firstLeaf_mono (leaf : LeafSpec) : ∀ (steps : List PathStep) (k : Nat) (a : ArrowArray)
    (e e' : Nat), StepsFrom k steps → WellFormed leaf steps a → e ≤ e' → e' ≤ a.length →
    firstLeaf steps a e ≤ firstLeaf steps a e'
  | [], _, _, _, _, hst, _, _, _ => hst.elim
  | st :: rest, k, a, e, e', hst, hwf, he, hlen => by
    by_cases hne : e = e'
    · rw [hne]
    unfold firstLeaf
    rcases st.kind.cases_isList with hk | hk | hk
    · have hrest := hst.leaf hk
      subst hrest
      simpa [hk, StepKind.isList, firstLeaf] using he
    · obtain ⟨child, ht, hlink, hwf'⟩ := hwf.link (by simp [hk])
      rw [if_pos hk] at hlink
      have hrows := hlink.rows
      simpa [hk, StepKind.isList, ht] using
        firstLeaf_mono leaf rest k child e e' (hst.struct hk) hwf' he (by omega)
    · obtain ⟨child, ht, hlink, hwf'⟩ := hwf.link (StepKind.isList_ne hk).1
      rw [if_neg (StepKind.isList_ne hk).2] at hlink
      obtain ⟨hle, htc⟩ := hlink.mono he hlen hne
      simpa [hk, ht] using
        firstLeaf_mono leaf rest (k + 1) child _ _ (hst.list hk).2 hwf' hle htc

/-- Increasing lists, one in each of a run of intervals, are increasing together. -/
theorem pairwise_blocks {b : Nat → Nat} {f : Nat → List Nat} {n : Nat}
    (hb : ∀ j < n, b j ≤ b (j + 1))
    (hf : ∀ j < n, (f j).Pairwise (· < ·) ∧ ∀ p ∈ f j, b j ≤ p ∧ p < b (j + 1)) :
    ((List.range n).flatMap f).Pairwise (· < ·) ∧
      ∀ p ∈ (List.range n).flatMap f, b 0 ≤ p ∧ p < b n := by
  induction n with
  | zero => simp
  | succ n ih =>
    obtain ⟨hp, hin⟩ := ih (fun j hj => hb j (by omega)) fun j hj => hf j (by omega)
    have h0n : b 0 ≤ b n := by
      clear hp hin ih hf
      induction n with
      | zero => exact le_rfl
      | succ n ih =>
        have := ih fun j hj => hb j (by omega)
        have := hb n (by omega)
        omega
    have hlast := hb n (by omega)
    obtain ⟨hfn, hfin⟩ := hf n (by omega)
    rw [List.range_succ, List.flatMap_append, List.flatMap_singleton]
    refine ⟨List.pairwise_append.mpr ⟨hp, hfn, fun p hp q hq => ?_⟩, fun p hp => ?_⟩
    · have := (hin p hp).2
      have := (hfin q hq).1
      omega
    · rcases List.mem_append.mp hp with hp | hp
      · have := hin p hp
        omega
      · have := hfin p hp
        omega

/-- The positions of a run of slots that begin in order. -/
theorem positions_flatMapM_range {f : Nat → Except Fault (List Visit)} {b : Nat → Nat} {n : Nat}
    {vs : List Visit} (h : flatMapM f (List.range n) = .ok vs) (hb : ∀ j < n, b j ≤ b (j + 1))
    (hf : ∀ j < n, ∀ part, f j = .ok part → (positions part).Pairwise (· < ·) ∧
      ∀ p ∈ positions part, b j ≤ p ∧ p < b (j + 1)) :
    (positions vs).Pairwise (· < ·) ∧ ∀ p ∈ positions vs, b 0 ≤ p ∧ p < b n := by
  obtain ⟨g, hg, rfl⟩ := flatMapM_eq_ok.mp h
  rw [positions_flatMap]
  exact pairwise_blocks hb fun j hj => hf j hj _ (hg j (List.mem_range.mpr hj))

/-- **The positions of a slot are increasing and lie between its beginning and the next.** -/
theorem visit_positions (leaf : LeafSpec) : ∀ (steps : List PathStep) (k : Nat) (a : ArrowArray)
    (e r d : Nat) (vs : List Visit), StepsFrom k steps → WellFormed leaf steps a →
    visit leaf steps a e r d = .ok vs →
    (positions vs).Pairwise (· < ·) ∧
      ∀ p ∈ positions vs, firstLeaf steps a e ≤ p ∧ p < firstLeaf steps a (e + 1)
  | [], _, _, _, _, _, _, hst, _, _ => hst.elim
  | st :: rest, k, a, e, r, d, vs, hst, hwf, h => by
    rcases visit_cases h with ⟨_, rfl⟩ | ⟨hs, hk, rfl⟩ | ⟨child, hs, hk, hc, hv⟩ |
      ⟨child, s, hs, hk, hc, rfl⟩ | ⟨child, s, t, hs, hk, hc, hne, hv⟩
    · simp [positions]
    · have hrest := hst.leaf hk
      subst hrest
      simp [positions, firstLeaf, hk, StepKind.isList]
    · obtain ⟨child', ht, _, hwf'⟩ := hwf.link (by simp [hk])
      have hchild : st.target? a = some child := by
        simpa [PathStep.target?, hk] using (structChild_eq_ok.mp hc).2
      rw [hchild] at ht
      cases ht
      have := visit_positions leaf rest k child e r _ vs (hst.struct hk) hwf' hv
      simpa [firstLeaf, hk, StepKind.isList, hchild] using this
    · simp [positions]
    · obtain ⟨child', ht, _, hwf'⟩ := hwf.link (StepKind.isList_ne hk).1
      obtain ⟨_, _, hoff, hoff', ⟨_, hchild⟩, h0, hle, htc⟩ := (listRange_eq_ok hk).mp hc
      rw [hchild] at ht
      cases ht
      rw [Int.toNat_natCast] at hoff hoff'
      have hblocks := positions_flatMapM_range (b := fun j => firstLeaf rest child (s.toNat + j)) hv
        (fun j hj => firstLeaf_mono leaf rest (k + 1) child _ _ (hst.list hk).2 hwf' (by omega)
          (by omega))
        (fun j hj part hpart => by
          have hsj : (s + (j : Int)) = ((s.toNat + j : Nat) : Int) := by omega
          rw [hsj] at hpart
          exact visit_positions leaf rest (k + 1) child _ _ _ part (hst.list hk).2 hwf' hpart)
      have hend : s.toNat + (t - s).toNat = t.toNat := by omega
      simpa [firstLeaf, hk, hchild, hoff, hoff', hend] using hblocks

/-- The rows of well-formed arrays visit increasing positions. -/
theorem rowVisits_sorted {leaf : LeafSpec} {column : ArrowArray} {n : Nat} {vs : List Visit}
    (hst : StepsFrom 0 leaf.steps) (hwf : WellFormed leaf leaf.steps column)
    (hn : n ≤ column.length) (h : rowVisits leaf column n = .ok vs) :
    (positions vs).Pairwise (· < ·) :=
  (positions_flatMapM_range (b := firstLeaf leaf.steps column) h
    (fun j hj => firstLeaf_mono leaf leaf.steps 0 column _ _ hst hwf (by omega) (by omega))
    (fun j hj part hpart => visit_positions leaf leaf.steps 0 column j 0 0 part hst hwf hpart)).1

/-! ## The leaf array -/

/-- The path of a well-formed array leads to its leaf array. -/
theorem followSteps_wellFormed (leaf : LeafSpec) : ∀ (steps : List PathStep) (k : Nat)
    (a : ArrowArray), StepsFrom k steps → WellFormed leaf steps a →
    ∃ x, followSteps steps a = .ok x
  | [], _, _, hst, _ => hst.elim
  | st :: rest, k, a, hst, hwf => by
    unfold followSteps
    by_cases hl : st.kind = .leaf
    · exact ⟨a, if_pos hl⟩
    rw [if_neg hl]
    obtain ⟨child, ht, hlink, hwf'⟩ := hwf.link hl
    have hnext : nextArray st a = .ok child := by
      unfold nextArray
      rcases st.kind.cases_isList with hk | hk | hk
      · exact absurd hk hl
      · rw [if_pos hk] at hlink
        have hc : a.child? st.child = some child := by simpa [PathStep.target?, hk] using ht
        have hidx := hlink.index
        rw [if_neg (by rw [ArrowArray.child?_isSome hc]; simp; omega)]
        simp only [hk, if_pos hidx]
        exact ArrowArray.child_eq_ok.mpr hc
      · rw [if_neg (StepKind.isList_ne hk).2] at hlink
        have hnc := hlink.children
        by_cases hm : st.kind = .map
        · have ht' : (a.child? 0).bind (·.child? st.child) = some child := by
            simpa [PathStep.target?, hm] using ht
          obtain ⟨entries, hentries, hc⟩ := Option.bind_eq_some_iff.mp ht'
          have hsome : entries.children.isSome = true := by
            have := ArrowArray.child?_isSome hc
            cases hch : entries.children <;> simp_all
          rw [if_neg (by rw [ArrowArray.child?_isSome hentries]; simp; omega)]
          simp only [hm, ArrowArray.child_eq_ok.mpr hentries]
          rw [if_pos ⟨hsome, (hlink.entries hm entries hentries).2⟩]
          exact ArrowArray.child_eq_ok.mpr hc
        · have hc : a.child? 0 = some child := by
            unfold PathStep.target? at ht
            cases hkind : st.kind <;> simp_all [StepKind.isList]
          rw [if_neg (by rw [ArrowArray.child?_isSome hc]; simp; omega)]
          cases hkind : st.kind <;>
            simp_all [StepKind.isList, ArrowArray.child_eq_ok.mpr hc]
    rw [hnext]
    have hst' : ∃ k', StepsFrom k' rest := by
      rcases st.kind.cases_isList with hk | hk | hk
      · exact absurd hk hl
      · exact ⟨k, hst.struct hk⟩
      · exact ⟨k + 1, (hst.list hk).2⟩
    obtain ⟨k', hst'⟩ := hst'
    exact followSteps_wellFormed leaf rest k' child hst' hwf'

/-! ## The round trip -/

/-- A leaf under a list keeps its path, and the levels are the path's. -/
theorem list_leaf_steps {columns : List ArrowSchema} {nodes : List SchemaNode}
    {leaves : List LeafSpec} (h : flattenColumns columns 0 ([], []) = .ok (nodes, leaves))
    {leaf : LeafSpec} (hleaf : leaf ∈ leaves) (hlist : leaf.hasList = true) :
    StepsFrom 0 leaf.steps ∧ leaf.maxDefLevel = maxDef (stepRepetitions leaf.steps) ∧
      leaf.maxRepLevel = maxRep (stepRepetitions leaf.steps) := by
  obtain ⟨ts, bs, hf⟩ := flattenColumns_spec columns 0 _ _ h
  have hleaves : leaves = bs.map Branch.column := by simpa using hf.leaves
  rw [hleaves] at hleaf
  obtain ⟨b, hb, rfl⟩ := List.mem_map.mp hleaf
  have hR : 0 < repLevels b.steps := by simpa [Branch.column, leafSpec] using hlist
  have hsteps : b.column.steps = b.steps := if_pos hR
  rw [hsteps, maxDef_stepRepetitions, maxRep_stepRepetitions]
  exact ⟨(hf.ok b hb).steps, rfl, rfl⟩

/-- **Record assembly inverts the Shredder.** -/
theorem shredder_roundTrip {columns : List ArrowSchema} {nodes : List SchemaNode}
    {leaves : List LeafSpec} (hflat : flattenColumns columns 0 ([], []) = .ok (nodes, leaves))
    {leaf : LeafSpec} (hleaf : leaf ∈ leaves) (hlist : leaf.hasList = true)
    {column : ArrowArray} {n : Nat} (hn : n ≤ column.length)
    (hwf : WellFormed leaf leaf.steps column)
    (hnulls : ∀ i < n, NoNulls leaf leaf.steps column i) :
    maxRep (stepRepetitions leaf.steps) = leaf.maxRepLevel ∧
    ∃ leafArr out, followSteps leaf.steps column = .ok leafArr ∧
      Shredder.rows leaf column n
        ⟨[], [], List.replicate ((leafArr.length.toNat + 7) / 8) 0, 0⟩ = .ok out ∧
      ∀ {α : Type} (value : Nat → α),
        assemble (stepRepetitions leaf.steps) leaf.maxDefLevel (out.rep.zip out.dfn)
            ((ByteSeq.setBits out.present).map value) =
          some ((List.range n).map (project leaf value leaf.steps column)) := by
  obtain ⟨hst, hD, hR⟩ := list_leaf_steps hflat hleaf hlist
  obtain ⟨leafArr, hfollow⟩ := followSteps_wellFormed leaf leaf.steps 0 column hst hwf
  refine ⟨hR.symm, leafArr, ?_⟩
  -- every row is visited, and striped as its projection is
  have hrow : ∀ i : Nat, ∃ vs, i < n → visit leaf leaf.steps column i 0 0 = .ok vs ∧
      ∀ {α : Type} (value : Nat → α), vs.map (Entry.map value) =
        shred (stepRepetitions leaf.steps) 0 0 0 (project leaf value leaf.steps column i) := by
    intro i
    by_cases hi : i < n
    · obtain ⟨vs, hv⟩ := visit_project leaf leaf.steps 0 column i 0 0 hst hwf (by omega)
        (hnulls i hi)
      exact ⟨vs, fun _ => hv⟩
    · exact ⟨[], fun h => absurd h hi⟩
  choose f hf using hrow
  have hvisits : rowVisits leaf column n = .ok ((List.range n).flatMap f) :=
    flatMapM_ok fun i hi => (hf i (List.mem_range.mp hi)).1
  have hsorted := rowVisits_sorted hst hwf hn hvisits
  have hfit : ∀ p ∈ positions ((List.range n).flatMap f), p / 8 <
      (List.replicate ((leafArr.length.toNat + 7) / 8) (0 : UInt8)).length := by
    intro p hp
    obtain ⟨i, _, part, hpart, hpp⟩ := mem_positions_flatMapM hvisits hp
    have := visit_bound leaf.steps (followSteps_eq_ok hfollow) hpart p hpp
    rw [List.length_replicate]
    omega
  obtain ⟨bs, hbs⟩ := Option.isSome_iff_exists.mp (ByteSeq.setAll_isSome hfit)
  refine ⟨_, hfollow, rows_eq_ok.mpr ⟨_, bs, hvisits, hbs, rfl⟩, fun value => ?_⟩
  -- the entries with their values are the striped rows
  have hstriped : ((List.range n).flatMap f).map (Entry.map value) =
      shredAll (stepRepetitions leaf.steps)
        ((List.range n).map (project leaf value leaf.steps column)) := by
    rw [shredAll, List.flatMap_map, List.map_flatMap]
    exact List.flatMap_congr fun i hi => (hf i (List.mem_range.mp hi)).2 value
  have hassemble := assemble_shred (stepRepetitions leaf.steps)
    ((List.range n).map (project leaf value leaf.steps column))
  rw [← hstriped, List.map_map, List.filterMap_map, ← hD] at hassemble
  rw [← hassemble, Shredded.after, ByteSeq.setBits_setAll hbs hsorted]
  congr 1
  · simp [List.zip_map', Function.comp_def, Entry.map]
  · simp [positions, List.map_filterMap, Function.comp_def, Entry.map]

/-- A nullable list of nullable numbers. -/
def listColumns : List ArrowSchema := [.nested "+l" "l" true [.leaf "i" "item" true]]

/-- Its leaf. -/
def listLeaf : LeafSpec :=
  leafSpec ((ColumnKind.int32 false).spec "element" true) [0] ["l", "list", "element"] [true]
    [{ kind := .list, optional := true, repLevel := 1 }, { optional := true }]

/-- The rows `[1, null]`, `null`, `[]` and `[3]`. -/
def listRows : ArrowArray :=
  .list [0, 2, 2, 2, 3] (some [0b1101]) 1 (.int32 [1, 0, 3] (some [0b101]) (-1))

theorem listRows_wellFormed : WellFormed listLeaf listLeaf.steps listRows := by
  refine ⟨⟨rfl, ?_, ?_⟩, .inr ⟨_, rfl, ⟨by decide, by decide, nofun, ?_⟩, ⟨rfl, ?_, ?_⟩, .inl rfl⟩⟩
  · exact .inr (.inr ⟨_, _, rfl, fun bm h => by cases h; decide⟩)
  · exact .inr (by decide)
  · intro e he
    have he4 : e < 4 := by simpa [listRows, ArrowArray.list] using he
    interval_cases e
    all_goals exact ⟨_, _, rfl, rfl, by decide, by decide, by decide, nofun⟩
  · exact .inr (.inr ⟨_, _, rfl, fun bm h => by cases h; decide⟩)
  · exact .inl rfl

theorem shredder_roundTrip_listRows :
    maxRep (stepRepetitions listLeaf.steps) = listLeaf.maxRepLevel ∧
    ∃ leafArr out, followSteps listLeaf.steps listRows = .ok leafArr ∧
      Shredder.rows listLeaf listRows 4
        ⟨[], [], List.replicate ((leafArr.length.toNat + 7) / 8) 0, 0⟩ = .ok out ∧
      ∀ {α : Type} (value : Nat → α),
        assemble (stepRepetitions listLeaf.steps) listLeaf.maxDefLevel (out.rep.zip out.dfn)
            ((ByteSeq.setBits out.present).map value) =
          some ((List.range 4).map (project listLeaf value listLeaf.steps listRows)) := by
  refine @shredder_roundTrip listColumns _ [listLeaf] rfl listLeaf List.mem_cons_self rfl
    listRows 4 (by decide) listRows_wellFormed fun i _ st' a' e' h hopt => ?_
  have hall : ∀ st ∈ listLeaf.steps, st.optional = true := by decide
  exact absurd (hall st' h.mem) (by simp [hopt])

end N2P
