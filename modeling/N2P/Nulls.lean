import Mathlib.Logic.Relation
import N2P.LockedSchema
import N2P.Refusals

/-!
# Nulls in nodes that may not be null

Three places look for them: `validate_child` at the null count of a leaf's array, the walk of a
list's leaf at the bit of every REQUIRED slot of an array that counts its nulls, and the loop of a
leaf outside lists, which skips REQUIRED nodes.  No one looks at the record batch itself, at a
map's entries, or at a REQUIRED node whose null count was not computed.

* `RequiredSlot` — the slots of REQUIRED nodes a row's walk comes to.
* `NullWritten`, `HiddenRefused` — the batches whose nulls are written, and those refused for nulls
  no row comes to.
* `nulls_refused_exactly` — nulls are refused exactly where such a slot is null, but for these.
* `nulls_missed_and_refused` — a null that is written, and an unreached one that is refused.
-/

namespace N2P

open Outcome Shredder

/-! ## Null counts -/

/-- The arrays of a tree. -/
def ArrowArray.Below : ArrowArray → ArrowArray → Prop :=
  Relation.ReflTransGen fun a c => ∃ i, a.child? i = some c

/-- No array of the tree hides a null behind a null count of 0. -/
def ArrowArray.SoundCounts (a : ArrowArray) : Prop :=
  ∀ x, a.Below x → x.nullCount = 0 → ∀ e : Nat, e < x.length → x.bitAt e = true

/-- The cleared bits of an array. -/
def ArrowArray.cleared (a : ArrowArray) : Nat :=
  (List.range a.length.toNat).countP fun e => !a.bitAt e

/-- Every null count is exact or not computed. -/
def ArrowArray.ExactCounts (a : ArrowArray) : Prop :=
  ∀ x, a.Below x → x.nullCount = -1 ∨ x.nullCount = x.cleared

/-- Such counts hide nothing. -/
theorem ArrowArray.ExactCounts.sound {a : ArrowArray} (h : a.ExactCounts) : a.SoundCounts := by
  intro x hx h0 e he
  rcases h x hx with hn | hn
  · omega
  · have hzero : x.cleared = 0 := by omega
    have := List.countP_eq_zero.mp hzero e (List.mem_range.mpr (by omega))
    simpa using this

theorem ArrowArray.Below.target {st : PathStep} {a child : ArrowArray}
    (h : st.target? a = some child) : a.Below child := by
  unfold PathStep.target? at h
  cases hk : st.kind with
  | leaf =>
    rw [hk] at h
    cases h
    exact .refl
  | struct =>
    rw [hk] at h
    exact .single ⟨_, h⟩
  | list =>
    rw [hk] at h
    exact .single ⟨_, h⟩
  | largeList =>
    rw [hk] at h
    exact .single ⟨_, h⟩
  | map =>
    rw [hk] at h
    obtain ⟨entries, he, hc⟩ := Option.bind_eq_some_iff.mp h
    exact .head ⟨_, he⟩ (.single ⟨_, hc⟩)

theorem ArrowArray.SoundCounts.below {a x : ArrowArray} (h : a.SoundCounts) (hx : a.Below x) :
    x.SoundCounts :=
  fun y hy => h y (hx.trans hy)

/-! ## Slots that may not be null -/

/-- The slots row `i`'s loop comes to on a path outside lists, and whether they are the leaf's: only
    an OPTIONAL node's null ends it. -/
inductive FlatReached (i : Nat) :
    List ArrowArray → List Bool → ArrowArray → Bool → Bool → Prop where
  | here {a as optional opts} : FlatReached i (a :: as) (optional :: opts) a optional as.isEmpty
  | next {a as optional opts x o isLeaf} (hv : optional = true → a.bitAt i = true)
      (h : FlatReached i as opts x o isLeaf) : FlatReached i (a :: as) (optional :: opts) x o isLeaf

/-- A slot of a node that may not be null, which row `i` comes to on the way to the leaf; `counted`
    says that some check looks at the null count of its array. -/
inductive RequiredSlot (leaf : LeafSpec) (b : ArrowArray) (i : Nat) :
    (counted : Bool) → ArrowArray → Nat → Prop where
  | batch : RequiredSlot leaf b i false b i
  | struct {nodes x} (hl : leaf.hasList = false) (hn : followIdx leaf.pathIdx b = .ok nodes)
      (h : FlatReached i nodes leaf.pathOptional x false false) : RequiredSlot leaf b i false x i
  | column {nodes x o} (hl : leaf.hasList = false) (hn : followIdx leaf.pathIdx b = .ok nodes)
      (h : FlatReached i nodes leaf.pathOptional x o true) (ho : leaf.col.nullable = false) :
      RequiredSlot leaf b i true x i
  | walked {column st a e} (hl : leaf.hasList = true) (hc : topColumn leaf b = .ok column)
      (h : Reached leaf leaf.steps column i st a e) (ho : st.optional = false) :
      RequiredSlot leaf b i true a e
  | entries {column st a entries} {e p : Nat} {s t : Int} (hl : leaf.hasList = true)
      (hc : topColumn leaf b = .ok column) (h : Reached leaf leaf.steps column i st a e)
      (hk : st.kind = .map) (hv : st.optional = true → leaf.nullAt st a e = false)
      (he : a.child? 0 = some entries) (hs : st.offset? a e = some s)
      (hn : st.offset? a (e + 1) = some t) (hsp : s ≤ p) (hpt : p < t) :
      RequiredSlot leaf b i false entries p

section Nulls

variable (leaves : List LeafSpec) (b : ArrowArray)

/-- Some row comes to a null where none may be. -/
def NullReached : Prop :=
  ∃ leaf ∈ leaves, ∃ i < b.length.toNat, ∃ counted x p,
    RequiredSlot leaf b i counted x p ∧ x.bitAt p = false

/-- Some row comes to one in an array that counts its nulls, and where the count is looked at. -/
def NullChecked : Prop :=
  ∃ leaf ∈ leaves, ∃ i < b.length.toNat, ∃ counted x p,
    RequiredSlot leaf b i counted x p ∧ x.bitAt p = false ∧ counted = true ∧ 0 < x.nullCount

/-- Some row comes to one that no check looks at. -/
def NullUnchecked : Prop :=
  ∃ leaf ∈ leaves, ∃ i < b.length.toNat, ∃ counted x p,
    RequiredSlot leaf b i counted x p ∧ x.bitAt p = false ∧ ¬ (counted = true ∧ 0 < x.nullCount)

variable {leaves b}

theorem nullReached_iff : NullReached leaves b ↔ NullChecked leaves b ∨ NullUnchecked leaves b := by
  constructor
  · rintro ⟨leaf, hleaf, i, hi, counted, x, p, hslot, hbit⟩
    by_cases hc : counted = true ∧ 0 < x.nullCount
    · exact .inl ⟨leaf, hleaf, i, hi, counted, x, p, hslot, hbit, hc⟩
    · exact .inr ⟨leaf, hleaf, i, hi, counted, x, p, hslot, hbit, hc⟩
  · rintro (⟨leaf, hleaf, i, hi, counted, x, p, hslot, hbit, _⟩ |
      ⟨leaf, hleaf, i, hi, counted, x, p, hslot, hbit, _⟩)
    · exact ⟨leaf, hleaf, i, hi, counted, x, p, hslot, hbit⟩
    · exact ⟨leaf, hleaf, i, hi, counted, x, p, hslot, hbit⟩

end Nulls

/-! ## An accepted batch -/

/-- The leaf array is the last node of a path outside lists. -/
theorem FlatReached.last {i : Nat} {nodes : List ArrowArray} {opts : List Bool} {x : ArrowArray}
    {o isLeaf : Bool} (h : FlatReached i nodes opts x o isLeaf) (hl : isLeaf = true) :
    nodes.getLast? = some x := by
  induction h with
  | @here a as _ _ =>
    rw [List.isEmpty_iff.mp hl]
    rfl
  | @next a as _ _ x _ _ _ _ ih =>
    have hlast := ih hl
    cases as with
    | nil => cases hlast
    | cons y ys => rw [List.getLast?_cons_cons, hlast]

section Accepted

variable {X : External} {leaves : List LeafSpec} {b : ArrowArray}

theorem not_nullChecked (h : ∀ leaf ∈ leaves, ∃ inp, leafInputs X leaf b = .ok inp) :
    ¬ NullChecked leaves b := by
  rintro ⟨leaf, hleaf, i, hi, counted, x, p, hslot, hbit, hcounted, hpos⟩
  cases hslot with
  | batch => cases hcounted
  | struct _ _ _ => cases hcounted
  | entries _ _ _ _ _ _ _ _ _ _ => cases hcounted
  | column hl hn hflat ho =>
    obtain ⟨inp, hinp⟩ := h leaf hleaf
    have hx : LeafArray leaf b x := by
      rw [LeafArray, if_neg (by simp [hl])]
      exact ⟨_, hn, hflat.last rfl⟩
    obtain ⟨rows, hvalid⟩ := hx.check hinp
    exact (validateChild_ok hvalid).2.2 ho hpos
  | @walked column st _ _ hl hc hreached ho =>
    obtain ⟨inp, hinp⟩ := h leaf hleaf
    obtain ⟨_, _, _, _, hshred, _⟩ := leafInputs_list hl hinp
    obtain ⟨column', vs, hc', _, _, hvisits, _⟩ := shredLeaf_eq_ok hshred
    rw [hc] at hc'
    cases hc'
    obtain ⟨g, hg, _⟩ := flatMapM_eq_ok.mp hvisits
    obtain ⟨_, _, _, _, hvisit⟩ := reached_visit hreached (hg i (List.mem_range.mpr hi))
    obtain ⟨present, hs⟩ := visit_slot hvisit
    obtain ⟨_, _, _, hrest⟩ := slot_eq_ok.mp hs
    rw [if_neg (by simp [ho])] at hrest
    rcases valid_eq_ok (hrest.2 hpos) with ⟨h0, _⟩ | ⟨_, hset⟩
    · omega
    · rw [Int.toNat_natCast, hbit] at hset
      cases hset

end Accepted

/-! ## A refused batch -/

/-- The reason names a null. -/
def Refusal.ofNulls : Refusal → Bool
  | .nullsNotNullable _ => true
  | .shred _ .nullInRequired => true
  | _ => false

/-- A node refuses a null only in an array that counts its nulls. -/
theorem slot_refused {leaf : LeafSpec} {st : PathStep} {a : ArrowArray} {e : Nat} {why : Refusal}
    (h : slot leaf st a e = .error (.refused why)) (hwhy : why.ofNulls = true) :
    st.optional = false ∧ 0 < a.nullCount ∧ a.bitAt e = false := by
  have hvalid : Unrefusing (valid a e) := by
    unfold valid
    split
    · exact failsIn_ok _
    split
    · rename_i hb
      exact (unrefusing_buffer a 0).rethrow hb
    · exact failsIn_ok _
    · exact unrefusing_readBit _ _
  unfold slot enter at h
  rw [map_eq_error] at h
  split at h
  · cases h
    cases hwhy
  split at h
  · cases h
    cases hwhy
  split at h
  · split at h
    · cases h
    split at h
    · rename_i hv
      cases h
      exact absurd rfl (hvalid _ hv why)
    · cases h
  · rename_i hopt
    split at h
    · rename_i hpos
      split at h
      · rename_i hv
        cases h
        exact absurd rfl (hvalid _ hv why)
      rename_i present hv
      split at h
      · cases h
      rename_i hpresent
      have hfalse : present = false := by simpa using hpresent
      rw [hfalse] at hv
      refine ⟨by simpa using hopt, hpos, ?_⟩
      rcases valid_eq_ok hv with ⟨_, hf⟩ | ⟨_, hf⟩
      · cases hf
      · exact hf.symm
    · cases h

theorem structChild_refused {leaf : LeafSpec} {st : PathStep} {a : ArrowArray} {why : Refusal}
    (h : structChild leaf st a = .error (.refused why)) : why.ofNulls = false := by
  unfold structChild at h
  split at h
  · cases h
    rfl
  · exact absurd rfl (unrefusing_child a _ _ h why)

theorem listRange_refused {leaf : LeafSpec} {st : PathStep} {a : ArrowArray} {e : Nat}
    {why : Refusal} (h : listRange leaf st a e = .error (.refused why)) : why.ofNulls = false := by
  unfold listRange at h
  split at h
  · cases h
    rfl
  split at h
  · rename_i hb
    cases h
    exact absurd rfl (unrefusing_buffer a 1 _ hb why)
  · cases h
    rfl
  split at h
  · cases h
    rfl
  dsimp only at h
  split at h
  · split at h
    · rename_i htarget
      cases h
      split at htarget
      · split at htarget
        · cases htarget
          rfl
        split at htarget
        · cases htarget
          rfl
        · exact absurd rfl (unrefusing_child _ _ _ htarget why)
      · cases htarget
    split at h
    · cases h
      rfl
    · cases h
  · cases h

/-- A slot the checks let past holds something, where null counts are sound. -/
theorem passes_of_slot {leaf : LeafSpec} {st : PathStep} {a : ArrowArray} {e : Nat}
    (hcounts : a.SoundCounts) (h : slot leaf st a e = .ok true) :
    st.optional = true → leaf.nullAt st a e = false := by
  intro hopt
  obtain ⟨_, _, hlen, hb⟩ := slot_eq_ok.mp h
  rw [if_pos hopt] at hb
  split at hb
  · cases hb
  rename_i hnull
  unfold LeafSpec.nullAt ArrowArray.slotNull
  have hbit : a.bitAt e = true := by
    rcases valid_eq_ok hb with ⟨h0, _⟩ | ⟨_, hset⟩
    · exact hcounts a .refl h0 e hlen
    · exact hset.symm
  simp [hbit, hnull]

/-- **A walk that is refused for a null comes to one its array counts.** -/
theorem visit_refused {leaf : LeafSpec} {why : Refusal} (hwhy : why.ofNulls = true) :
    ∀ (steps : List PathStep) (a : ArrowArray) (e r d : Nat), a.SoundCounts →
      visit leaf steps a e r d = .error (.refused why) →
      ∃ st' a' e', Reached leaf steps a e st' a' e' ∧ st'.optional = false ∧ 0 < a'.nullCount ∧
        a'.bitAt e' = false
  | [], _, _, _, _, _, h => by cases h
  | st :: rest, a, e, r, d, hcounts, h => by
    rcases visit_faults h with hs | ⟨_, _, hc⟩ | ⟨child, hs, hk, hc, hv⟩ | ⟨_, _, hc⟩ |
      ⟨child, s, t, hs, hk, hc, j, hj, hv⟩
    · exact ⟨st, a, e, .here, slot_refused hs hwhy⟩
    · rw [structChild_refused hc] at hwhy
      cases hwhy
    · have ht : st.target? a = some child := by
        simpa [PathStep.target?, hk] using (structChild_eq_ok.mp hc).2
      obtain ⟨st', a', e', hr, hnull⟩ :=
        visit_refused hwhy rest child e r _ (hcounts.below (.target ht)) hv
      exact ⟨st', a', e', .struct hk (passes_of_slot hcounts hs) ht hr, hnull⟩
    · rw [listRange_refused hc] at hwhy
      cases hwhy
    · obtain ⟨_, _, hoff, hoff', ⟨_, ht⟩, h0, _⟩ := (listRange_eq_ok hk).mp hc
      rw [Int.toNat_natCast] at hoff hoff'
      rw [show s + (j : Int) = ((s.toNat + j : Nat) : Int) by omega] at hv
      obtain ⟨st', a', e', hr, hnull⟩ :=
        visit_refused hwhy rest child (s.toNat + j) _ _ (hcounts.below (.target ht)) hv
      refine ⟨st', a', e', ?_, hnull⟩
      exact .list hk (passes_of_slot hcounts hs) ht hoff hoff' (by omega) (by omega) hr

theorem validateChild_refused {x : ArrowArray} {s : ColumnSpec} {rows : Int} {why : Refusal}
    (h : validateChild x s rows = .error (.refused why)) (hwhy : why.ofNulls = true) :
    x.length = rows ∧ x.offset = 0 ∧ s.nullable = false ∧ 0 < x.nullCount := by
  unfold validateChild at h
  split at h
  · cases h
    cases hwhy
  rename_i hlen
  split at h
  · cases h
    cases hwhy
  rename_i hoff
  split at h
  · rename_i hnull
    exact ⟨not_not.mp hlen, not_not.mp hoff, by simpa using hnull.2, hnull.1⟩
  split at h
  · cases h
  dsimp only at h
  generalize (if s.extract = .byteArray then (3 : Int) else 2) = need at h
  split at h
  · cases h
    cases hwhy
  · cases h

theorem topColumn_below {leaf : LeafSpec} {b column : ArrowArray}
    (h : topColumn leaf b = .ok column) : b.Below column := by
  unfold topColumn at h
  split at h
  · cases h
  split at h
  · cases h
  · exact .single ⟨_, ArrowArray.child_eq_ok.mp h⟩

/-- The leaf's own check refuses it for nulls: its array fits the rows, is no slice, and counts
    nulls, whether or not a row comes to them. -/
def CountRefused (leaf : LeafSpec) (b : ArrowArray) : Prop :=
  leaf.col.nullable = false ∧ ∃ x, LeafArray leaf b x ∧
    (leaf.hasList = false → x.length = b.length) ∧ x.offset = 0 ∧ 0 < x.nullCount

/-- Such a leaf is refused. -/
theorem CountRefused.refused {X : External} {leaf : LeafSpec} {b : ArrowArray}
    (h : CountRefused leaf b) :
    leafInputs X leaf b = .error (.refused (.nullsNotNullable leaf.col.name)) := by
  obtain ⟨hnull, x, hx, hlen, hoff, hpos⟩ := h
  refine leafInputs_of_array hx ?_
  have hrows : x.length = if leaf.hasList then x.length else b.length := by
    cases hl : leaf.hasList with
    | true => rfl
    | false => exact hlen hl
  unfold validateChild
  rw [if_neg (not_not.mpr hrows), if_neg (not_not.mpr hoff), if_pos ⟨hpos, by simp [hnull]⟩]

/-- **A leaf refused for a null comes to one its array counts**, or counts some in its array. -/
theorem leafRefused_nulls {leaves : List LeafSpec} {leaf : LeafSpec} {b : ArrowArray}
    {why : Refusal} (hcounts : b.SoundCounts) (hleaf : leaf ∈ leaves) (h : LeafRefused leaf b why)
    (hwhy : why.ofNulls = true) : NullReached leaves b ∨ CountRefused leaf b := by
  cases h with
  | path => cases hwhy
  | @array x _ hx hcheck =>
    obtain ⟨hlen, hoff, hnull, hpos⟩ := validateChild_refused hcheck hwhy
    refine .inr ⟨hnull, x, hx, fun hl => ?_, hoff, hpos⟩
    rw [hlen, if_neg (by simp [hl])]
  | walk hl hc hv =>
    obtain ⟨i, hi, hrow⟩ := flatMapM_eq_error hv
    obtain ⟨st, a, e, hr, hopt, hpos, hbit⟩ :=
      visit_refused hwhy _ _ i 0 0 (hcounts.below (topColumn_below hc)) hrow
    exact .inl ⟨leaf, hleaf, i, List.mem_range.mp hi, true, a, e, .walked hl hc hr hopt, hbit⟩

/-! ## Nulls, refused or written -/

section Calls

variable (X : External) (w : Writer) (schema : Option ArrowSchema) (b : ArrowArray)

/-- A batch is refused for a null, by a check of one of its leaves. -/
def RefusedForNulls (w' : Writer) : Prop :=
  w.out.isOpen = true ∧ ∃ why : Refusal, why.ofNulls = true ∧
    writeOneBatch X schema (some b) w = .error (.refused .invalidArgument why) w'

/-- **Nulls are refused exactly where the schema allows none**: an accepted batch comes to no null in
    a node that may not be null, and one refused for a null comes to one. -/
structure NullsRefusedExactly : Prop where
  accepted : ∀ w', n2pWriterWriteBatch X w schema (some b) = some (.ok, w') →
    ¬NullReached w'.leaves b
  refused : ∀ w', RefusedForNulls X w schema b w' → NullReached w'.leaves b

/-- Every leaf builds and the stream takes them, though a row comes to a null that no check looks
    at. -/
def NullWritten : Prop :=
  w.out.isOpen = true ∧ ∃ t ps, BuildsBatch X schema (some b) w t ps ∧
    (w.out.writeAll ps).good = true ∧ NullUnchecked t.leaves b

/-- The first leaf that does not build counts nulls, though no row comes to any. -/
def HiddenRefused : Prop :=
  w.out.isOpen = true ∧ ∃ sc w1 before leaf after, checkArguments schema (some b) = .ok (sc, b) ∧
    Locked sc w w1 ∧ w1.leaves = before ++ leaf :: after ∧
    (∀ l ∈ before, LeafBuilds X b w.codec w.encoding l) ∧ CountRefused leaf b ∧
    ¬NullReached w1.leaves b

variable {X w schema b}

/-- A batch that builds has come to no null a check looks at. -/
theorem BuildsBatch.nullReached_iff {t : Writer} {ps : List Bytes}
    (h : BuildsBatch X schema (some b) w t ps) :
    NullReached t.leaves b ↔ NullUnchecked t.leaves b := by
  rcases h with @⟨sc, _, w1, xs, hargs, _, hm⟩
  obtain ⟨_, hb, _⟩ := checkArguments_eq_ok.mp hargs
  cases hb
  obtain ⟨hleaves, hof, _⟩ := leavesEmission_eq_ok hm
  have hinputs : ∀ leaf ∈ w1.leaves, ∃ inp, leafInputs X leaf b = .ok inp := by
    intro leaf hleaf
    rw [← hleaves] at hleaf
    obtain ⟨x, hx, rfl⟩ := List.mem_map.mp hleaf
    exact ⟨x.inp, (hof x hx).inputs⟩
  show NullReached w1.leaves b ↔ NullUnchecked w1.leaves b
  rw [N2P.nullReached_iff, or_iff_right (not_nullChecked hinputs)]

theorem nullWritten_iff :
    NullWritten X w schema b ↔ ∃ w', n2pWriterWriteBatch X w schema (some b) = some (.ok, w') ∧
      NullReached w'.leaves b := by
  constructor
  · rintro ⟨hopen, t, ps, hbuilds, hgood, hnull⟩
    obtain ⟨msg, hx⟩ := writeBatch_builds hopen hbuilds
    rw [← hbuilds.out] at hgood
    rw [show t.commitStatus = .ok from if_pos hgood] at hx
    exact ⟨_, hx, hbuilds.nullReached_iff.mpr hnull⟩
  · rintro ⟨w', hx, hnull⟩
    have hopen : w.out.isOpen = true := by
      by_contra hclosed
      rw [n2pWriterWriteBatch, if_neg hclosed] at hx
      cases hx
    rcases writeBatch_course hopen hx with ⟨t, ps, h⟩ | ⟨t, ps, h⟩
    · obtain ⟨status, msg, hs, hx'⟩ := writeBatch_stops hopen h
      rw [hx] at hx'
      cases hx'
      exact absurd rfl hs
    · obtain ⟨msg, hx'⟩ := writeBatch_builds hopen h
      rw [hx] at hx'
      simp only [Option.some.injEq, Prod.mk.injEq] at hx'
      obtain ⟨hstatus, rfl⟩ := hx'
      refine ⟨hopen, t, ps, h, ?_, h.nullReached_iff.mp hnull⟩
      rw [← h.out]
      unfold Writer.commitStatus at hstatus
      by_contra hbad
      rw [if_neg hbad] at hstatus
      cases hstatus

theorem hiddenRefused_iff (hcounts : b.SoundCounts) :
    HiddenRefused X w schema b ↔
      ∃ w', RefusedForNulls X w schema b w' ∧ ¬NullReached w'.leaves b := by
  have hargs : ∀ {why : Refusal}, why.ofNulls = true → why.ofArguments = false := by
    intro why h
    cases why with
    | nullsNotNullable name => rfl
    | shred name e => rfl
    | _ => cases h
  constructor
  · rintro ⟨hopen, sc, w1, before, leaf, after, hchecks, hlock, hleaves, hbefore, hcount, hnull⟩
    obtain ⟨w', hx, hw'⟩ := (@writeOneBatch_refused X schema b w w1.leaves
      (.nullsNotNullable leaf.col.name) rfl).mpr
      ⟨sc, w1, leaf, hchecks, hlock, rfl, before, after, hleaves, hbefore, hcount.refused⟩
    rw [← hw'] at hnull
    exact ⟨w', ⟨hopen, _, rfl, hx⟩, hnull⟩
  · rintro ⟨w', ⟨hopen, why, hwhy, hx⟩, hnull⟩
    obtain ⟨sc, w1, leaf, hchecks, hlock, hw', before, after, hleaves, hbefore, hinputs⟩ :=
      (writeOneBatch_refused (hargs hwhy)).mp ⟨w', hx, rfl⟩
    rw [← hw'] at hnull hleaves
    have hleaf : leaf ∈ w1.leaves := by simp [hleaves]
    refine ⟨hopen, sc, w1, before, leaf, after, hchecks, hlock, hleaves, hbefore, ?_, hnull⟩
    exact (leafRefused_nulls hcounts hleaf (leafInputs_refused hinputs) hwhy).resolve_left hnull

/-- **When nulls are refused exactly where the schema allows none**: unless every leaf builds over a
    null no check looks at, or the first leaf that does not build counts nulls no row comes to. -/
theorem nulls_refused_exactly (hcounts : b.SoundCounts) :
    NullsRefusedExactly X w schema b ↔ ¬NullWritten X w schema b ∧ ¬HiddenRefused X w schema b := by
  rw [nullWritten_iff, hiddenRefused_iff hcounts]
  push Not
  exact ⟨fun h => ⟨h.accepted, h.refused⟩, fun h => ⟨h.1, h.2⟩⟩

end Calls

/-! ## Small inputs -/

theorem ArrowArray.below_leaf {a x : ArrowArray} (ha : a.children = none) (h : a.Below x) :
    x = a := by
  rcases Relation.ReflTransGen.cases_head h with h | ⟨c, ⟨i, hc⟩, _⟩
  · exact h.symm
  · rw [ArrowArray.child?, ha] at hc
    cases hc

theorem ArrowArray.below_children {a x : ArrowArray} {cs : List ArrowArray}
    (ha : a.children = some cs) (h : a.Below x) : x = a ∨ ∃ c ∈ cs, c.Below x := by
  rcases Relation.ReflTransGen.cases_head h with h | ⟨c, ⟨i, hc⟩, hx⟩
  · exact .inl h.symm
  · rw [ArrowArray.child?, ha] at hc
    exact .inr ⟨c, List.mem_of_getElem? hc, hx⟩

/-- The leaf of `oneColumn "i"`. -/
def numberLeaf : LeafSpec :=
  leafSpec ((ColumnKind.int32 false).spec "n" false) [0] ["n"] [false]
    [{ optional := false }]

/-- A REQUIRED column of two numbers, with this bitmap and null count. -/
def twoNumbers (validity : Option Bytes) (nullCount : Int) : ArrowArray :=
  .struct 2 none 0 [.int32 [1, 2] validity nullCount]

/-- Null counts of a two-number batch are exact or not computed. -/
theorem twoNumbers_counts {validity : Option Bytes} {nullCount : Int}
    (h : nullCount = -1 ∨ nullCount = (ArrowArray.int32 [1, 2] validity nullCount).cleared) :
    (twoNumbers validity nullCount).ExactCounts := by
  intro x hx
  rcases @ArrowArray.below_children _ _ [_] rfl hx with rfl | ⟨c, hc, hx⟩
  · exact .inr rfl
  · cases List.mem_singleton.mp hc
    cases ArrowArray.below_leaf rfl hx
    exact h

/-- Row `i` comes to the record batch and to the number. -/
theorem requiredSlot_numberLeaf {validity : Option Bytes} {nullCount : Int} {i p : Nat}
    {counted : Bool} {x : ArrowArray}
    (h : RequiredSlot numberLeaf (twoNumbers validity nullCount) i counted x p) :
    x = twoNumbers validity nullCount ∨ x = .int32 [1, 2] validity nullCount := by
  cases h with
  | batch => exact .inl rfl
  | struct _ hn hflat =>
    cases hn
    cases hflat with
    | next _ h => cases h
  | column _ hn hflat _ =>
    cases hn
    cases hflat with
    | here => exact .inr rfl
    | next _ h => cases h
  | walked hl _ _ _ => cases hl
  | entries hl _ _ _ _ _ _ _ _ _ => cases hl

/-- The number of row `i`, as a slot whose null count is looked at. -/
theorem requiredSlot_number (validity : Option Bytes) (nullCount : Int) (i : Nat) :
    RequiredSlot numberLeaf (twoNumbers validity nullCount) i true
      (.int32 [1, 2] validity nullCount) i :=
  .column (o := false) rfl rfl .here rfl

/-- The REQUIRED column of a struct that may be null. -/
def fieldLeaf : LeafSpec :=
  leafSpec ((ColumnKind.int32 false).spec "n" false) [0, 0] ["s", "n"] [true, false]
    [{ kind := .struct, optional := true }, { optional := false }]

/-- A null struct, over a cleared bit of its column, and one that is not. -/
def nullStruct : ArrowArray :=
  .struct 2 none 0 [.struct 2 (some [0b10]) 1 [.int32 [0, 7] (some [0b10]) 1]]

theorem nullStruct_counts : nullStruct.ExactCounts := by
  intro x hx
  rcases @ArrowArray.below_children _ _ [_] rfl hx with rfl | ⟨c, hc, hx⟩
  · exact .inr rfl
  cases List.mem_singleton.mp hc
  rcases @ArrowArray.below_children _ _ [_] rfl hx with rfl | ⟨c, hc, hx⟩
  · exact .inr (by decide)
  cases List.mem_singleton.mp hc
  cases ArrowArray.below_leaf rfl hx
  exact .inr (by decide)

/-- The bits of the slots a row comes to are all set. -/
theorem requiredSlot_nullStruct {i p : Nat} {counted : Bool} {x : ArrowArray} (hi : i < 2)
    (h : RequiredSlot fieldLeaf nullStruct i counted x p) : x.bitAt p = true := by
  have hrow : i = 0 ∨ i = 1 := by omega
  cases h with
  | batch => rfl
  | struct _ hn hflat =>
    cases hn
    cases hflat with
    | next _ h =>
      cases h with
      | next _ h => cases h
  | column _ hn hflat _ =>
    cases hn
    cases hflat with
    | next hv h =>
      cases h with
      | here =>
        rcases hrow with rfl | rfl
        · exact absurd (hv rfl) (by decide)
        · decide
      | next _ h => cases h
  | walked hl _ _ _ => cases hl
  | entries hl _ _ _ _ _ _ _ _ _ => cases hl

/-- The schema of `nullStruct`. -/
def structSchema : ArrowSchema :=
  .nested "+s" "" false [.nested "+s" "s" true [.leaf "i" "n" false]]

/-- A null in a REQUIRED column that did not compute its null count is written; a cleared bit under
    a null struct, which no row comes to, is refused. -/
theorem nulls_missed_and_refused :
    ((twoNumbers (some [0b01]) (-1)).ExactCounts ∧
      ¬NullsRefusedExactly .reference freshWriter (some (oneColumn "i"))
        (twoNumbers (some [0b01]) (-1))) ∧
    nullStruct.ExactCounts ∧
      ¬NullsRefusedExactly .reference freshWriter (some structSchema) nullStruct := by
  refine ⟨⟨twoNumbers_counts (.inl rfl), fun h => ?_⟩, nullStruct_counts, fun h => ?_⟩
  · have hfacts : (n2pWriterWriteBatch .reference freshWriter (some (oneColumn "i"))
        (some (twoNumbers (some [0b01]) (-1)))).map (fun r => (r.1, r.2.leaves)) =
        some (.ok, [numberLeaf]) := by decide +kernel
    obtain ⟨⟨status, w'⟩, hcall, heq⟩ := Option.map_eq_some_iff.mp hfacts
    simp only [Prod.mk.injEq] at heq
    obtain ⟨rfl, hleaves⟩ := heq
    refine h.accepted w' hcall ⟨numberLeaf, ?_, 1, by decide, true, _, 1,
      requiredSlot_number _ _ 1, by decide⟩
    rw [hleaves]
    exact List.mem_singleton_self _
  · have hfacts : (match writeOneBatch .reference (some structSchema) (some nullStruct) freshWriter
        with
        | .ok _ _ => none
        | .error e w' => some (e, w'.leaves)) =
        some (.refused .invalidArgument (.nullsNotNullable "n"), [fieldLeaf]) := by decide +kernel
    cases hcall : writeOneBatch .reference (some structSchema) (some nullStruct) freshWriter with
    | ok _ _ =>
      rw [hcall] at hfacts
      cases hfacts
    | error e w' =>
      rw [hcall] at hfacts
      simp only [Option.some.injEq, Prod.mk.injEq] at hfacts
      obtain ⟨rfl, hleaves⟩ := hfacts
      obtain ⟨leaf, hleaf, i, hi, counted, x, p, hslot, hbit⟩ :=
        h.refused w' ⟨rfl, _, rfl, hcall⟩
      rw [hleaves] at hleaf
      cases List.mem_singleton.mp hleaf
      rw [requiredSlot_nullStruct hi hslot] at hbit
      cases hbit

/-- Two columns that may not be null. -/
def twoColumns : ArrowSchema :=
  .nested "+s" "" false [.leaf "i" "a" false, .leaf "i" "n" false]

/-- The first column is one row short; the second holds a null it did not count. -/
def raggedNumbers : ArrowArray :=
  .struct 2 none 0 [.int32 [1] none 0, .int32 [1, 2] (some [0b01]) (-1)]

theorem raggedNumbers_counts : raggedNumbers.ExactCounts := by
  intro x hx
  rcases @ArrowArray.below_children _ _ [_, _] rfl hx with rfl | ⟨c, hc, hx⟩
  · exact .inr rfl
  · rcases List.mem_cons.mp hc with rfl | hc
    · cases ArrowArray.below_leaf rfl hx
      exact .inr rfl
    · cases List.mem_singleton.mp hc
      cases ArrowArray.below_leaf rfl hx
      exact .inl rfl

/-- A batch without nulls is accepted; a ragged one is refused before its null is come to. -/
theorem nulls_refused_exactly_numbers :
    NullsRefusedExactly .reference freshWriter (some (oneColumn "i")) (twoNumbers none 0) ∧
      NullsRefusedExactly .reference freshWriter (some twoColumns) raggedNumbers := by
  have hnumbers : (twoNumbers none 0).SoundCounts := (twoNumbers_counts (.inr (by decide))).sound
  constructor
  · have hfacts : (n2pWriterWriteBatch .reference freshWriter (some (oneColumn "i"))
        (some (twoNumbers none 0))).map (fun r => (r.1, r.2.leaves)) =
        some (.ok, [numberLeaf]) := by decide +kernel
    have hok : (match writeOneBatch .reference (some (oneColumn "i")) (some (twoNumbers none 0))
        freshWriter with
        | .ok _ _ => true
        | .error _ _ => false) = true := by decide +kernel
    obtain ⟨⟨status, w'⟩, hcall, heq⟩ := Option.map_eq_some_iff.mp hfacts
    simp only [Prod.mk.injEq] at heq
    obtain ⟨rfl, hleaves⟩ := heq
    refine (nulls_refused_exactly hnumbers).mpr ⟨fun h => ?_, fun h => ?_⟩
    · obtain ⟨t, ht, leaf, hleaf, i, _, counted, x, p, hslot, hbit⟩ := nullWritten_iff.mp h
      rw [hcall] at ht
      cases ht
      rw [hleaves] at hleaf
      cases List.mem_singleton.mp hleaf
      rcases requiredSlot_numberLeaf hslot with rfl | rfl <;> cases hbit
    · obtain ⟨t, ⟨_, why, _, hx⟩, _⟩ := (hiddenRefused_iff hnumbers).mp h
      rw [hx] at hok
      cases hok
  · have hfacts : (match writeOneBatch .reference (some twoColumns) (some raggedNumbers) freshWriter
        with
        | .ok _ _ => none
        | .error e _ => some e) =
        some (.refused .invalidArgument (.lengthMismatch "a")) := by decide +kernel
    refine (nulls_refused_exactly raggedNumbers_counts.sound).mpr ⟨fun h => ?_, fun h => ?_⟩
    · obtain ⟨hopen, t, ps, hbuilds, hgood, _⟩ := h
      rw [← hbuilds.out] at hgood
      rw [writeOneBatch_builds hbuilds] at hfacts
      unfold Writer.report at hfacts
      rw [if_pos hgood] at hfacts
      cases hfacts
    · obtain ⟨t, ⟨_, why, hwhy, hx⟩, _⟩ := (hiddenRefused_iff raggedNumbers_counts.sound).mp h
      rw [hx] at hfacts
      cases hfacts
      cases hwhy

end N2P
