import N2P.SchemaCalls
import N2P.Slices

/-!
# Level streams of a list column

A reader assembles rows from the two level streams alone: a repetition level of 0 starts a row, a
level `k` goes on in the innermost list that is open at depth `k`, and the definition level says
whether a value follows.  The Shredder takes whatever offsets, lengths and bitmaps it is given, so
what the streams of an accepted leaf look like must come from the walk itself.

* `visit_levels` — what one slot emits: levels within bounds, and every continuation inside a list
  that the entry before it has open.
* `levelStreams_of_shredLeaf` — the streams of any leaf under a list that is shredded at all.
-/

namespace N2P

open Dremel Outcome Shredder

/-! ## Levels of a slot -/

/-- The second of two neighbouring entries goes on in a list that both have open; `k` lists and `d`
    definition levels lie above. -/
def Continues (steps : List PathStep) (k d : Nat) (u v : Visit) : Prop :=
  k < v.rep →
    d + openLevel (stepRepetitions steps) (v.rep - k) ≤ u.dfn ∧
      d + openLevel (stepRepetitions steps) (v.rep - k) ≤ v.dfn

theorem openLevel_cons (st : PathStep) (rest : List PathStep) (k : Nat) :
    openLevel (stepRepetitions (st :: rest)) k =
      st.defStep +
        if st.kind.isList then if k ≤ 1 then 1 else 1 + openLevel (stepRepetitions rest) (k - 1)
        else openLevel (stepRepetitions rest) k := by
  rw [stepRepetitions_cons]
  unfold PathStep.repetitions PathStep.defStep
  cases st.optional <;> cases st.kind.isList <;> simp [openLevel]

theorem defStep_le_defLevels (st : PathStep) (rest : List PathStep) (d : Nat) :
    d + st.defStep ≤ d + defLevels (st :: rest) := by
  unfold defLevels PathStep.defStep
  omega

/-- The levels of what a slot emits. -/
structure SlotLevels (steps : List PathStep) (k d : Nat) (vs : List Visit) : Prop where
  lower : ∀ v ∈ vs, d ≤ v.dfn
  upper : ∀ v ∈ vs, v.dfn ≤ d + defLevels steps
  rep : ∀ v ∈ vs, v.rep ≤ k + repLevels steps
  chain : vs.IsChain (Continues steps k d)

theorem SlotLevels.single {steps : List PathStep} {k d : Nat} {v : Visit} (hr : v.rep ≤ k)
    (hl : d ≤ v.dfn) (hu : v.dfn ≤ d + defLevels steps) : SlotLevels steps k d [v] where
  lower u hu := by rwa [List.mem_singleton.mp hu]
  upper u hu := by rwa [List.mem_singleton.mp hu]
  rep u hu := by
    rw [List.mem_singleton.mp hu]
    omega
  chain := .singleton v

/-- Below a struct the levels stay. -/
theorem SlotLevels.struct {st : PathStep} {rest : List PathStep} {k d : Nat} {vs : List Visit}
    (hk : st.kind = .struct) (h : SlotLevels rest k (d + st.defStep) vs) :
    SlotLevels (st :: rest) k d vs where
  lower v hv := by
    have := h.lower v hv
    omega
  upper v hv := by
    have := h.upper v hv
    rw [defLevels, hk]
    unfold PathStep.defStep at this
    simp only [StepKind.isList, Bool.false_eq_true, if_false]
    omega
  rep v hv := by
    have := h.rep v hv
    rw [repLevels, hk]
    simpa [StepKind.isList] using this
  chain := by
    refine h.chain.imp fun u v huv hrep => ?_
    have := huv hrep
    rw [openLevel_cons, hk]
    simp only [StepKind.isList, Bool.false_eq_true, if_false]
    omega

/-- Slots one after the other: the first entry of each goes on in no list below the level. -/
theorem SlotLevels.flatMap {steps : List PathStep} {k d m : Nat} {g : Nat → List Visit}
    (h : ∀ j < m, SlotLevels steps k d (g j))
    (hhead : ∀ j < m, ∃ v vs, g j = v :: vs ∧ v.rep ≤ k) :
    SlotLevels steps k d ((List.range m).flatMap g) := by
  have hmem : ∀ v ∈ (List.range m).flatMap g, ∃ j < m, v ∈ g j := by
    intro v hv
    obtain ⟨j, hj, hv⟩ := List.mem_flatMap.mp hv
    exact ⟨j, List.mem_range.mp hj, hv⟩
  constructor
  · intro v hv
    obtain ⟨j, hj, hv⟩ := hmem v hv
    exact (h j hj).lower v hv
  · intro v hv
    obtain ⟨j, hj, hv⟩ := hmem v hv
    exact (h j hj).upper v hv
  · intro v hv
    obtain ⟨j, hj, hv⟩ := hmem v hv
    exact (h j hj).rep v hv
  · have hne : [] ∉ (List.range m).map g := by
      intro hnil
      obtain ⟨j, hj, hg⟩ := List.mem_map.mp hnil
      obtain ⟨v, vs, hv, _⟩ := hhead j (List.mem_range.mp hj)
      rw [hv] at hg
      cases hg
    rw [List.flatMap_def, List.isChain_flatten hne]
    constructor
    · intro vs hvs
      obtain ⟨j, hj, rfl⟩ := List.mem_map.mp hvs
      exact (h j (List.mem_range.mp hj)).chain
    · rw [List.isChain_map]
      refine List.Pairwise.isChain (List.pairwise_of_forall_mem_list fun i _ j hj => ?_)
      intro u _ v hv hrep
      obtain ⟨w, ws, hw, hwrep⟩ := hhead j (List.mem_range.mp hj)
      rw [hw] at hv
      have hvw : w = v := by simpa using hv
      rw [hvw] at hwrep
      omega

/-- Below a list, one level up: an entry that repeats this very list has an element on each
    side. -/
theorem SlotLevels.list {st : PathStep} {rest : List PathStep} {k d : Nat} {vs : List Visit}
    (hk : st.kind.isList) (h : SlotLevels rest (k + 1) (d + st.defStep + 1) vs) :
    SlotLevels (st :: rest) k d vs where
  lower v hv := by
    have := h.lower v hv
    omega
  upper v hv := by
    have := h.upper v hv
    rw [defLevels, if_pos hk]
    unfold PathStep.defStep at this
    omega
  rep v hv := by
    have := h.rep v hv
    rw [repLevels, if_pos hk]
    omega
  chain := by
    refine h.chain.imp_of_mem_imp fun u v hu hv huv hrep => ?_
    have hu := h.lower u hu
    have hv := h.lower v hv
    rw [openLevel_cons, if_pos hk]
    by_cases hone : v.rep - k ≤ 1
    · rw [if_pos hone]
      omega
    · rw [if_neg hone, Nat.sub_sub]
      have := huv (by omega)
      omega

/-- **What one slot emits.**  Its first entry carries the level it was reached with. -/
theorem visit_levels (leaf : LeafSpec) : ∀ (steps : List PathStep) (k : Nat) (a : ArrowArray)
    (e : Int) (r d : Nat) (vs : List Visit), StepsFrom k steps → r ≤ k →
    visit leaf steps a e r d = .ok vs → SlotLevels steps k d vs
  | [], _, _, _, _, _, _, hst, _, _ => hst.elim
  | st :: rest, k, a, e, r, d, vs, hst, hr, h => by
    rcases visit_cases h with ⟨_, rfl⟩ | ⟨_, _, rfl⟩ | ⟨child, _, hk, _, hv⟩ |
      ⟨_, _, _, _, _, rfl⟩ | ⟨child, s, t, _, hk, hc, hne, hv⟩
    · exact .single hr (le_refl d) (Nat.le_add_right d _)
    · exact .single hr (Nat.le_add_right d _) (defStep_le_defLevels st rest d)
    · exact .struct hk (visit_levels leaf rest k child e r _ vs (hst.struct hk) hr hv)
    · exact .single hr (Nat.le_add_right d _) (defStep_le_defLevels st rest d)
    · obtain ⟨hlevel, hst'⟩ := hst.list hk
      obtain ⟨g, hg, rfl⟩ := flatMapM_eq_ok.mp hv
      have hrep : ∀ j : Nat, (if j = 0 then r else st.repLevel) ≤ k + 1 := by
        intro j
        split <;> omega
      refine .list hk (.flatMap (fun j hj => ?_) fun j hj => ?_)
      · have hgj := hg j (List.mem_range.mpr hj)
        exact visit_levels leaf rest (k + 1) child _ _ _ (g j) hst' (hrep j) hgj
      · have hgj := hg j (List.mem_range.mpr hj)
        obtain ⟨v, ws, hvs, hv, _⟩ := visit_rep leaf rest (k + 1) child _ _ _ (g j) hst' hgj
        exact ⟨v, ws, hvs, by rw [hv]; exact hrep j⟩

/-- What a run of rows emits. -/
theorem rowVisits_levels {leaf : LeafSpec} {column : ArrowArray} {n : Nat} {vs : List Visit}
    (hst : StepsFrom 0 leaf.steps) (h : rowVisits leaf column n = .ok vs) :
    SlotLevels leaf.steps 0 0 vs := by
  obtain ⟨g, hg, rfl⟩ := flatMapM_eq_ok.mp h
  refine .flatMap (fun i hi => ?_) fun i hi => ?_
  · have hgi := hg i (List.mem_range.mpr hi)
    exact visit_levels leaf leaf.steps 0 column i 0 0 (g i) hst (le_refl 0) hgi
  · have hgi := hg i (List.mem_range.mpr hi)
    obtain ⟨v, ws, hvs, hv, _⟩ := visit_rep leaf leaf.steps 0 column i 0 0 (g i) hst hgi
    exact ⟨v, ws, hvs, le_of_eq hv⟩

/-- The first entry of a run of rows starts a row. -/
theorem rowVisits_head {leaf : LeafSpec} {column : ArrowArray} {n : Nat} {vs : List Visit}
    (hst : StepsFrom 0 leaf.steps) (h : rowVisits leaf column n = .ok vs) :
    ∀ v ∈ vs.head?, v.rep = 0 := by
  obtain ⟨g, hg, rfl⟩ := flatMapM_eq_ok.mp h
  intro v hv
  cases n with
  | zero => cases hv
  | succ n =>
    have hg0 := hg 0 (List.mem_range.mpr (Nat.succ_pos n))
    obtain ⟨w, ws, hws, hw, _⟩ := visit_rep leaf leaf.steps 0 column 0 0 0 (g 0) hst hg0
    rw [List.range_succ_eq_map, List.flatMap_cons, hws] at hv
    have hvw : w = v := by simpa using hv
    rw [← hvw, hw]

/-! ## Streams of a leaf -/

/-- The level streams a reader can rely on, for a leaf of `rows` rows. -/
structure LevelStreams (leaf : LeafSpec) (rows : Int) (sh : Shredded) : Prop where
  lengths : sh.rep.length = sh.dfn.length
  rep : ∀ r ∈ sh.rep, r ≤ leaf.maxRepLevel ∧ r < 2 ^ leaf.repBitWidth
  dfn : ∀ d ∈ sh.dfn, d ≤ leaf.maxDefLevel ∧ d < 2 ^ leaf.defBitWidth
  rows : (sh.rep.count 0 : Int) = rows
  first : ∀ r, sh.rep.head? = some r → r = 0
  /-- An entry inside a list follows one that has the same list open. -/
  continues : ∀ i r d d', sh.rep[i + 1]? = some r → 0 < r → sh.dfn[i]? = some d →
    sh.dfn[i + 1]? = some d' → openLevel (stepRepetitions leaf.steps) r ≤ d ∧
      openLevel (stepRepetitions leaf.steps) r ≤ d'
  present : sh.presentCount = sh.dfn.count leaf.maxDefLevel

theorem repLevels_le_defLevels (steps : List PathStep) : repLevels steps ≤ defLevels steps := by
  induction steps with
  | nil => exact le_refl 0
  | cons st rest ih =>
    unfold repLevels defLevels
    omega

/-- A level fits the bit width of its stream. -/
theorem lt_two_pow_bitWidth {m x : Nat} (hm : m ≤ INT32_MAX) (hx : x ≤ m) :
    x < 2 ^ dictionaryBitWidth (m + 1) := by
  unfold INT32_MAX at hm
  obtain ⟨hw, _⟩ := @bitWidthFrom_spec (m + 1) 64 0 (by omega)
  unfold dictionaryBitWidth
  omega

/-- The rows of a leaf that is shredded are not negative: `reserve` would have thrown. -/
theorem shredLeaf_rows {leaf : LeafSpec} {b : Batch} {leafArr : ArrowArray} {sh : Shredded}
    (h : shredLeaf leaf b.array = .ok (leafArr, sh)) : 0 ≤ b.array.length := by
  unfold shredLeaf at h
  obtain ⟨column, _, h⟩ := bind_eq_ok.mp h
  obtain ⟨arr, _, h⟩ := bind_eq_ok.mp h
  obtain ⟨_, _, h⟩ := bind_eq_ok.mp h
  obtain ⟨_, _, h⟩ := bind_eq_ok.mp h
  obtain ⟨_, hreserve, _⟩ := bind_eq_ok.mp h
  by_contra hneg
  obtain ⟨hlow, _⟩ := b.int64
  have hsize : toSize b.array.length = (b.array.length + 2 ^ 64).toNat := by
    unfold toSize
    rw [← Int.add_emod_right, Int.emod_eq_of_lt (by omega) (by omega)]
  unfold allocate at hreserve
  rw [if_pos (by omega)] at hreserve
  cases hreserve

/-- The levels of a leaf that is shredded are within the path's. -/
theorem shredLeaf_levels {leaf : LeafSpec} {batch leafArr : ArrowArray} {sh : Shredded}
    (hst : StepsFrom 0 leaf.steps) (h : shredLeaf leaf batch = .ok (leafArr, sh)) :
    sh.rep.length = sh.dfn.length ∧ (∀ r ∈ sh.rep, r ≤ repLevels leaf.steps) ∧
      ∀ d ∈ sh.dfn, d ≤ defLevels leaf.steps := by
  obtain ⟨column, vs, _, _, _, hvisits, hof, _⟩ := shredLeaf_eq_ok h
  have hslot := rowVisits_levels hst hvisits
  rw [hof.rep, hof.dfn]
  refine ⟨by rw [List.length_map, List.length_map], fun r hr => ?_, fun d hd => ?_⟩
  · obtain ⟨v, hv, rfl⟩ := List.mem_map.mp hr
    simpa using hslot.rep v hv
  · obtain ⟨v, hv, rfl⟩ := List.mem_map.mp hd
    simpa using hslot.upper v hv

/-- **The level streams of every leaf under a list or map that is shredded are well formed**,
    whatever the arrays. -/
theorem levelStreams_of_shredLeaf {columns : List ArrowSchema} {nodes : List SchemaNode}
    {leaves : List LeafSpec} (h : flattenColumns columns 0 ([], []) = .ok (nodes, leaves))
    {leaf : LeafSpec} (hleaf : leaf ∈ leaves) (hlist : leaf.hasList = true)
    (hint : leaf.maxDefLevel ≤ INT32_MAX) {b : Batch} {leafArr : ArrowArray} {sh : Shredded}
    (hsh : shredLeaf leaf b.array = .ok (leafArr, sh)) :
    LevelStreams leaf b.array.length sh := by
  obtain ⟨hst, hD, hR⟩ := list_leaf_steps h hleaf hlist
  rw [maxDef_stepRepetitions] at hD
  rw [maxRep_stepRepetitions] at hR
  obtain ⟨hrepWidth, hdefWidth⟩ := leaf_bitWidths (leafOf_of_flattenColumns h leaf hleaf)
  have hrows := shredLeaf_rows hsh
  obtain ⟨column, vs, _, _, _, hvisits, hof, _⟩ := shredLeaf_eq_ok hsh
  obtain ⟨hlengths, hrep, hdfn⟩ := shredLeaf_levels hst hsh
  have hle := repLevels_le_defLevels leaf.steps
  refine ⟨hlengths, ?_, ?_, ?_, ?_, ?_, ?_⟩
  · intro r hr
    have hbound : r ≤ leaf.maxRepLevel := by
      rw [hR]
      exact hrep r hr
    refine ⟨hbound, ?_⟩
    rw [hrepWidth]
    exact lt_two_pow_bitWidth (by omega) hbound
  · intro d hd
    have hbound : d ≤ leaf.maxDefLevel := by
      rw [hD]
      exact hdfn d hd
    refine ⟨hbound, ?_⟩
    rw [hdefWidth]
    exact lt_two_pow_bitWidth hint hbound
  · rw [hof.rep, rowVisits_records hst hvisits]
    omega
  · intro r hr
    rw [hof.rep, List.head?_map] at hr
    obtain ⟨v, hv, rfl⟩ := Option.map_eq_some_iff.mp hr
    exact rowVisits_head hst hvisits v hv
  · intro i r d d' hr hpos hd hd'
    rw [hof.rep, List.getElem?_map] at hr
    rw [hof.dfn, List.getElem?_map] at hd hd'
    obtain ⟨v, hv, rfl⟩ := Option.map_eq_some_iff.mp hr
    obtain ⟨u, hu, rfl⟩ := Option.map_eq_some_iff.mp hd
    obtain ⟨v', hv', rfl⟩ := Option.map_eq_some_iff.mp hd'
    rw [hv] at hv'
    cases hv'
    obtain ⟨hi, hv⟩ := List.getElem?_eq_some_iff.mp hv
    obtain ⟨_, hu⟩ := List.getElem?_eq_some_iff.mp hu
    have hslot := rowVisits_levels hst hvisits
    have hchain := (List.isChain_iff_getElem.mp hslot.chain) i hi
    rw [hu, hv] at hchain
    simpa using hchain hpos
  · rw [hof.dfn, hof.count, hD]
    exact (rowVisits_count hst hvisits).symm

/-- The four rows of the list batch. -/
theorem levelStreams_of_shredLeaf_listRows :
    ∃ leafArr sh, shredLeaf listLeaf listBatch.array = .ok (leafArr, sh) ∧
      LevelStreams listLeaf 4 sh := by
  have hok : (shredLeaf listLeaf listBatch.array).isOk = true := by decide +kernel
  cases hsh : shredLeaf listLeaf listBatch.array with
  | error f =>
    rw [hsh] at hok
    cases hok
  | ok out =>
    obtain ⟨leafArr, sh⟩ := out
    refine ⟨leafArr, sh, rfl, ?_⟩
    exact @levelStreams_of_shredLeaf listColumns _ [listLeaf] rfl listLeaf (by simp) rfl (by decide)
      listBatch leafArr sh hsh

end N2P
