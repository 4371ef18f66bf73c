import N2P.FileReader
import N2P.StoredCounts

/-!
# The column a batch holds on a leaf

What a record batch says a leaf's rows are, read from its Arrow arrays as the format defines them:
`leafColumn` projects every row along the leaf's path, nulls, empty lists and nested lists included.
A leaf outside lists keeps no steps; `arrowSteps` puts back the structs on its path.

* `leafColumn` — the column, as a reader of the file should find it.
* `visit_striped`, `flatLevel_striped` — the Shredder, and the row loop outside lists, stripe what
  the arrays hold.
* `leafStriped_of_inputs` — the levels and values of an accepted leaf are the striping of its rows.
-/

namespace N2P

open Dremel Outcome Shredder

/-! ## The column -/

/-- The steps of a path outside lists: structs, then the leaf. -/
def structSteps : List Nat → List Bool → List PathStep
  | i :: is, optional :: opts =>
    { kind := .struct, optional, child := i } :: structSteps is opts
  | [], optional :: _ => [{ kind := .leaf, optional }]
  | _, [] => []

/-- The Arrow nodes on a leaf's path, column first. -/
def LeafSpec.arrowSteps (leaf : LeafSpec) : List PathStep :=
  if leaf.hasList then leaf.steps else structSteps leaf.pathIdx.tail leaf.pathOptional

/-- The kind of a column type. -/
def ColumnSpec.kind? (s : ColumnSpec) : Option ColumnKind :=
  match s.extract with
  | .null => some .null
  | .bool => some .bool
  | .byteArray => some (.bytes (s.converted = some .utf8) s.largeOffsets)
  | .widenInt =>
    if hw : s.srcWidth = 1 ∨ s.srcWidth = 2 then some (.narrow s.srcWidth s.signExtend hw) else none
  | .memcpyFixed =>
    match s.type with
    | .int32 => some (.int32 (s.converted = some .uint32))
    | .int64 => some (.int64 (s.converted = some .uint64))
    | .float => some .float
    | .double => some .double
    | .fixedLenByteArray =>
      if pos : 0 < s.typeLength then some (.fixed s.typeLength pos) else none
    | _ => none

theorem ColumnKind.kind?_spec (k : ColumnKind) (name : String) (nullable : Bool) :
    (k.spec name nullable).kind? = some k := by
  cases k with
  | null => rfl
  | bool => rfl
  | narrow w signed hw => simp [ColumnSpec.kind?, ColumnKind.spec, hw]
  | int32 unsigned => cases unsigned <;> rfl
  | int64 unsigned => cases unsigned <;> rfl
  | float => rfl
  | double => rfl
  | fixed width pos => simp [ColumnSpec.kind?, ColumnKind.spec, pos]
  | bytes utf8 large => cases utf8 <;> cases large <;> rfl

/-- The rows of a leaf: what each holds along the path. -/
def leafRows (leaf : LeafSpec) (k : ColumnKind) (arr column : ArrowArray) (n : Nat) :
    List (Val Value (stepRepetitions leaf.arrowSteps)) :=
  (List.range n).map (project leaf (k.value arr) leaf.arrowSteps column)

/-- The arrays the steps lead through, a map's entries included. -/
def pathArrays : List PathStep → ArrowArray → List ArrowArray
  | [], _ => []
  | st :: rest, a =>
    a :: ((if st.kind = .map then (a.child? 0).toList else []) ++
      if st.kind = .leaf then [] else ((st.target? a).map (pathArrays rest)).getD [])

/-- The batch and the arrays on a leaf's path start at their first slot: none is a slice. -/
def StartsAtZero (leaf : LeafSpec) (batch column : ArrowArray) : Prop :=
  batch.offset = 0 ∧ ∀ a ∈ pathArrays leaf.arrowSteps column, a.offset = 0

instance (leaf : LeafSpec) (batch column : ArrowArray) : Decidable (StartsAtZero leaf batch column) :=
  inferInstanceAs (Decidable (_ ∧ _))

/-- **The column a batch holds on a leaf.**  Slot `i` of an array is its row `i` where the array is
    not sliced; no column is read from slices. -/
def leafColumn (leaf : LeafSpec) (batch : ArrowArray) : Option TableColumn := do
  let column ← (topColumn leaf batch).toOption
  guard (StartsAtZero leaf batch column)
  let arr ← leafOf? leaf.arrowSteps column
  let k ← leaf.col.kind?
  some { path := leaf.pathNames, repetitions := stepRepetitions leaf.arrowSteps,
         records := leafRows leaf k arr column batch.length.toNat }

theorem leafColumn_eq {leaf : LeafSpec} {batch column arr : ArrowArray} {k : ColumnKind}
    (htop : topColumn leaf batch = .ok column) (hstart : StartsAtZero leaf batch column)
    (harr : leafOf? leaf.arrowSteps column = some arr) (hk : leaf.col.kind? = some k) :
    leafColumn leaf batch =
      some { path := leaf.pathNames, repetitions := stepRepetitions leaf.arrowSteps,
             records := leafRows leaf k arr column batch.length.toNat } := by
  unfold leafColumn
  rw [htop, hk]
  simp [Except.toOption, hstart, harr]

/-- The arrays on a leaf's path keep to the Arrow format, as far as it is read, and none is a slice:
    the buffers of the leaf, and under a list every array of the path. -/
structure LeafArrays (leaf : LeafSpec) (batch : ArrowArray) : Prop where
  unsliced : ∀ column, topColumn leaf batch = .ok column → StartsAtZero leaf batch column
  wellFormed : leaf.hasList = true → ∀ column, topColumn leaf batch = .ok column →
    WellFormed leaf leaf.steps column
  buffers : ∀ column arr k, topColumn leaf batch = .ok column →
    leafOf? leaf.arrowSteps column = some arr → leaf.col.kind? = some k → k.BuffersOk arr

/-! ## Paths outside lists -/

theorem structSteps_eq (st : PathStep) (ss : List PathStep) :
    structSteps (ss.map (·.child)) ((ss ++ [st]).map (·.optional)) =
      (ss.map fun s => { kind := .struct, optional := s.optional, child := s.child }) ++
        [{ kind := .leaf, optional := st.optional }] := by
  induction ss with
  | nil => rfl
  | cons s ss ih => rw [List.map_cons, List.cons_append, List.map_cons, structSteps, ih]; rfl

/-- Outside lists the path put back is one of the leaf's. -/
theorem FlatSteps.arrowSteps {leaf : LeafSpec} {steps : List PathStep} (h : FlatSteps leaf steps)
    (hflat : leaf.hasList = false) : FlatSteps leaf leaf.arrowSteps := by
  obtain ⟨ss, st, rfl, hk, hss, i, hidx⟩ := h.structs
  have hsteps : leaf.arrowSteps =
      (ss.map fun s => { kind := .struct, optional := s.optional, child := s.child }) ++
        [{ kind := .leaf, optional := st.optional }] := by
    unfold LeafSpec.arrowSteps
    rw [if_neg (by simp [hflat]), hidx, List.tail_cons, h.opt, structSteps_eq]
  constructor
  · refine ⟨_, _, hsteps, rfl, ?_, i, ?_⟩
    · intro s hs
      obtain ⟨s', _, rfl⟩ := List.mem_map.mp hs
      rfl
    · rw [hidx, List.map_map]
      rfl
  · rw [h.opt, hsteps]
    simp [Function.comp_def]
  · rw [h.maxDef, hsteps]
    clear h hidx hsteps
    induction ss with
    | nil => simp [defLevels, hk]
    | cons s ss ih =>
      have hs := hss s List.mem_cons_self
      simp [defLevels, hs, ih fun s' hs' => hss s' (List.mem_cons_of_mem s hs')]
  · intro hext s hs hkind
    have hopt := h.nullType hext st (by simp) hk
    rw [hsteps] at hs
    rcases List.mem_append.mp hs with hs | hs
    · obtain ⟨s', _, rfl⟩ := List.mem_map.mp hs
      cases hkind
    · rw [List.mem_singleton.mp hs]
      exact hopt

/-! ## The striping of a slot -/

/-- Where the null count is exact, a slot the Shredder takes as present is not null. -/
theorem NodeOk.presentAt {leaf : LeafSpec} {st : PathStep} {a : ArrowArray}
    (h : NodeOk (leaf.nullStep st) a) {e : Nat} (he : e < a.length) :
    leaf.presentAt st a e = !(st.optional && leaf.nullAt st a e) := by
  unfold LeafSpec.presentAt LeafSpec.nullAt ArrowArray.slotNull
  cases hnull : leaf.nullStep st with
  | true => cases st.optional <;> rfl
  | false =>
    rw [hnull] at h
    have hexact : a.nullCount = 0 → a.bitAt e = true := by
      intro h0
      rcases h.nullCount with hn | hn
      · omega
      · rw [h0] at hn
        have hz : (List.range a.length.toNat).countP (a.slotNull false) = 0 := by omega
        have := List.countP_eq_zero.mp hz e (List.mem_range.mpr (by omega))
        simpa [ArrowArray.slotNull] using this
    by_cases h0 : a.nullCount = 0
    · simp [hexact h0]
    · cases st.optional <;> simp [h0]

/-- **What the Shredder emits for a slot is the striping of what the slot holds.** -/
theorem visit_striped (leaf : LeafSpec) : ∀ (steps : List PathStep) (k : Nat) (a : ArrowArray)
    (e r d : Nat) (vs : List Visit), StepsFrom k steps → WellFormed leaf steps a →
    visit leaf steps a e r d = .ok vs → ∀ {α : Type} (value : Nat → α),
    vs.map (Entry.map value) = shred (stepRepetitions steps) k r d (project leaf value steps a e)
  | [], _, _, _, _, _, _, hst, _, _ => hst.elim
  | st :: rest, k, a, e, r, d, vs, hst, hwf, h => by
    intro value
    -- a slot's state, as the Shredder and as the format have it
    have hnull : ∀ {b : Bool}, slot leaf st a e = .ok b →
        (st.optional && leaf.nullAt st a e) = !b := by
      intro b hs
      obtain ⟨_, _, he, _⟩ := slot_eq_ok.mp hs
      rw [← presentAt_of_slot hs, hwf.1.presentAt he, Bool.not_not]
    rw [shred_project]
    rcases visit_cases h with ⟨hs, rfl⟩ | ⟨hs, hk, rfl⟩ | ⟨child, hs, hk, hc, hv⟩ |
      ⟨child, s, hs, hk, hc, rfl⟩ | ⟨child, s, t, hs, hk, hc, hne, hv⟩
    · rw [hnull hs, if_pos (by simp)]
      rfl
    · have hrest := hst.leaf hk
      subst hrest
      rw [hnull hs, if_neg (by simp), shred_inList_false (by rw [hk]; rfl)]
      rfl
    · obtain ⟨child', ht, _, hwf'⟩ := hwf.link (by simp [hk])
      have hchild : st.target? a = some child := by
        simpa [PathStep.target?, hk] using (structChild_eq_ok.mp hc).2
      rw [hchild] at ht
      cases ht
      rw [hnull hs, if_neg (by simp), shred_inList_false (by rw [hk]; rfl), hchild]
      exact visit_striped leaf rest k child e r _ vs (hst.struct hk) hwf' hv value
    · obtain ⟨_, _, hoff, hoff', _⟩ := (listRange_eq_ok hk).mp hc
      rw [Int.toNat_natCast] at hoff hoff'
      rw [hnull hs, if_neg (by simp), shred_inList_true hk, shred_repeated_range, hoff, hoff',
        if_pos (by simp)]
      rfl
    · obtain ⟨child', ht, _, hwf'⟩ := hwf.link (StepKind.isList_ne hk).1
      obtain ⟨_, _, hoff, hoff', ⟨_, hchild⟩, h0, hle, _⟩ := (listRange_eq_ok hk).mp hc
      rw [Int.toNat_natCast] at hoff hoff'
      rw [hchild] at ht
      cases ht
      obtain ⟨hlevel, hst'⟩ := hst.list hk
      obtain ⟨g, hg, rfl⟩ := flatMapM_eq_ok.mp hv
      have hcount : (t - s).toNat = t.toNat - s.toNat := by omega
      rw [hnull hs, if_neg (by simp), shred_inList_true hk, shred_repeated_range, hoff, hoff',
        Option.getD_some, Option.getD_some, if_neg (by omega), List.map_flatMap, hcount]
      refine List.flatMap_congr fun j hj => ?_
      have hj' := hg j (by rw [hcount]; exact hj)
      rw [hlevel, show (s + (j : Int)) = ((s.toNat + j : Nat) : Int) by omega] at hj'
      rw [hchild, Option.getD_some]
      exact visit_striped leaf rest (k + 1) child (s.toNat + j) _ _ _ hst' hwf' hj' value

/-! ## A leaf under a list -/

/-- The levels and the stored values of a leaf are the striping of these rows. -/
structure LeafStriped (leaf : LeafSpec) (k : ColumnKind) (inp : LeafInputs) (reps dfns : List Nat)
    (rows : List (Val Value (stepRepetitions leaf.arrowSteps))) : Prop where
  levels : reps.zip dfns =
    (shredAll (stepRepetitions leaf.arrowSteps) rows).map fun e => (e.rep, e.dfn)
  values : k.values inp.arr inp.validity =
    (shredAll (stepRepetitions leaf.arrowSteps) rows).filterMap (·.value)
  validity : ValidityOk inp.validity inp.arr.length.toNat

theorem ColumnKind.values_eq {k : ColumnKind} (hk : k ≠ .null) (arr : ArrowArray)
    (validity : Option Bytes) :
    k.values arr validity = (validRows validity arr.length.toNat).map (k.value arr) := by
  cases k <;> first | exact absurd rfl hk | rfl

/-- The values of entries that carry positions. -/
theorem filterMap_entries {α : Type} (value : Nat → α) (vs : List Visit) :
    (vs.map (Entry.map value)).filterMap (·.value) = (positions vs).map value := by
  rw [List.filterMap_map, positions, List.map_filterMap]
  rfl

/-- The rows stored under the Shredder's validity are its positions. -/
theorem validRows_eq_positions {bytes : Nat} {ps : List Nat} {bs : Bytes} {len : Int}
    (hlen : IsInt64 len) (hbs : ByteSeq.setAll (List.replicate bytes 0) ps = some bs)
    (hbound : ∀ p ∈ ps, (p : Int) < len) (hsorted : ps.Pairwise (· < ·)) :
    validRows (if ps.length < toSize len then some bs else none) len.toNat = ps := by
  have hnodup : ps.Nodup := hsorted.imp fun hab => Nat.ne_of_lt hab
  have hmem : ps ⊆ validRows (if ps.length < toSize len then some bs else none) len.toNat := by
    intro p hp
    have hlt := hbound p hp
    refine List.mem_filter.mpr ⟨List.mem_range.mpr (by omega), ?_⟩
    split
    · have hbit := ByteSeq.mem_setBits.mp ((ByteSeq.mem_setBits_setAll hbs).mpr hp)
      simp [rowValid, hbit]
    · rfl
  have hperm := (List.subperm_of_subset hnodup hmem).perm_of_length_le
    (validRows_positions hlen hbs hbound hsorted).le
  exact (hperm.eq_of_pairwise (fun a b _ _ h1 h2 => by omega) hsorted
    (List.Pairwise.filter _ List.pairwise_lt_range)).symm

/-- The rows of a column are striped one after the other. -/
theorem rowVisits_striped {leaf : LeafSpec} {column : ArrowArray} {n : Nat} {vs : List Visit}
    (hst : StepsFrom 0 leaf.steps) (hwf : WellFormed leaf leaf.steps column)
    (h : rowVisits leaf column n = .ok vs) {α : Type} (value : Nat → α) :
    vs.map (Entry.map value) = shredAll (stepRepetitions leaf.steps)
      ((List.range n).map (project leaf value leaf.steps column)) := by
  obtain ⟨g, hg, rfl⟩ := flatMapM_eq_ok.mp h
  rw [shredAll, List.flatMap_map, List.map_flatMap]
  refine List.flatMap_congr fun i hi => ?_
  exact visit_striped leaf leaf.steps 0 column i 0 0 _ hst hwf (hg i hi) value

/-- Every row that was walked is a row of the column. -/
theorem rowVisits_length {leaf : LeafSpec} {column : ArrowArray} {n : Nat} {vs : List Visit}
    (hst : StepsFrom 0 leaf.steps) (h : rowVisits leaf column n = .ok vs) :
    n = 0 ∨ n ≤ column.length := by
  obtain ⟨g, hg, _⟩ := flatMapM_eq_ok.mp h
  cases n with
  | zero => exact .inl rfl
  | succ m =>
    right
    have hm := hg m (List.mem_range.mpr (Nat.lt_succ_self m))
    cases hsteps : leaf.steps with
    | nil => rw [hsteps] at hst; exact hst.elim
    | cons st rest =>
      rw [hsteps] at hm
      obtain ⟨b, hs⟩ := visit_slot hm
      have := (slot_eq_ok.mp hs).2.2.1
      push_cast
      omega

/-- **A leaf under a list is written as the striping of its rows.** -/
theorem striped_list {X : External} {columns : List ArrowSchema} {nodes : List SchemaNode}
    {leaves : List LeafSpec} (h : flattenColumns columns 0 ([], []) = .ok (nodes, leaves))
    {leaf : LeafSpec} (hleaf : leaf ∈ leaves) (hlist : leaf.hasList = true) {batch : ArrowArray}
    (hok : LeafArrays leaf batch) {inp : LeafInputs} (hinp : leafInputs X leaf batch = .ok inp)
    {reps dfns : List Nat} (hlv : leafLevels leaf batch = .ok (reps, dfns)) {k : ColumnKind}
    {name : String} {nullable : Bool} (hcol : leaf.col = k.spec name nullable) :
    ∃ column, topColumn leaf batch = .ok column ∧ leafOf? leaf.arrowSteps column = some inp.arr ∧
      LeafStriped leaf k inp reps dfns
        (leafRows leaf k inp.arr column batch.length.toNat) := by
  have harrow : leaf.arrowSteps = leaf.steps := if_pos hlist
  obtain ⟨hst, _, _⟩ := list_leaf_steps h hleaf hlist
  obtain ⟨_, hopt⟩ := list_leaf_column h hleaf hlist
  obtain ⟨leafArr, sh, _, _, hshred, _, _, rfl⟩ := leafInputs_list hlist hinp
  obtain ⟨column, vs, hcolumn, hfollow, _, hvisits, hof, hbs⟩ := shredLeaf_eq_ok hshred
  have hwf := hok.wellFormed hlist column hcolumn
  have hleafOf : leafOf? leaf.arrowSteps column = some leafArr := by
    rw [harrow]
    exact followSteps_eq_ok hfollow
  have hbuf := hok.buffers column leafArr k hcolumn hleafOf (by rw [hcol]; exact k.kind?_spec _ _)
  have hlen : IsInt64 leafArr.length := by
    have := hbuf.length
    unfold IsInt64
    omega
  refine ⟨column, hcolumn, hleafOf, ?_⟩
  have hsorted : (positions vs).Pairwise (· < ·) := by
    rcases rowVisits_length hst hvisits with h0 | hn
    · rw [h0] at hvisits
      cases hvisits
      exact .nil
    · exact rowVisits_sorted hst hwf hn hvisits
  have hbound : ∀ p ∈ positions vs, (p : Int) < leafArr.length := by
    intro p hp
    obtain ⟨i, _, part, hpart, hpp⟩ := mem_positions_flatMapM hvisits hp
    exact visit_bound leaf.steps (followSteps_eq_ok hfollow) hpart p hpp
  have hrows : shredAll (stepRepetitions leaf.arrowSteps)
      (leafRows leaf k leafArr column batch.length.toNat) = vs.map (Entry.map (k.value leafArr)) := by
    unfold leafRows
    rw [harrow]
    exact (rowVisits_striped hst hwf hvisits (k.value leafArr)).symm
  constructor
  · unfold leafLevels at hlv
    rw [if_pos hlist, hshred] at hlv
    cases hlv
    rw [hrows, hof.rep, hof.dfn, List.zip_map', List.map_map]
    rfl
  · rw [hrows, filterMap_entries]
    by_cases hk : k = .null
    · -- the null type stores nothing, and has no positions
      have hnull : leaf.col.extract = .null := by rw [hcol, ColumnKind.spec_extract_null, hk]
      have hnullable : leaf.col.nullable = true := by rw [hcol, hk]; rfl
      rw [positions_nullType hnull (fun st hs hkind => (hopt st hs hkind).trans hnullable) hvisits,
        hk]
      rfl
    · rw [ColumnKind.values_eq hk]
      dsimp only
      rw [hof.count, validRows_eq_positions hlen hbs hbound hsorted]
  · intro bm hbm
    dsimp only at hbm ⊢
    split at hbm
    · cases hbm
      have hle := length_le_present hlen
      rw [ByteSeq.length_setAll hbs, List.length_replicate]
      omega
    · cases hbm

/-! ## A leaf outside lists -/

/-- The bit the row loop reads is the array's. -/
theorem validity_bitAt {a : ArrowArray} {bm : Option Bytes} {e : Nat} {b : Bool}
    (hbm : a.validity = .ok bm) (hb : validBit bm e = .ok b) : a.bitAt e = b := by
  unfold ArrowArray.validity at hbm
  unfold ArrowArray.bitAt
  split at hbm
  · rename_i hn
    rw [if_neg (by omega)]
    cases bm with
    | none =>
      cases hb
      cases hq : a.buffer? 0 with
      | none => rfl
      | some bs =>
        rw [ArrowArray.buffer_eq_ok.mpr hq] at hbm
        cases hbm
    | some bs =>
      rw [ArrowArray.buffer_eq_ok.mp hbm]
      simp only [validBit, readBit] at hb
      cases hbit : ByteSeq.getBit bs e with
      | none => rw [hbit] at hb; cases hb
      | some c =>
        rw [hbit] at hb
        cases hb
        simp [hbit]
  · rename_i hn
    cases hbm
    cases hb
    rw [if_pos (by omega)]

/-- One node of a row's walk, where the walk goes well. -/
theorem flatLevel_ok {nullLeaf optional : Bool} {a : ArrowArray} {as : List ArrowArray}
    {opts : List Bool} {e d : Nat} {level : Nat × Bool}
    (h : flatLevel nullLeaf (a :: as) (optional :: opts) e d = .ok level) :
    if optional && a.slotNull (as.isEmpty && nullLeaf) e then level = (d, false)
    else flatLevel nullLeaf as opts e (d + if optional then 1 else 0) = .ok level := by
  rw [flatLevel] at h
  cases optional with
  | false => simpa using h
  | true =>
    rw [if_neg (by simp)] at h
    unfold ArrowArray.slotNull
    split at h
    · rename_i hnull
      cases h
      simp [hnull]
    rename_i hnull
    split at h
    · cases h
    rename_i bm hbm
    split at h
    · cases h
    · rename_i hb
      cases h
      simp [validity_bitAt hbm hb]
    · rename_i hb
      simp only [validity_bitAt hbm hb, Bool.not_true, Bool.or_false, Bool.true_and, hnull]
      exact h

/-- **The row loop's level and presence are the striping of what the row holds.** -/
theorem flatLevel_striped {leaf : LeafSpec} {st : PathStep} (hk : st.kind = .leaf)
    (ss : List PathStep) (hss : ∀ s ∈ ss, s.kind = .struct) {α : Type} (value : Nat → α) {e r : Nat}
    {level : Nat × Bool} : ∀ {a : ArrowArray} {nodes : List ArrowArray} {d : Nat},
    followIdx (ss.map (·.child)) a = .ok nodes →
    flatLevel (leaf.col.extract = .null) (a :: nodes) ((ss ++ [st]).map (·.optional)) e d =
      .ok level →
    shred (stepRepetitions (ss ++ [st])) 0 r d (project leaf value (ss ++ [st]) a e) =
      [⟨r, level.1, if level.2 then some (value e) else none⟩] := by
  induction ss with
  | nil =>
    intro a nodes d hn h
    cases hn
    have hnull : leaf.nullStep st = (([] : List ArrowArray).isEmpty &&
        decide (leaf.col.extract = .null)) := by
      simp [LeafSpec.nullStep, hk]
    have hlevel := flatLevel_ok h
    rw [← hnull] at hlevel
    rw [List.nil_append, shred_project]
    unfold LeafSpec.nullAt PathStep.defStep
    split at hlevel
    · rename_i hnone
      rw [if_pos hnone, hlevel]
      rfl
    · rename_i hsome
      rw [if_neg hsome, shred_inList_false (by rw [hk]; rfl)]
      cases hlevel
      rfl
  | cons s ss ih =>
    intro a nodes d hn h
    have hs := hss s List.mem_cons_self
    rw [List.map_cons, followIdx] at hn
    split at hn
    · cases hn
    split at hn
    · cases hn
    rename_i next hnext
    obtain ⟨below, hbelow, rfl⟩ := map_eq_ok.mp hn
    have hnull : leaf.nullStep s = ((next :: below).isEmpty &&
        decide (leaf.col.extract = .null)) := by
      simp [LeafSpec.nullStep, hs]
    have htarget : s.target? a = some next := by
      simpa [PathStep.target?, hs] using ArrowArray.child_eq_ok.mp hnext
    have hlevel := flatLevel_ok h
    rw [← hnull] at hlevel
    rw [List.cons_append, shred_project]
    unfold LeafSpec.nullAt PathStep.defStep
    split at hlevel
    · rename_i hnone
      rw [if_pos hnone, hlevel]
      rfl
    · rename_i hsome
      rw [if_neg hsome, shred_inList_false (by rw [hs]; rfl), htarget]
      exact ih (fun s' hs' => hss s' (List.mem_cons_of_mem s hs')) hbelow hlevel

/-- The structs of a path lead to its leaf array. -/
theorem leafOf?_structs {st : PathStep} (hk : st.kind = .leaf) (ss : List PathStep)
    (hss : ∀ s ∈ ss, s.kind = .struct) : ∀ {a : ArrowArray} {nodes : List ArrowArray},
    followIdx (ss.map (·.child)) a = .ok nodes →
    leafOf? (ss ++ [st]) a = (a :: nodes).getLast? := by
  induction ss with
  | nil =>
    intro a nodes hn
    cases hn
    rw [List.nil_append, leafOf?, if_pos hk]
    rfl
  | cons s ss ih =>
    intro a nodes hn
    have hs := hss s List.mem_cons_self
    rw [List.map_cons, followIdx] at hn
    split at hn
    · cases hn
    split at hn
    · cases hn
    rename_i next hnext
    obtain ⟨below, hbelow, rfl⟩ := map_eq_ok.mp hn
    have htarget : s.target? a = some next := by
      simpa [PathStep.target?, hs] using ArrowArray.child_eq_ok.mp hnext
    rw [List.cons_append, leafOf?, if_neg (by rw [hs]; simp), htarget, Option.bind_some,
      ih (fun s' hs' => hss s' (List.mem_cons_of_mem s hs')) hbelow, List.getLast?_cons_cons]

/-- Rows with these levels and presences, as entries. -/
theorem shredAll_levels {leaf : LeafSpec} {steps : List PathStep} {α : Type} (value : Nat → α)
    {column : ArrowArray} {n : Nat} {level : Nat → Nat × Bool}
    (h : ∀ i < n, shred (stepRepetitions steps) 0 0 0 (project leaf value steps column i) =
      [⟨0, (level i).1, if (level i).2 then some (value i) else none⟩]) :
    shredAll (stepRepetitions steps) ((List.range n).map (project leaf value steps column)) =
      (List.range n).map fun i =>
        ⟨0, (level i).1, if (level i).2 then some (value i) else none⟩ := by
  rw [shredAll, List.flatMap_map, List.map_eq_flatMap]
  exact List.flatMap_congr fun i hi => h i (List.mem_range.mp hi)

theorem filterMap_levels {α : Type} (value : Nat → α) (level : Nat → Nat × Bool) (is : List Nat) :
    (is.map fun i => (⟨0, (level i).1, if (level i).2 then some (value i) else none⟩ :
      Entry α)).filterMap (·.value) = (is.filter fun i => (level i).2).map value := by
  induction is with
  | nil => rfl
  | cons i is ih => cases hp : (level i).2 <;> simp_all

/-- The rows stored are those whose level is the maximal one, with or without a mask. -/
theorem validRows_levels {n : Nat} {bs : Bytes} {level : Nat → Nat × Bool}
    (hbits : ∀ i < n, ByteSeq.getBit bs i = some (level i).2) :
    validRows (if (validRows (some bs) n).length < n then some bs else none) n =
      (List.range n).filter fun i => (level i).2 := by
  have hrows : validRows (some bs) n = (List.range n).filter fun i => (level i).2 := by
    apply List.filter_congr
    intro i hi
    simp [rowValid, hbits i (List.mem_range.mp hi)]
  split
  · exact hrows
  · rename_i hfull
    rw [hrows] at hfull
    have hall : (List.range n).filter (fun i => (level i).2) = List.range n := by
      refine List.filter_sublist.eq_of_length_le ?_
      rw [List.length_range]
      omega
    rw [validRows_none, hall]

/-- The row loop's level and presence of every row, and the rows its mask stores. -/
theorem flatInputs_rows {X : External} {columns : List ArrowSchema} {leaf : LeafSpec}
    (hof : LeafOfColumns columns leaf) (hflat : leaf.hasList = false)
    {batch : ArrowArray} {inp : LeafInputs} (hinp : leafInputs X leaf batch = .ok inp)
    (hn : inp.numLevels ≤ INT32_MAX) :
    ∃ (nodes : List ArrowArray) (level : Nat → Nat × Bool),
      followIdx leaf.pathIdx batch = .ok nodes ∧ nodes.getLast? = some inp.arr ∧
      inp.arr.length = batch.length ∧ inp.numLevels = toSize batch.length ∧
      (∀ i < inp.numLevels, flatLevel (leaf.col.extract = .null) nodes leaf.pathOptional i 0 =
        .ok (level i)) ∧
      validRows inp.validity inp.numLevels =
        (List.range inp.numLevels).filter (fun i => (level i).2) ∧
      ValidityOk inp.validity inp.numLevels := by
  unfold INT32_MAX at hn
  obtain ⟨hidx, hopt, _⟩ := flat_path hof hflat
  obtain ⟨nodes, child, p, _, _, _, hfollow, hlast, hvalid, hlv, rfl⟩ := leafInputs_flat hflat hinp
  have hlen : nodes.length = leaf.pathOptional.length := by
    rw [length_followIdx hfollow, hidx]
  have hrows := (validateChild_ok hvalid).1
  dsimp only at hn ⊢
  generalize toSize batch.length = n at *
  rcases flatLevels_ok hlv with ⟨hD, fl, p', hfl, hp, heq⟩ | ⟨hD, heq⟩
  · cases heq
    obtain ⟨level, hlevel, _, hbytes, hcount⟩ := flatRows_ok (by omega) hlen hopt hfl
    have hbits : ∀ i < n, ByteSeq.getBit fl.present i = some (level i).2 := by
      intro i hi
      obtain ⟨hl, _, hbit⟩ := hlevel i hi
      have hiff := (flatLevel_bounds nodes leaf.pathOptional 0 _ _ hlen hl).2
      rw [Nat.zero_add, hopt] at hiff
      rw [hbit]
      cases hp : (level i).2 with
      | true => simp [hiff.mp hp]
      | false =>
        have hne : (level i).1 ≠ leaf.maxDefLevel := fun he => by simp [hiff.mpr he] at hp
        simp [hne]
    refine ⟨nodes, level, hfollow, hlast, hrows, rfl, fun i hi => (hlevel i hi).1, ?_, ?_⟩
    · rw [hcount]
      exact validRows_levels hbits
    · intro bm hbm
      split at hbm
      · cases hbm
        omega
      · cases hbm
  · cases heq
    refine ⟨nodes, fun _ => (0, true), hfollow, hlast, hrows, rfl, fun i _ => ?_, ?_, nofun⟩
    · exact flatLevel_required nodes leaf.pathOptional 0 hlen (by rw [hopt, hD])
    · rw [validRows_none]
      exact (List.filter_eq_self.mpr fun _ _ => rfl).symm

/-- **A leaf outside lists is written as the striping of its rows.** -/
theorem striped_flat {X : External} {columns : List ArrowSchema} {leaf : LeafSpec}
    (hof : LeafOfColumns columns leaf) (hflat : leaf.hasList = false) {batch : ArrowArray}
    (hok : LeafArrays leaf batch) {inp : LeafInputs} (hinp : leafInputs X leaf batch = .ok inp)
    (hn : inp.numLevels ≤ INT32_MAX) {reps dfns : List Nat}
    (hlv : leafLevels leaf batch = .ok (reps, dfns)) {k : ColumnKind} {name : String}
    {nullable : Bool} (hcol : leaf.col = k.spec name nullable) :
    ∃ column, topColumn leaf batch = .ok column ∧ leafOf? leaf.arrowSteps column = some inp.arr ∧
      LeafStriped leaf k inp reps dfns
        (leafRows leaf k inp.arr column batch.length.toNat) := by
  obtain ⟨steps, hsteps⟩ := hof.steps
  have hf := (hsteps.flat hflat).arrowSteps hflat
  obtain ⟨hidx, _, _⟩ := flat_path hof hflat
  obtain ⟨nodes, level, hfollow, hlast, hrows, hcount, hlevel, hvalid, hvok⟩ :=
    flatInputs_rows hof hflat hinp hn
  obtain ⟨ss, st, hss, hk, hstructs, i, hpath⟩ := hf.structs
  -- the path starts at the column
  have hfollow' := hfollow
  rw [hpath, followIdx] at hfollow'
  split at hfollow'
  · cases hfollow'
  rename_i hguard
  split at hfollow'
  · cases hfollow'
  rename_i column hcolumn
  obtain ⟨below, hbelow, rfl⟩ := map_eq_ok.mp hfollow'
  have htop : topColumn leaf batch = .ok column := by
    unfold topColumn
    rw [hpath]
    dsimp only
    rw [if_neg hguard, hcolumn]
  have hleafOf : leafOf? leaf.arrowSteps column = some inp.arr := by
    rw [hss, leafOf?_structs hk ss hstructs hbelow]
    exact hlast
  have hbuf := hok.buffers column inp.arr k htop hleafOf (by rw [hcol]; exact k.kind?_spec _ _)
  have hsize : inp.numLevels = batch.length.toNat := by
    rw [hcount, ← hrows, toSize_length hbuf.length]
  have hstriped : ∀ i < inp.numLevels, shred (stepRepetitions leaf.arrowSteps) 0 0 0
      (project leaf (k.value inp.arr) leaf.arrowSteps column i) =
        [⟨0, (level i).1, if (level i).2 then some (k.value inp.arr i) else none⟩] := by
    intro i hi
    have hl := hlevel i hi
    rw [hf.opt, hss] at hl
    rw [hss]
    exact flatLevel_striped hk ss hstructs (k.value inp.arr) hbelow hl
  have hall := shredAll_levels (k.value inp.arr) hstriped
  have hrowsEq : leafRows leaf k inp.arr column batch.length.toNat =
      (List.range inp.numLevels).map (project leaf (k.value inp.arr) leaf.arrowSteps column) := by
    rw [hsize]
    rfl
  refine ⟨column, htop, hleafOf, ?_, ?_, ?_⟩
  · rw [hrowsEq, hall]
    unfold leafLevels at hlv
    rw [if_neg (by simp [hflat])] at hlv
    obtain ⟨nodes', child', _, _, _, hnodes, hfollow', _⟩ := leafInputs_flat hflat hinp
    rw [hfollow] at hfollow'
    cases hfollow'
    rw [hnodes] at hlv
    dsimp only at hlv
    rw [← hcount, flatMapM_ok (g := fun i => [(level i).1]) (fun i hi => by
      rw [hlevel i (List.mem_range.mp hi)]
      rfl), ← List.map_eq_flatMap] at hlv
    cases hlv
    have hzero : List.replicate inp.numLevels 0 = (List.range inp.numLevels).map fun _ => 0 := by
      simp
    rw [hzero, List.zip_map', List.map_map]
    rfl
  · rw [hrowsEq, hall, filterMap_levels]
    have harr : inp.arr.length.toNat = inp.numLevels := by rw [hrows, hsize]
    by_cases hk : k = .null
    · -- no row of the null type is present
      have hext : leaf.col.extract = .null := by rw [hcol, ColumnKind.spec_extract_null, hk]
      have hnone : (List.range inp.numLevels).filter (fun i => (level i).2) = [] := by
        apply List.filter_eq_nil_iff.mpr
        intro i hi
        have hl := hlevel i (List.mem_range.mp hi)
        rw [hext] at hl
        have := flatLevel_nullType _ leaf.pathOptional 0 (level i).1 (level i).2
          (by rw [length_followIdx hfollow, hidx]) (hf.getLast_optional hext) hl
        simp [this]
      rw [hnone, hk]
      rfl
    · rw [ColumnKind.values_eq hk, harr, hvalid]
  · rw [hrows, ← hsize]
    exact hvok

/-- What an accepted leaf is written as. -/
structure Striped (leaf : LeafSpec) (batch : ArrowArray) (inp : LeafInputs) (reps dfns : List Nat)
    (k : ColumnKind) (rows : List (Val Value (stepRepetitions leaf.arrowSteps))) : Prop where
  kind : ∃ (name : String) (nullable : Bool), leaf.col = k.spec name nullable
  column : leafColumn leaf batch =
    some { path := leaf.pathNames, repetitions := stepRepetitions leaf.arrowSteps, records := rows }
  length : rows.length = batch.length.toNat
  buffers : k.BuffersOk inp.arr
  striped : LeafStriped leaf k inp reps dfns rows

/-- **Every accepted leaf is written as the striping of the column the batch holds.** -/
theorem leafStriped_of_inputs {X : External} {columns : List ArrowSchema} {nodes : List SchemaNode}
    {leaves : List LeafSpec} (h : flattenColumns columns 0 ([], []) = .ok (nodes, leaves))
    {leaf : LeafSpec} (hleaf : leaf ∈ leaves) {batch : ArrowArray} (hok : LeafArrays leaf batch)
    {inp : LeafInputs} (hinp : leafInputs X leaf batch = .ok inp) (hn : inp.numLevels ≤ INT32_MAX)
    {reps dfns : List Nat} (hlv : leafLevels leaf batch = .ok (reps, dfns)) :
    ∃ k rows, Striped leaf batch inp reps dfns k rows := by
  obtain ⟨ts, bs, hf⟩ := flattenColumns_spec columns 0 _ _ h
  have hleaves : leaves = bs.map Branch.column := by simpa using hf.leaves
  obtain ⟨k, name, nullable, hcol⟩ : ∃ (k : ColumnKind) (name : String) (nullable : Bool),
      leaf.col = k.spec name nullable := by
    rw [hleaves] at hleaf
    obtain ⟨b, hb, rfl⟩ := List.mem_map.mp hleaf
    exact (hf.ok b hb).kind
  have hkind : leaf.col.kind? = some k := by rw [hcol]; exact k.kind?_spec _ _
  obtain ⟨column, htop, harr, hstriped⟩ : ∃ column, topColumn leaf batch = .ok column ∧
      leafOf? leaf.arrowSteps column = some inp.arr ∧ LeafStriped leaf k inp reps dfns
        (leafRows leaf k inp.arr column batch.length.toNat) := by
    cases hl : leaf.hasList with
    | true => exact striped_list h hleaf hl hok hinp hlv hcol
    | false =>
      exact striped_flat (leafOf_of_flattenColumns h leaf hleaf) hl hok hinp hn hlv hcol
  refine ⟨k, _, ⟨name, nullable, hcol⟩,
    leafColumn_eq htop (hok.unsliced column htop) harr hkind, by simp [leafRows],
    hok.buffers column inp.arr k htop harr hkind, hstriped⟩

end N2P
