import N2P.LeafPositions
import N2P.Nulls

/-!
# Sliced and ragged batches

The checks of offsets and lengths look at the array of a leaf and at the slots a list leaf's walk
comes to.  The record batch, the structs above a leaf outside lists, and the arrays no row of a
list leaf comes to keep whatever offset they have, and a list leaf's column may have more rows than
the batch.

* `OnPath` — the arrays on the path to a leaf, and those that have the batch's rows.
* `unsliced_iff` — an accepted batch is unsliced exactly when the arrays no check looks at are.
* `slices_written` — sliced and ragged batches that are accepted.
-/

namespace N2P

open Outcome Shredder

/-! ## The arrays on a path -/

/-- The array a step starts from, and whether it lies outside lists. -/
inductive StepArray :
    List PathStep → ArrowArray → (outside : Bool) → PathStep → ArrowArray → Prop where
  | here {st rest a} : StepArray (st :: rest) a true st a
  | struct {st rest a child outside st' x} (hk : st.kind = .struct) (ht : st.target? a = some child)
      (h : StepArray rest child outside st' x) : StepArray (st :: rest) a outside st' x
  | list {st rest a child outside st' x} (hk : st.kind.isList) (ht : st.target? a = some child)
      (h : StepArray rest child outside st' x) : StepArray (st :: rest) a false st' x

/-- An array on the path to a leaf.  `rows` marks the top-level column and the structs outside
    lists, whose rows are the batch's, and the leaf itself where there are only structs above it. -/
inductive OnPath (leaf : LeafSpec) (b : ArrowArray) : (rows : Bool) → ArrowArray → Prop where
  | flat {nodes x} (hl : leaf.hasList = false) (hn : followIdx leaf.pathIdx b = .ok nodes)
      (hx : x ∈ nodes) : OnPath leaf b true x
  | column {column} (hl : leaf.hasList = true) (hc : topColumn leaf b = .ok column) :
      OnPath leaf b true column
  | step {column outside st x} (hl : leaf.hasList = true) (hc : topColumn leaf b = .ok column)
      (h : StepArray leaf.steps column outside st x) :
      OnPath leaf b (outside && st.kind = .struct) x
  | entries {column outside st a entries} (hl : leaf.hasList = true)
      (hc : topColumn leaf b = .ok column) (h : StepArray leaf.steps column outside st a)
      (hk : st.kind = .map) (he : a.child? 0 = some entries) : OnPath leaf b false entries

/-- The struct arrays of a schema outside lists. -/
inductive StructArray : ArrowSchema → ArrowArray → ArrowArray → Prop where
  | here {s a} (hs : s.format = some "+s") : StructArray s a a
  | child {s a c x y} {i : Nat} (hs : s.format = some "+s") (hc : s.children[i]? = some c)
      (hx : a.child? i = some x) (h : StructArray c x y) : StructArray s a y

/-- A top-level column or a struct outside lists, whether or not a leaf lies below it. -/
def RowArray (schema : ArrowSchema) (b x : ArrowArray) : Prop :=
  (∃ i : Nat, (i : Int) < b.nChildren ∧ b.child? i = some x) ∨ StructArray schema b x

/-- The batch and every array on a path start at offset 0, and the columns and the structs outside
    lists have the batch's rows. -/
structure Unsliced (schema : ArrowSchema) (leaves : List LeafSpec) (b : ArrowArray) : Prop where
  batch : b.offset = 0
  offsets : ∀ leaf ∈ leaves, ∀ rows x, OnPath leaf b rows x → x.offset = 0
  lengths : ∀ leaf ∈ leaves, ∀ x, OnPath leaf b true x → x.length = b.length
  rows : ∀ x, RowArray schema b x → x.length = b.length

/-- Some row of a list leaf comes to a slot of the array, or to a slot of the map it is the entries
    of. -/
def RowsCome (leaf : LeafSpec) (b : ArrowArray) (x : ArrowArray) : Prop :=
  ∃ column, topColumn leaf b = .ok column ∧ ∃ i < b.length.toNat, ∃ st a e,
    Reached leaf leaf.steps column i st a e ∧
      (a = x ∨ st.kind = .map ∧ (st.optional = true → leaf.nullAt st a e = false) ∧
        a.child? 0 = some x)

/-- The arrays that no check looks at are unsliced: the batch, the structs above a leaf outside
    lists, and the arrays of a list leaf that no row comes to; and the columns and structs of a list
    leaf, or of no leaf, have the batch's rows. -/
structure UncheckedUnsliced (schema : ArrowSchema) (leaves : List LeafSpec) (b : ArrowArray) :
    Prop where
  batch : b.offset = 0
  structs : ∀ leaf ∈ leaves, leaf.hasList = false → ∀ nodes, followIdx leaf.pathIdx b = .ok nodes →
    ∀ x ∈ nodes.dropLast, x.offset = 0 ∧ x.length = b.length
  unreached : ∀ leaf ∈ leaves, leaf.hasList = true → ∀ rows x, OnPath leaf b rows x →
    ¬ RowsCome leaf b x → x.offset = 0
  lengths : ∀ leaf ∈ leaves, leaf.hasList = true → ∀ x, OnPath leaf b true x → x.length = b.length
  rows : ∀ x, RowArray schema b x → (∀ leaf ∈ leaves, ¬ OnPath leaf b true x) → x.length = b.length

theorem Unsliced.unchecked {schema : ArrowSchema} {leaves : List LeafSpec} {b : ArrowArray}
    (h : Unsliced schema leaves b) : UncheckedUnsliced schema leaves b where
  batch := h.batch
  structs leaf hleaf hl nodes hn x hx :=
    have hpath : OnPath leaf b true x := .flat hl hn ((List.dropLast_sublist nodes).subset hx)
    ⟨h.offsets leaf hleaf true x hpath, h.lengths leaf hleaf x hpath⟩
  unreached leaf hleaf _ rows x hx _ := h.offsets leaf hleaf rows x hx
  lengths leaf hleaf _ x hx := h.lengths leaf hleaf x hx
  rows x hx _ := h.rows x hx

/-! ## The checks of an accepted batch -/

section Accepted

variable {X : External} {leaf : LeafSpec} {b : ArrowArray} {inp : LeafInputs}

/-- Outside lists the leaf array is checked. -/
theorem flat_checked (h : leafInputs X leaf b = .ok inp) (hl : leaf.hasList = false)
    {nodes : List ArrowArray} (hn : followIdx leaf.pathIdx b = .ok nodes) {x : ArrowArray}
    (hx : nodes.getLast? = some x) : x.offset = 0 ∧ x.length = b.length ∧ inp.arr = x := by
  obtain ⟨_, _, _, _, _, _, hn', hx', hvalid, _, rfl⟩ := leafInputs_flat hl h
  rw [hn] at hn'
  cases hn'
  rw [hx] at hx'
  cases hx'
  obtain ⟨hlen, hoff, _⟩ := validateChild_ok hvalid
  exact ⟨hoff, hlen, rfl⟩

/-- Every array that a row of a list leaf comes to is checked. -/
theorem reached_checked (h : leafInputs X leaf b = .ok inp) (hl : leaf.hasList = true)
    {x : ArrowArray} (hx : RowsCome leaf b x) : x.offset = 0 := by
  obtain ⟨column, hc, i, hi, st, a, e, hr, hcome⟩ := hx
  obtain ⟨_, _, _, _, hshred, _⟩ := leafInputs_list hl h
  obtain ⟨column', vs, hc', _, _, hvisits, _⟩ := shredLeaf_eq_ok hshred
  rw [hc] at hc'
  cases hc'
  obtain ⟨g, hg, _⟩ := flatMapM_eq_ok.mp hvisits
  have hrow := hg i (List.mem_range.mpr hi)
  rcases hcome with rfl | ⟨hk, hpass, hx⟩
  · obtain ⟨_, _, _, _, hv⟩ := reached_visit hr hrow
    obtain ⟨present, hs⟩ := visit_slot hv
    exact (slot_eq_ok.mp hs).1
  · obtain ⟨_, _, _, _, hv⟩ := reached_visit hr hrow
    have hlist : st.kind.isList := by rw [hk]; rfl
    rcases visit_cases hv with ⟨hs, _⟩ | ⟨_, hk', _⟩ | ⟨_, _, hk', _, _⟩ | ⟨_, _, _, _, hc, _⟩ |
      ⟨_, _, _, _, _, hc, _, _⟩
    · exact absurd (slot_of_passes hpass hs) (by simp)
    · exact absurd hk' (StepKind.isList_ne hlist).1
    · exact absurd hk' (StepKind.isList_ne hlist).2
    · obtain ⟨_, _, _, _, ⟨hentries, _⟩, _⟩ := (listRange_eq_ok hlist).mp hc
      exact (hentries hk x hx).1
    · obtain ⟨_, _, _, _, ⟨hentries, _⟩, _⟩ := (listRange_eq_ok hlist).mp hc
      exact (hentries hk x hx).1

end Accepted

/-! ## The rows written -/

/-- The first entry of a slot keeps its level; the others continue a list inside it. -/
theorem visit_rep (leaf : LeafSpec) : ∀ (steps : List PathStep) (k : Nat) (a : ArrowArray) (e : Int)
    (r d : Nat) (vs : List Visit), StepsFrom k steps → visit leaf steps a e r d = .ok vs →
    ∃ v rest, vs = v :: rest ∧ v.rep = r ∧ ∀ u ∈ rest, k < u.rep
  | [], _, _, _, _, _, _, hst, _ => hst.elim
  | st :: steps, k, a, e, r, d, vs, hst, h => by
    rcases visit_cases h with ⟨_, rfl⟩ | ⟨_, _, rfl⟩ | ⟨child, _, hk, _, hv⟩ |
      ⟨_, _, _, _, _, rfl⟩ | ⟨child, s, t, _, hk, hc, hne, hv⟩
    · exact ⟨_, [], rfl, rfl, by simp⟩
    · exact ⟨_, [], rfl, rfl, by simp⟩
    · exact visit_rep leaf steps k child e r _ vs (hst.struct hk) hv
    · exact ⟨_, [], rfl, rfl, by simp⟩
    · obtain ⟨hlevel, hst'⟩ := hst.list hk
      obtain ⟨_, _, _, _, _, _, hle, _⟩ := (listRange_eq_ok hk).mp hc
      obtain ⟨g, hg, rfl⟩ := flatMapM_eq_ok.mp hv
      have helem : ∀ j ∈ List.range (t - s).toNat, ∃ v rest, g j = v :: rest ∧
          v.rep = (if j = 0 then r else st.repLevel) ∧ ∀ u ∈ rest, k + 1 < u.rep :=
        fun j hj => visit_rep leaf steps (k + 1) child _ _ _ (g j) hst' (hg j hj)
      obtain ⟨m, hm⟩ : ∃ m, (t - s).toNat = m + 1 := ⟨(t - s).toNat - 1, by omega⟩
      rw [hm, List.range_succ_eq_map] at helem ⊢
      obtain ⟨v, rest, h0, hv, hrest⟩ := helem 0 List.mem_cons_self
      refine ⟨v, rest ++ ((List.range m).map Nat.succ).flatMap g, ?_, ?_, ?_⟩
      · rw [List.flatMap_cons, h0]
        rfl
      · rw [hv, if_pos rfl]
      · intro u hu
        rcases List.mem_append.mp hu with hu | hu
        · have := hrest u hu
          omega
        · obtain ⟨j, hj, hu⟩ := List.mem_flatMap.mp hu
          obtain ⟨v', rest', hj', hv', hrest'⟩ := helem j (List.mem_cons_of_mem _ hj)
          obtain ⟨i, _, rfl⟩ := List.mem_map.mp hj
          rw [if_neg (by omega)] at hv'
          rw [hj'] at hu
          rcases List.mem_cons.mp hu with rfl | hu
          · omega
          · have := hrest' u hu
            omega

/-- Every row begins one record. -/
theorem rowVisits_records {leaf : LeafSpec} {column : ArrowArray} {n : Nat} {vs : List Visit}
    (hst : StepsFrom 0 leaf.steps) (h : rowVisits leaf column n = .ok vs) :
    (vs.map (·.rep)).count 0 = n := by
  obtain ⟨g, hg, rfl⟩ := flatMapM_eq_ok.mp h
  have hrow : ∀ i ∈ List.range n, ((g i).map (·.rep)).count 0 = 1 := by
    intro i hi
    obtain ⟨v, rest, hgi, hv, hrest⟩ := visit_rep leaf leaf.steps 0 column i 0 0 (g i) hst (hg i hi)
    rw [hgi, List.map_cons, List.count_cons, hv, List.count_eq_zero.mpr ?_]
    · rfl
    · intro hmem
      obtain ⟨u, hu, h0⟩ := List.mem_map.mp hmem
      have := hrest u hu
      omega
  rw [List.map_flatMap, List.count_flatMap]
  show ((List.range n).map fun i => ((g i).map (·.rep)).count 0).sum = n
  rw [List.map_congr_left hrow]
  simp

/-- The rows of a leaf's chunk: outside lists the positions of an array with the batch's rows, and
    under a list the records of the column's first rows, one for each row of the batch. -/
structure RowsWritten (X : External) (leaf : LeafSpec) (b : ArrowArray) : Prop where
  flat : leaf.hasList = false → ∃ inp nodes, leafInputs X leaf b = .ok inp ∧
    followIdx leaf.pathIdx b = .ok nodes ∧ nodes.getLast? = some inp.arr ∧ inp.arr.offset = 0 ∧
    inp.arr.length = b.length ∧ inp.numValues = b.length
  list : leaf.hasList = true → ∃ column leafArr sh vs, topColumn leaf b = .ok column ∧
    shredLeaf leaf b = .ok (leafArr, sh) ∧ rowVisits leaf column b.length.toNat = .ok vs ∧
    sh.Of vs ∧ sh.rep.count 0 = b.length.toNat

theorem rowsWritten {X : External} {w' : Writer} {b : ArrowArray} (hacc : Accepted X w' b)
    {leaf : LeafSpec} (hleaf : leaf ∈ w'.leaves) : RowsWritten X leaf b := by
  obtain ⟨inp, hinp⟩ := hacc.inputs leaf hleaf
  constructor
  · intro hl
    obtain ⟨nodes, _, _, _, _, _, hn, hlast, _, _, rfl⟩ := leafInputs_flat hl hinp
    obtain ⟨hoff, hlen, _⟩ := flat_checked hinp hl hn hlast
    exact ⟨_, nodes, hinp, hn, hlast, hoff, hlen, rfl⟩
  · intro hl
    obtain ⟨columns, hflat, _⟩ := hacc.flattened
    obtain ⟨hst, _⟩ := list_leaf_steps hflat hleaf hl
    obtain ⟨leafArr, sh, _, _, hshred, _⟩ := leafInputs_list hl hinp
    obtain ⟨column, vs, hc, _, _, hvisits, hof, _⟩ := shredLeaf_eq_ok hshred
    refine ⟨column, leafArr, sh, vs, hc, hshred, hvisits, hof, ?_⟩
    rw [hof.rep]
    exact rowVisits_records hst hvisits

/-! ## Accepted batches -/

theorem OnPath.of_flat {leaf : LeafSpec} {b x : ArrowArray} {rows : Bool}
    (h : OnPath leaf b rows x) (hl : leaf.hasList = false) :
    ∃ nodes, followIdx leaf.pathIdx b = .ok nodes ∧ x ∈ nodes := by
  cases h with
  | flat _ hn hx => exact ⟨_, hn, hx⟩
  | column hl' _ =>
    rw [hl] at hl'
    cases hl'
  | step hl' _ _ =>
    rw [hl] at hl'
    cases hl'
  | entries hl' _ _ _ _ =>
    rw [hl] at hl'
    cases hl'

/-- Outside lists every array on the path is a struct no check looks at, or the checked leaf. -/
theorem UncheckedUnsliced.flat {X : External} {schema : ArrowSchema} {leaves : List LeafSpec}
    {leaf : LeafSpec} {b x : ArrowArray} {inp : LeafInputs} {rows : Bool}
    (h : UncheckedUnsliced schema leaves b)
    (hleaf : leaf ∈ leaves) (hinp : leafInputs X leaf b = .ok inp) (hl : leaf.hasList = false)
    (hx : OnPath leaf b rows x) : x.offset = 0 ∧ x.length = b.length := by
  obtain ⟨nodes, hn, hmem⟩ := hx.of_flat hl
  by_cases hlast : nodes.getLast? = some x
  · obtain ⟨hoff, hlen, _⟩ := flat_checked hinp hl hn hlast
    exact ⟨hoff, hlen⟩
  · apply h.structs leaf hleaf hl nodes hn
    exact List.mem_dropLast_of_mem_of_ne_getLast? hmem fun heq => hlast heq.symm

/-- **An accepted batch is unsliced exactly when the arrays no check looks at are.**  Its rows are
    then the batch's, none dropped and none taken from another position. -/
theorem unsliced_iff {X : External} {w w' : Writer} {schema : Option ArrowSchema}
    {batch : Option Batch} (hw : Reachable X w)
    (h : n2pWriterWriteBatch X w schema (batch.map (·.array)) = some (.ok, w')) :
    ∃ sc b, schema = some sc ∧ batch = some b ∧
      ((Unsliced sc w'.leaves b.array ∧ ∀ leaf ∈ w'.leaves, RowsWritten X leaf b.array) ↔
        UncheckedUnsliced sc w'.leaves b.array) := by
  obtain ⟨b, rfl, hacc⟩ := accepted_of_ok hw h
  have hschema : ∃ sc, schema = some sc := by
    rcases writeBatch_cases h with ⟨_, hok⟩ | ⟨hne, _⟩
    · obtain ⟨sc, _, _, _, hargs, _⟩ := writeOneBatch_ok hok
      exact ⟨sc, (checkArguments_eq_ok.mp hargs).1⟩
    · exact absurd rfl hne
  obtain ⟨sc, rfl⟩ := hschema
  refine ⟨sc, b, rfl, rfl, fun h => h.1.unchecked, fun h => ?_⟩
  have hlengths : ∀ leaf ∈ w'.leaves, ∀ x, OnPath leaf b.array true x →
      x.length = b.array.length := by
    intro leaf hleaf x hx
    obtain ⟨inp, hinp⟩ := hacc.inputs leaf hleaf
    cases hl : leaf.hasList with
    | false => exact (h.flat hleaf hinp hl hx).2
    | true => exact h.lengths leaf hleaf hl x hx
  refine ⟨⟨h.batch, ?_, hlengths, ?_⟩, fun _ => rowsWritten hacc⟩
  · intro leaf hleaf rows x hx
    obtain ⟨inp, hinp⟩ := hacc.inputs leaf hleaf
    cases hl : leaf.hasList with
    | false => exact (h.flat hleaf hinp hl hx).1
    | true =>
      by_cases hcome : RowsCome leaf b.array x
      · exact reached_checked hinp hl hcome
      · exact h.unreached leaf hleaf hl rows x hx hcome
  · intro x hx
    by_cases hpath : ∃ leaf ∈ w'.leaves, OnPath leaf b.array true x
    · obtain ⟨leaf, hleaf, hon⟩ := hpath
      exact hlengths leaf hleaf x hon
    · exact h.rows x hx fun leaf hleaf hon => hpath ⟨leaf, hleaf, hon⟩

/-! ## Small inputs -/

/-- The first three of the four list rows: a column with one row more than the batch. -/
def raggedList : ArrowArray := .struct 3 none 0 [listRows]

/-- The last three of the four list rows: a slice of the batch. -/
def slicedBatch : ArrowArray := { raggedList with offset := 1 }

/-- The longer column is accepted, and so is the slice. -/
theorem slices_written :
    (∃ w', n2pWriterWriteBatch .reference freshWriter (some listSchema) (some slicedBatch) =
        some (.ok, w') ∧ ¬ Unsliced listSchema w'.leaves slicedBatch) ∧
    ∃ w', n2pWriterWriteBatch .reference freshWriter (some listSchema) (some raggedList) =
        some (.ok, w') ∧ ¬ Unsliced listSchema w'.leaves raggedList := by
  refine ⟨?_, ?_⟩
  · have hfacts : (n2pWriterWriteBatch .reference freshWriter (some listSchema)
        (some slicedBatch)).map (·.1) = some .ok := by decide +kernel
    obtain ⟨⟨status, w'⟩, hcall, rfl⟩ := Option.map_eq_some_iff.mp hfacts
    exact ⟨w', hcall, fun h => absurd h.batch (by decide)⟩
  · have hfacts : (n2pWriterWriteBatch .reference freshWriter (some listSchema)
        (some raggedList)).map (fun r => (r.1, r.2.leaves)) = some (.ok, [listLeaf]) := by
      decide +kernel
    obtain ⟨⟨status, w'⟩, hcall, heq⟩ := Option.map_eq_some_iff.mp hfacts
    simp only [Prod.mk.injEq] at heq
    obtain ⟨rfl, hleaves⟩ := heq
    refine ⟨w', hcall, fun h => ?_⟩
    have hlen := h.lengths listLeaf (by rw [hleaves]; exact List.mem_singleton_self _) listRows
      (.column rfl rfl)
    exact absurd hlen (by decide)

/-- The list batch is unsliced, and its four rows are written. -/
theorem unsliced_iff_listRows :
    ∃ w', n2pWriterWriteBatch .reference freshWriter (some listSchema) (some listBatch.array) =
        some (.ok, w') ∧ Unsliced listSchema w'.leaves listBatch.array ∧
      ∀ leaf ∈ w'.leaves, RowsWritten .reference leaf listBatch.array := by
  have hfacts : (n2pWriterWriteBatch .reference freshWriter (some listSchema)
      (some listBatch.array)).map (fun r => (r.1, r.2.leaves)) =
      some (.ok, [listLeaf]) := by decide +kernel
  obtain ⟨⟨status, w'⟩, hcall, heq⟩ := Option.map_eq_some_iff.mp hfacts
  simp only [Prod.mk.injEq] at heq
  obtain ⟨rfl, hleaves⟩ := heq
  have hreach : Reachable .reference freshWriter := ⟨.fresh 8191 none, "out.parquet", [], [], rfl⟩
  obtain ⟨sc, b, hsc, hb, hiff⟩ := @unsliced_iff .reference freshWriter w' (some listSchema)
    (some listBatch) hreach hcall
  cases hsc
  cases hb
  refine ⟨w', hcall, hiff.mpr ?_⟩
  rw [hleaves]
  -- the arrays on the path are the list and its numbers
  have hstep : ∀ outside st x, StepArray listLeaf.steps listRows outside st x →
      x.offset = 0 ∧ st.kind ≠ .map ∧ st.kind ≠ .struct := by
    intro outside st x h
    cases h with
    | here => exact ⟨rfl, by decide, by decide⟩
    | struct hk _ _ => cases hk
    | list _ ht h =>
      cases ht
      cases h with
      | here => exact ⟨rfl, by decide, by decide⟩
      | struct hk _ _ => cases hk
      | list hk _ _ => cases hk
  have hpath : ∀ rows x, OnPath listLeaf listBatch.array rows x →
      x.offset = 0 ∧ (rows = true → x = listRows) := by
    intro rows x h
    cases h with
    | flat hl _ _ => cases hl
    | column _ hc =>
      cases hc
      exact ⟨rfl, fun _ => rfl⟩
    | step _ hc h =>
      cases hc
      obtain ⟨hoff, _, hk⟩ := hstep _ _ _ h
      exact ⟨hoff, fun h => absurd (by simpa using (Bool.and_eq_true_iff.mp h).2) hk⟩
    | entries _ hc h hk _ =>
      cases hc
      exact absurd hk (hstep _ _ _ h).2.1
  refine ⟨rfl, ?_, ?_, ?_, ?_⟩
  · intro leaf hleaf hl
    cases List.mem_singleton.mp hleaf
    cases hl
  · intro leaf hleaf _ rows x hx _
    cases List.mem_singleton.mp hleaf
    exact (hpath rows x hx).1
  · intro leaf hleaf _ x hx
    cases List.mem_singleton.mp hleaf
    rw [(hpath true x hx).2 rfl]
    rfl
  · rintro x (⟨i, hi, hx⟩ | hx) _
    · have hi0 : i = 0 := by
        have : (i : Int) < 1 := hi
        omega
      subst hi0
      cases hx
      rfl
    · cases hx with
      | here => rfl
      | @child _ _ c _ _ i _ hc _ h =>
        have hfields : c ∈ listColumns := List.mem_of_getElem? hc
        cases List.mem_singleton.mp hfields
        cases h with
        | here hs => exact absurd hs (by decide)
        | child hs _ _ _ => exact absurd hs (by decide)

end N2P
