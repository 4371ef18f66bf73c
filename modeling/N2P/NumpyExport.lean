import Mathlib.Data.List.TakeWhile
import N2P.NumpyColumns

/-!
# The export of a dict of arrays

* `ordered`, `recordBatch_named` — the columns as the overload that is chosen passes them on.
* `names_iff` — when the exported names are the keys, in their order.
* `exportPreserves_iff` — when the exported batch denotes the dict's columns.
-/

namespace N2P.Numpy

open Columnar Python

/-! ## The export of a dict -/

/-- A dict of equally long arrays that the bridge lends, in insertion order. -/
structure ColumnDict where
  items : List (Key × NdArray)
  rows : Nat
  lendable : ∀ c ∈ items, Lendable rows c.2

/-- The exported batch has the dict's columns, in order: names, row count and elements. -/
def ExportPreserves (B : Nanobind) (N : Nanoarrow) (d : ColumnDict) : Prop :=
  ∃ batch schema array exported fields, recordBatch B N (objects d.items) = .ok batch ∧
    batch.arrowCArray = .ok ((schema, array), exported) ∧
    shapeOf schema = some (.struct fields) ∧ fieldNames fields = d.items.map (·.1.text) ∧
    array.length = d.rows ∧
    Columnar.rows (.struct fields) array =
      .ok ((List.range d.rows).map fun i => .struct (cellsOf (d.items.map (·.2.element i))))

/-- Columns the bridge lends as they are.  The order of the keys matters when they are all
    `str`. -/
structure ColumnDict.Plain (d : ColumnDict) : Prop where
  nonempty : d.items ≠ []
  text : ∀ c ∈ d.items, ∀ p ∈ c.1.text, p.isValidChar ∧ p ≠ 0
  order : (∀ c ∈ d.items, c.1.isStr = true) →
    (d.items.filterMap (·.1.text.text?)).Pairwise (· < ·)
  survives : ∀ c ∈ d.items, c.2.Survives d.rows

section Names

/-- The code points of a text. -/
def points (text : String) : PyStr := text.toList.map Char.toNat

theorem text?_points {s : PyStr} {text : String} (h : s.text? = some text) : points text = s := by
  unfold PyStr.text? at h
  split at h
  · rename_i hvalid
    cases h
    unfold points
    rw [String.toList_ofList, List.map_map]
    refine (List.map_congr_left fun p hp => ?_).trans (List.map_id s)
    show (Char.ofNat p).toNat = p
    rw [Char.ofNat, dif_pos (hvalid p hp)]
    rfl
  · cases h

theorem text?_isSome {s : PyStr} : (∃ text, s.text? = some text) ↔ ∀ p ∈ s, p.isValidChar := by
  unfold PyStr.text?
  split
  · rename_i hvalid
    exact iff_of_true ⟨_, rfl⟩ hvalid
  · rename_i hinvalid
    exact iff_of_false nofun hinvalid

theorem points_injective {a b : String} (h : points a = points b) : a = b := by
  have hlist : a.toList = b.toList :=
    List.map_injective_iff.mpr (fun x y hxy => Char.toNat_inj.mp hxy) h
  exact String.toList_inj.mp hlist

theorem cStr_eq_self_iff (name : String) :
    Soa.cStr name = name ↔ ∀ p ∈ points name, p ≠ 0 := by
  have hzero : ∀ c : Char, c.toNat ≠ 0 ↔ c ≠ '\x00' := fun c =>
    not_congr (Char.toNat_inj (d := '\x00'))
  have hlist : Soa.cStr name = name ↔ name.toList.takeWhile (· ≠ '\x00') = name.toList := by
    rw [← String.toList_inj, Soa.cStr, String.toList_ofList]
  rw [hlist, List.takeWhile_eq_self_iff]
  unfold points
  simp [hzero]

theorem points_cStr (name : String) : ∀ p ∈ points (Soa.cStr name), p ≠ 0 := by
  intro p hp
  unfold points Soa.cStr at hp
  rw [String.toList_ofList] at hp
  obtain ⟨c, hc, rfl⟩ := List.mem_map.mp hp
  have hne : c ≠ '\x00' := by simpa using List.mem_takeWhile_imp hc
  exact fun hzero => hne (Char.toNat_inj.mp hzero)

theorem fieldNames_fieldsOf (columns : List (String × NdArray)) :
    fieldNames (fieldsOf columns) = columns.map fun c => points (Soa.cStr c.1) := by
  induction columns with
  | nil => rfl
  | cons c rest ih =>
    rw [List.map_cons, fieldsOf, fieldNames, ih]
    rfl

end Names

section Overloads

variable {B : Nanobind} {N : Nanoarrow} {items : List (Key × NdArray)}

/-- The columns under their keys' texts. -/
def named (items : List (Key × NdArray)) : List (String × NdArray) :=
  items.map fun c => (c.1.text.text?.getD "", c.2)

/-- The columns in the order in which `build_record_batch` is given them. -/
def ordered (items : List (Key × NdArray)) : List (String × NdArray) :=
  if ∀ c ∈ items, c.1.isStr = true then SortedMap.ofEntries (named items) else named items

theorem mapM_none {α β : Type} {f : α → Option β} {xs : List α} (h : ∃ x ∈ xs, f x = none) :
    xs.mapM f = none := by
  obtain ⟨x, hx, hf⟩ := h
  induction xs with
  | nil => cases hx
  | cons y ys ih =>
    rw [List.mapM_cons]
    rcases List.mem_cons.mp hx with rfl | hx
    · rw [hf]
      rfl
    · rw [ih hx]
      cases f y <;> rfl

theorem mapM_error {α β : Type} {f : α → Except Failure β} {xs : List α}
    (h : ∃ x ∈ xs, ∃ e, f x = .error e) : ∃ e, xs.mapM f = .error e := by
  obtain ⟨x, hx, e, hf⟩ := h
  induction xs with
  | nil => cases hx
  | cons y ys ih =>
    rw [List.mapM_cons]
    cases hy : f y with
    | error e => exact ⟨e, rfl⟩
    | ok b =>
      rcases List.mem_cons.mp hx with rfl | hx
      · rw [hf] at hy
        cases hy
      · obtain ⟨e, he⟩ := ih hx
        rw [he]
        exact ⟨e, rfl⟩

/-- A key that does not cast rules the map out. -/
theorem castKeys_none (h : ∃ c ∈ items, B.castString c.1 = none) :
    ((objects items).mapM fun item => (B.castString item.1).map fun name => (name, item.2)) =
      none := by
  obtain ⟨c, hc, hcast⟩ := h
  refine mapM_none ⟨(c.1, .ndarray c.2), List.mem_map_of_mem hc, ?_⟩
  rw [hcast]
  rfl

/-- The columns under their names, as the casts build them. -/
theorem objects_named : (objects items).map (fun item => (item.1.text.text?.getD "", item.2)) =
    objects (named items) := by
  simp [objects, named]

/-- `str` keys all cast. -/
theorem castKeys_named (hB : B.Documented) (hstr : ∀ c ∈ items, c.1.isStr = true)
    (h : ∀ c ∈ items, ∃ name, c.1.text.text? = some name) :
    ((objects items).mapM fun item => (B.castString item.1).map fun name => (name, item.2)) =
      some (objects (named items)) := by
  rw [← objects_named]
  refine Outcome.mapM_eq_map (m := Option) fun item hitem => ?_
  obtain ⟨c, hc, rfl⟩ := List.mem_map.mp hitem
  obtain ⟨name, hname⟩ := h c hc
  have hkey := hstr c hc
  rcases hs : c.1 with s | s
  · rw [hs] at hname
    change s.text? = some name at hname
    show (B.castString (.str s)).map _ = some (s.text?.getD "", _)
    rw [hB.str, hname]
    rfl
  · rw [hs] at hkey
    cases hkey

/-- The texts of named keys all cast. -/
theorem castItems_named (hB : B.Documented)
    (h : ∀ c ∈ items, ∃ name, c.1.text.text? = some name) :
    (objects items).mapM (castItem B) = .ok (objects (named items)) := by
  rw [← objects_named]
  refine Outcome.mapM_eq_map (m := Except Failure) fun item hitem => ?_
  obtain ⟨c, hc, rfl⟩ := List.mem_map.mp hitem
  obtain ⟨name, hname⟩ := h c hc
  unfold castItem
  rw [hB.str, hname]
  rfl

/-- A key without UTF-8 is refused. -/
theorem recordBatch_unnamed (hB : B.Documented) (h : ∃ c ∈ items, c.1.text.text? = none) :
    ∃ e, recordBatch B N (objects items) = .error e := by
  obtain ⟨c, hc, hnone⟩ := h
  have hcast : B.castString c.1 = none := by
    rcases hkey : c.1 with s | s
    · rw [hB.str]
      rwa [hkey] at hnone
    · exact hB.other s
  have hfail : ∃ e, (objects items).mapM (castItem B) = .error e := by
    refine mapM_error ⟨(c.1, .ndarray c.2), List.mem_map_of_mem hc, .raised B.castError, ?_⟩
    unfold castItem
    rw [hB.str, hnone]
  obtain ⟨e, he⟩ := hfail
  refine ⟨e, ?_⟩
  unfold recordBatch NumpyRecordBatch.ofDict
  rw [castKeys_none ⟨c, hc, hcast⟩]
  dsimp only
  rw [he]
  rfl

/-- **The overload that is chosen** passes the columns on in map or in dict order. -/
theorem recordBatch_named (hB : B.Documented)
    (h : ∀ c ∈ items, ∃ name, c.1.text.text? = some name) :
    recordBatch B N (objects items) =
      buildRecordBatch N (objects (ordered items)) >>= fun b => .ok { backing := some b } := by
  unfold recordBatch ordered
  by_cases hstr : ∀ c ∈ items, c.1.isStr = true
  · have hcomm := SortedMap.ofEntries_map Object.ndarray (named items)
    change SortedMap.ofEntries (objects (named items)) =
      objects (SortedMap.ofEntries (named items)) at hcomm
    rw [castKeys_named hB hstr h, if_pos hstr, ← hcomm]
    rfl
  · have hother : ∃ c ∈ items, c.1.isStr ≠ true := by
      simpa only [not_forall, exists_prop] using hstr
    obtain ⟨c, hc, hkey⟩ := hother
    have hcast : B.castString c.1 = none := by
      rcases hs : c.1 with s | s
      · rw [hs] at hkey
        exact absurd rfl hkey
      · exact hB.other s
    rw [castKeys_none ⟨c, hc, hcast⟩, if_neg hstr]
    unfold NumpyRecordBatch.ofDict
    dsimp only
    rw [castItems_named hB h]
    rfl

end Overloads

section Exports

variable {B : Nanobind} {N : Nanoarrow} {d : ColumnDict}

theorem cellsOf_injective : ∀ {xs ys : List Cell}, cellsOf xs = cellsOf ys → xs = ys
  | [], [], _ => rfl
  | x :: xs, y :: ys, h => by
    simp only [cellsOf, Cells.cons.injEq] at h
    rw [h.1, cellsOf_injective h.2]

theorem ColumnDict.lendable_ordered (d : ColumnDict) :
    ∀ c ∈ ordered d.items, Lendable d.rows c.2 := by
  have hnamed : ∀ c ∈ named d.items, Lendable d.rows c.2 := by
    intro c hc
    obtain ⟨item, hitem, rfl⟩ := List.mem_map.mp hc
    exact d.lendable item hitem
  intro c hc
  unfold ordered at hc
  split at hc
  · exact hnamed c (SortedMap.mem_ofEntries hc)
  · exact hnamed c hc

/-- What is exported of a dict with named keys, compared with the dict. -/
theorem exportPreserves_named (hN : N.Documented) (hB : B.Documented) (hne : d.items ≠ [])
    (hname : ∀ c ∈ d.items, ∃ name, c.1.text.text? = some name) :
    ExportPreserves B N d ↔
      (ordered d.items).map (fun c => points (Soa.cStr c.1)) = d.items.map (·.1.text) ∧
        ∀ i < d.rows, (ordered d.items).map (fun c => Cell.scalar (c.2.lent i)) =
          d.items.map (·.2.element i) := by
  have hordered : ordered d.items ≠ [] := by
    have hnamed : named d.items ≠ [] := by simpa [named] using hne
    unfold ordered
    split
    · exact SortedMap.ofEntries_ne_nil hnamed
    · exact hnamed
  have hlend := d.lendable_ordered
  have hrun : recordBatch B N (objects d.items) =
      .ok { backing := some (batchSchema (ordered d.items),
              batchArray d.rows (ordered d.items)) } := by
    rw [recordBatch_named hB hname, buildRecordBatch_eq hN hordered hlend]
    rfl
  have hrows := rows_batchArray hlend
  constructor
  · rintro ⟨batch, schema, array, exported, fields, hbatch, hexport, hshape, hnames, _, hcells⟩
    rw [hrun] at hbatch
    cases hbatch
    cases hexport
    rw [shapeOf_batchSchema] at hshape
    cases hshape
    rw [fieldNames_fieldsOf] at hnames
    refine ⟨hnames, fun i hi => ?_⟩
    rw [hrows] at hcells
    have heach := List.map_inj_left.mp (Except.ok.inj hcells) i (List.mem_range.mpr hi)
    exact cellsOf_injective (Cell.struct.inj heach)
  · rintro ⟨hnames, hcells⟩
    refine ⟨_, _, _, _, _, hrun, rfl, shapeOf_batchSchema, ?_, rfl, ?_⟩
    · rw [fieldNames_fieldsOf]
      exact hnames
    · rw [hrows]
      refine congrArg Except.ok (List.map_congr_left fun i hi => ?_)
      rw [hcells i (List.mem_range.mp hi)]

/-- The names are the keys', in order, exactly when none holds a NUL and a map would keep them. -/
theorem names_iff (hname : ∀ c ∈ d.items, ∃ name, c.1.text.text? = some name) :
    (ordered d.items).map (fun c => points (Soa.cStr c.1)) = d.items.map (·.1.text) ↔
      (∀ c ∈ d.items, ∀ p ∈ c.1.text, p ≠ 0) ∧ ordered d.items = named d.items := by
  have hpoints : ∀ c ∈ d.items, points (c.1.text.text?.getD "") = c.1.text := by
    intro c hc
    obtain ⟨name, hn⟩ := hname c hc
    rw [hn]
    exact text?_points hn
  have htext : d.items.map (·.1.text) = (named d.items).map fun c => points c.1 := by
    unfold named
    rw [List.map_map]
    exact List.map_congr_left fun c hc => (hpoints c hc).symm
  constructor
  · intro h
    have hnul : ∀ c ∈ d.items, ∀ p ∈ c.1.text, p ≠ 0 := by
      intro c hc
      have hmem : c.1.text ∈ (ordered d.items).map fun c => points (Soa.cStr c.1) := by
        rw [h]
        exact List.mem_map_of_mem hc
      obtain ⟨o, _, ho⟩ := List.mem_map.mp hmem
      rw [← ho]
      exact points_cStr o.1
    have hkeep : ∀ c ∈ named d.items, Soa.cStr c.1 = c.1 := by
      intro c hc
      obtain ⟨item, hitem, rfl⟩ := List.mem_map.mp hc
      refine (cStr_eq_self_iff _).mpr ?_
      rw [hpoints item hitem]
      exact hnul item hitem
    refine ⟨hnul, ?_⟩
    unfold ordered at h ⊢
    split
    · rename_i hstr
      rw [if_pos hstr, htext] at h
      refine SortedMap.ofEntries_sorted (SortedMap.keys_ofEntries_iff.mp ?_)
      have hkeys : (SortedMap.ofEntries (named d.items)).map (fun c => points (Soa.cStr c.1)) =
          (SortedMap.ofEntries (named d.items)).map fun c => points c.1 :=
        List.map_congr_left fun c hc => by rw [hkeep c (SortedMap.mem_ofEntries hc)]
      rw [hkeys] at h
      have hinj : Function.Injective (List.map points) :=
        List.map_injective_iff.mpr fun a b hab => points_injective hab
      apply hinj
      rw [List.map_map, List.map_map]
      exact h
    · rfl
  · rintro ⟨hnul, horder⟩
    rw [horder, htext]
    refine List.map_congr_left fun c hc => ?_
    obtain ⟨item, hitem, rfl⟩ := List.mem_map.mp hc
    refine congrArg points ((cStr_eq_self_iff _).mpr ?_)
    rw [hpoints item hitem]
    exact hnul item hitem

/-- A map keeps the order of names that increase. -/
theorem ordered_eq_named_iff (hname : ∀ c ∈ d.items, ∃ name, c.1.text.text? = some name) :
    ordered d.items = named d.items ↔
      ((∀ c ∈ d.items, c.1.isStr = true) →
        (d.items.filterMap (·.1.text.text?)).Pairwise (· < ·)) := by
  have hnames : d.items.filterMap (·.1.text.text?) = (named d.items).map (·.1) := by
    unfold named
    rw [List.map_map, ← List.filterMap_eq_map]
    refine List.filterMap_congr fun c hc => ?_
    obtain ⟨name, hn⟩ := hname c hc
    simp [hn]
  rw [hnames]
  unfold ordered
  split
  · rename_i hstr
    rw [forall_prop_of_true hstr]
    constructor
    · intro h
      exact SortedMap.keys_ofEntries_iff.mp (by rw [h])
    · exact SortedMap.ofEntries_sorted
  · rename_i hstr
    exact iff_of_true rfl fun h => absurd h hstr

/-- The elements survive column by column. -/
theorem elements_iff : (∀ i < d.rows, (named d.items).map (fun c => Cell.scalar (c.2.lent i)) =
    d.items.map (·.2.element i)) ↔ ∀ c ∈ d.items, c.2.Survives d.rows := by
  have hcolumns : ∀ i, (named d.items).map (fun c => Cell.scalar (c.2.lent i)) =
      d.items.map fun c => Cell.scalar (c.2.lent i) := by
    intro i
    unfold named
    rw [List.map_map]
    rfl
  simp only [hcolumns]
  constructor
  · intro h c hc
    refine (d.lendable c hc).survives_iff.mp fun i hi => ?_
    exact List.map_inj_left.mp (h i hi) c hc
  · intro h i hi
    refine List.map_congr_left fun c hc => ?_
    exact (d.lendable c hc).survives_iff.mpr (h c hc) i hi

/-- **The exported batch denotes the dict** exactly when the bridge lends its columns as they
    are. -/
theorem exportPreserves_iff (B : Nanobind) (N : Nanoarrow) (hB : B.Documented)
    (hN : N.Documented) (d : ColumnDict) : ExportPreserves B N d ↔ d.Plain := by
  by_cases hname : ∀ c ∈ d.items, ∃ name, c.1.text.text? = some name
  · by_cases hne : d.items = []
    · refine iff_of_false ?_ fun h => h.nonempty hne
      rintro ⟨batch, _, _, _, _, hbatch, _⟩
      rw [recordBatch_named hB hname, hne] at hbatch
      cases hbatch
    · rw [exportPreserves_named hN hB hne hname, names_iff hname]
      constructor
      · rintro ⟨⟨hnul, horder⟩, hcells⟩
        rw [horder] at hcells
        exact
          { nonempty := hne
            text := fun c hc p hp => ⟨text?_isSome.mp (hname c hc) p hp, hnul c hc p hp⟩
            order := (ordered_eq_named_iff hname).mp horder
            survives := elements_iff.mp hcells }
      · intro h
        have horder := (ordered_eq_named_iff hname).mpr h.order
        refine ⟨⟨fun c hc p hp => (h.text c hc p hp).2, horder⟩, ?_⟩
        rw [horder]
        exact elements_iff.mpr h.survives
  · refine iff_of_false ?_ fun h => hname fun c hc =>
      text?_isSome.mpr fun p hp => (h.text c hc p hp).1
    rintro ⟨batch, _, _, _, _, hbatch, _⟩
    have hnone : ∃ c ∈ d.items, c.1.text.text? = none := by
      simpa only [not_forall, exists_prop, ← Option.isSome_iff_exists, Option.not_isSome_iff_eq_none]
        using hname
    obtain ⟨e, he⟩ := recordBatch_unnamed (N := N) hB hnone
    rw [he] at hbatch
    cases hbatch

/-! ## Concrete dicts -/

/-- Libraries that do what is documented. -/
def Nanoarrow.reference : Nanoarrow where
  setTypeStruct n :=
    some { schemaInit with format := some "+s", children := List.replicate n schemaInit }
  setType s t := some { s with format := some t.format }
  setName s name := some { s with name := some name }
  initFromSchema s :=
    if s.format = some "+s" then
      some (arrayInit 1 (some (List.replicate s.children.length (arrayInit 2 none))))
    else none
  setBuffer a i data :=
    if i < a.nBuffers then some { a with buffers := a.buffers.map (·.set i (some data)) }
    else none

theorem Nanoarrow.reference_documented : Nanoarrow.reference.Documented where
  setTypeStruct _ := rfl
  setType _ _ := rfl
  setName _ _ := rfl
  initFromSchema _ hformat _ := if_pos hformat
  setBuffer _ _ _ hi := if_pos hi

def Nanobind.reference : Nanobind where
  castString
    | .str s => s.text?
    | .other _ => none
  castError := utf8 "std::bad_cast"

theorem Nanobind.reference_documented : Nanobind.reference.Documented where
  str _ := rfl
  other _ := rfl

/-- `{"id": np.array([7, 8], np.int16), "v": np.array([1.5, 2.5], np.float32)}`. -/
def twoColumns : ColumnDict where
  items :=
    [(.str [105, 100],
      { dtype := { kind := 'i', itemsize := 2 }, shape := [2], memory := [7, 0, 8, 0] }),
     (.str [118],
      { dtype := { kind := 'f', itemsize := 4 }, shape := [2],
        memory := [0, 0, 0xc0, 0x3f, 0, 0, 0x20, 0x40] })]
  rows := 2
  lendable := by
    simp only [List.forall_mem_cons, List.not_mem_nil, false_imp_iff, implies_true, and_true]
    exact ⟨⟨rfl, rfl, .int16, rfl⟩, rfl, rfl, .float, rfl⟩

theorem exportPreserves_twoColumns :
    ExportPreserves Nanobind.reference Nanoarrow.reference twoColumns ↔ twoColumns.Plain :=
  exportPreserves_iff _ _ Nanobind.reference_documented Nanoarrow.reference_documented twoColumns

/-- `{"f": np.array([True, True])}`. -/
def twoTrue : ColumnDict where
  items := [(.str [102],
    { dtype := { kind := 'b', itemsize := 1 }, shape := [2], memory := [1, 1] })]
  rows := 2
  lendable := by
    simp only [List.forall_mem_cons, List.not_mem_nil, false_imp_iff, implies_true, and_true]
    exact ⟨rfl, rfl, .bool, rfl⟩

/-- `{"x": np.array([1], ">i2")}`. -/
def swappedOne : ColumnDict where
  items := [(.str [120],
    { dtype := { kind := 'i', itemsize := 2, bigEndian := true }, shape := [1], memory := [0, 1] })]
  rows := 1
  lendable := by
    simp only [List.forall_mem_cons, List.not_mem_nil, false_imp_iff, implies_true, and_true]
    exact ⟨rfl, rfl, .int16, rfl⟩

/-- `{"b": np.array([1], np.int8), "a": np.array([2], np.int8)}`. -/
def unsortedKeys : ColumnDict where
  items :=
    [(.str [98], { dtype := { kind := 'i', itemsize := 1 }, shape := [1], memory := [1] }),
     (.str [97], { dtype := { kind := 'i', itemsize := 1 }, shape := [1], memory := [2] })]
  rows := 1
  lendable := by
    simp only [List.forall_mem_cons, List.not_mem_nil, false_imp_iff, implies_true, and_true]
    exact ⟨⟨rfl, rfl, .int8, rfl⟩, rfl, rfl, .int8, rfl⟩

/-- **Booleans, a foreign byte order and unsorted keys**: `[True, True]` is read back as
    `[True, False]`, a big-endian 1 as 256, and the columns trade places. -/
theorem not_exportPreserves_booleans :
    ¬ExportPreserves Nanobind.reference Nanoarrow.reference twoTrue ∧
      ¬ExportPreserves Nanobind.reference Nanoarrow.reference swappedOne ∧
      ¬ExportPreserves Nanobind.reference Nanoarrow.reference unsortedKeys := by
  have hB := Nanobind.reference_documented
  have hN := Nanoarrow.reference_documented
  refine ⟨fun h => ?_, fun h => ?_, fun h => ?_⟩
  · rw [exportPreserves_named hN hB (by decide) fun c hc => text?_isSome.mpr (by
      revert c; decide)] at h
    exact absurd (h.2 1 (by decide)) (by decide +kernel)
  · rw [exportPreserves_named hN hB (by decide) fun c hc => text?_isSome.mpr (by
      revert c; decide)] at h
    exact absurd (h.2 0 (by decide)) (by decide +kernel)
  · rw [exportPreserves_named hN hB (by decide) fun c hc => text?_isSome.mpr (by
      revert c; decide)] at h
    exact absurd h.1 (by decide +kernel)

end Exports

end N2P.Numpy
