import Mathlib.Data.String.Basic
import N2P.Columnar
import N2P.Lib.SortedMap
import N2P.PythonWriters
import N2P.Soa

/-!
# The NumPy bridge

`numpy_bridge.hpp` lends the memory of NumPy arrays to an Arrow record batch, through nanoarrow
and behind two constructor overloads of `RecordBatch`.

* `NdArray`, `Key` — what the bridge reads of an array and of a dict's keys.
* `Nanoarrow`, `Nanobind` — the two libraries, and what their documentation says of them.
* `recordBatch`, `arrowCArray` — the constructor and the export.
* `buildRecordBatch_eq` — the schema and the array that are built of arrays the bridge lends.
-/

namespace N2P.Numpy

open Columnar Python

/-! ## NumPy -/

/-- A dtype, as far as the bridge and the element values depend on it.  The host is
    little-endian. -/
structure DType where
  kind : Char
  itemsize : Nat
  /-- `dtype.byteorder` is `'>'`. -/
  bigEndian : Bool := false
  /-- Booleans are bytes. -/
  boolSize : kind = 'b' → itemsize = 1 := by decide

/-- An array.  `memory` starts at the pointer of `__array_interface__`. -/
structure NdArray where
  dtype : DType
  shape : List Nat
  cContiguous : Bool := true
  memory : Bytes
  /-- What an `np.ma.MaskedArray` adds, one entry an element. -/
  mask : List Bool := []
  /-- Elements of a C-contiguous array lie one behind the other. -/
  size : cContiguous = true → memory.length = shape.prod * dtype.itemsize := by simp

/-- Element `i` of a one-dimensional C-contiguous array; a floating-point one as its bits. -/
def NdArray.value (a : NdArray) (i : Nat) : Scalar :=
  let stored := ByteSeq.element a.dtype.itemsize a.memory i
  let e := if a.dtype.bigEndian then stored.reverse else stored
  match a.dtype.kind with
  | 'b' => .bool (e.any (· ≠ 0))
  | 'i' => .int (signedLE e)
  | 'u' => .int (ByteSeq.ofLE e)
  | _ => .float (ByteSeq.ofLE e)

/-- `a[i]`, which a mask may hide. -/
def NdArray.element (a : NdArray) (i : Nat) : Cell :=
  if a.mask.getD i false then .null else .scalar (a.value i)

/-- A dict's value. -/
inductive Object where
  | ndarray (a : NdArray)
  | other

/-! ## Python strings -/

/-- A `str`: its code points, lone surrogates included. -/
abbrev PyStr := List Nat

/-- The text, unless it has a lone surrogate. -/
def PyStr.text? (s : PyStr) : Option String :=
  if ∀ p ∈ s, p.isValidChar then some (String.ofList (s.map Char.ofNat)) else none

/-- A key of a dict: a `str`, or another object and what `str()` makes of it. -/
inductive Key where
  | str (s : PyStr)
  | other (s : PyStr)
  deriving DecidableEq

def Key.text : Key → PyStr
  | .str s | .other s => s

def Key.isStr : Key → Bool
  | .str _ => true
  | .other _ => false

/-! ## The libraries -/

/-- The `NANOARROW_TYPE_` enumerators that the bridge uses. -/
inductive NanoarrowType where
  | bool | int8 | int16 | int32 | int64 | uint8 | uint16 | uint32 | uint64 | float | double
  deriving DecidableEq, Repr

/-- Their format strings in the Arrow C data interface. -/
def NanoarrowType.format : NanoarrowType → String
  | .bool => "b"
  | .int8 => "c"
  | .int16 => "s"
  | .int32 => "i"
  | .int64 => "l"
  | .uint8 => "C"
  | .uint16 => "S"
  | .uint32 => "I"
  | .uint64 => "L"
  | .float => "f"
  | .double => "g"

/-- nanoarrow, as the bridge calls it; `none` stands for a code other than `NANOARROW_OK`. -/
structure Nanoarrow where
  /-- `ArrowSchemaInit`, then `ArrowSchemaSetTypeStruct`. -/
  setTypeStruct : Nat → Option ArrowSchema
  /-- `ArrowSchemaSetType`. -/
  setType : ArrowSchema → NanoarrowType → Option ArrowSchema
  /-- `ArrowSchemaSetName`. -/
  setName : ArrowSchema → String → Option ArrowSchema
  /-- `ArrowArrayInitFromSchema`. -/
  initFromSchema : ArrowSchema → Option ArrowArray
  /-- `ArrowArraySetBuffer`, of a buffer that `BufferInitWrapped` wraps. -/
  setBuffer : ArrowArray → Nat → Bytes → Option ArrowArray

/-- `ArrowSchemaInit`. -/
def schemaInit : ArrowSchema :=
  { format := none, name := none, flags := ARROW_FLAG_NULLABLE, children := [], dictionary := none }

/-- An array without slots: null buffers, and children of its own. -/
def arrayInit (buffers : Nat) (children : Option (List ArrowArray)) : ArrowArray :=
  { length := 0, nullCount := 0, offset := 0, nBuffers := buffers,
    nChildren := (children.getD []).length, buffers := some (List.replicate buffers none), children }

/-- A child of a primitive type. -/
def Primitive (s : ArrowSchema) : Prop :=
  (∃ t : NanoarrowType, s.format = some t.format) ∧ s.children = [] ∧ s.dictionary = none

/-- The documented results, when memory lasts. -/
structure Nanoarrow.Documented (N : Nanoarrow) : Prop where
  setTypeStruct : ∀ n, N.setTypeStruct n =
    some { schemaInit with format := some "+s", children := List.replicate n schemaInit }
  setType : ∀ s t, N.setType s t = some { s with format := some t.format }
  setName : ∀ s name, N.setName s name = some { s with name := some name }
  initFromSchema : ∀ s, s.format = some "+s" → (∀ c ∈ s.children, Primitive c) →
    N.initFromSchema s =
      some (arrayInit 1 (some (List.replicate s.children.length (arrayInit 2 none))))
  setBuffer : ∀ (a : ArrowArray) (i : Nat) data, i < a.nBuffers →
    N.setBuffer a i data = some { a with buffers := a.buffers.map (·.set i (some data)) }

/-- nanobind: the caster of `std::string`, and the `what()` of a cast that fails. -/
structure Nanobind where
  castString : Key → Option String
  castError : Bytes

/-- It takes the `str` objects that have UTF-8. -/
structure Nanobind.Documented (B : Nanobind) : Prop where
  str : ∀ s, B.castString (.str s) = s.text?
  other : ∀ s, B.castString (.other s) = none

/-! ## The bridge -/

/-- A `NANOARROW_OK` test that throws. -/
def orThrow {α : Type} (r : Option α) (what : String) : Except Failure α :=
  match r with
  | none => .error (.raised (utf8 what))
  | some a => .ok a

/-- `require_c_contiguous`. -/
def requireCContiguous (arr : NdArray) : Except Failure Unit :=
  if arr.cContiguous = false then
    .error (.raised (utf8
      "numpy columns must be C-contiguous (use numpy.ascontiguousarray)"))
  else if arr.shape.length ≠ 1 then
    .error (.raised (utf8 "numpy columns must be one-dimensional"))
  else .ok ()

/-- `shape[0]`. -/
def NdArray.length (arr : NdArray) : Nat := arr.shape.headD 0

/-- `numpy_column_bytes`. -/
def numpyColumnBytes (arr : NdArray) : Bytes := arr.memory.take (arr.length * arr.dtype.itemsize)

/-- `map_numeric_dtype`. -/
def mapNumericDtype (dtype : DType) : Except Failure NanoarrowType :=
  match dtype.kind, dtype.itemsize with
  | 'b', _ => .ok .bool
  | 'i', 1 => .ok .int8
  | 'i', 2 => .ok .int16
  | 'i', 4 => .ok .int32
  | 'i', 8 => .ok .int64
  | 'u', 1 => .ok .uint8
  | 'u', 2 => .ok .uint16
  | 'u', 4 => .ok .uint32
  | 'u', 8 => .ok .uint64
  | 'f', 4 => .ok .float
  | 'f', 8 => .ok .double
  | _, _ => .error (.raised (utf8 ("unsupported numpy dtype for zero-copy export " ++
      "(supported: bool, int/uint/float widths 1/2/4/8 bytes)")))

/-- `attach_numpy_column`. -/
def attachNumpyColumn (N : Nanoarrow) (arr : NdArray) (childArray : ArrowArray) (length : Int) :
    Except Failure ArrowArray := do
  let _ ← mapNumericDtype arr.dtype
  let childArray ← orThrow (N.setBuffer childArray 1 (numpyColumnBytes arr))
    "failed to attach numpy buffer to Arrow array"
  .ok { childArray with length, nullCount := 0 }

/-- The first loop of `build_record_batch`, from the length seen so far (-1: none). -/
def checkColumns : Int → List (String × Object) →
    Except Failure (Int × List (String × NdArray))
  | length, [] => .ok (length, [])
  | length, (name, arr) :: rest =>
    match arr with
    | .other => .error (.raised (utf8 "all columns must be numpy.ndarray instances"))
    | .ndarray arr => do
      requireCContiguous arr
      let length ←
        if length < 0 then .ok (arr.length : Int)
        else if length ≠ arr.length then
          .error (.raised (utf8 "all numpy columns must have the same length"))
        else .ok length
      let (length, columns) ← checkColumns length rest
      .ok (length, (name, arr) :: columns)

/-- The loop over `schema->children`. -/
def setChildren (N : Nanoarrow) : List (String × NdArray) → List ArrowSchema →
    Except Failure (List ArrowSchema)
  | [], children => .ok children
  | _ :: _, [] => .error .undefined
  | (name, arr) :: columns, child :: children => do
    let type ← mapNumericDtype arr.dtype
    let child ← orThrow (N.setType child type) "failed to set struct child type"
    let child ← orThrow (N.setName child (Soa.cStr name)) "failed to set struct child name"
    let children ← setChildren N columns children
    .ok (child :: children)

/-- The loop over `array->children`. -/
def attachColumns (N : Nanoarrow) (length : Int) : List (String × NdArray) → List ArrowArray →
    Except Failure (List ArrowArray)
  | [], children => .ok children
  | _ :: _, [] => .error .undefined
  | (_, arr) :: columns, child :: children => do
    let child ← attachNumpyColumn N arr child length
    let children ← attachColumns N length columns children
    .ok (child :: children)

/-- `build_record_batch`: the backing's schema and array. -/
def buildRecordBatch (N : Nanoarrow) (columns : List (String × Object)) :
    Except Failure (ArrowSchema × ArrowArray) :=
  if columns = [] then .error (.raised (utf8 "record_batch requires at least one column"))
  else do
    let (length, columns) ← checkColumns (-1) columns
    let schema ← orThrow (N.setTypeStruct columns.length) "failed to initialize struct schema"
    let children ← setChildren N columns schema.children
    let schema := { schema with children }
    let array ← orThrow (N.initFromSchema schema) "failed to initialize struct array"
    let children ← attachColumns N length columns (array.children.getD [])
    .ok (schema, { array with children := some children, length, nullCount := 0 })

/-- `backing_`, until it is exported. -/
structure NumpyRecordBatch where
  backing : Option (ArrowSchema × ArrowArray)

/-- The overload for a `std::map`: a dict whose keys all cast.  Its strings compare as their UTF-8
    bytes, hence as their code points. -/
def NumpyRecordBatch.ofMap (N : Nanoarrow) (columns : List (String × Object)) :
    Except Failure NumpyRecordBatch := do
  let backing ← buildRecordBatch N (SortedMap.ofEntries columns)
  .ok { backing := some backing }

/-- `nb::cast<std::string>(nb::str(item.first))`, with the value. -/
def castItem (B : Nanobind) (item : Key × Object) : Except Failure (String × Object) :=
  match B.castString (.str item.1.text) with
  | none => .error (.raised B.castError)
  | some name => .ok (name, item.2)

/-- The overload for an `nb::dict`. -/
def NumpyRecordBatch.ofDict (B : Nanobind) (N : Nanoarrow) (columns : List (Key × Object)) :
    Except Failure NumpyRecordBatch := do
  let ordered ← columns.mapM (castItem B)
  let backing ← buildRecordBatch N ordered
  .ok { backing := some backing }

/-- `RecordBatch(columns)`: the overloads in the order they are registered in. -/
def recordBatch (B : Nanobind) (N : Nanoarrow) (columns : List (Key × Object)) :
    Except Failure NumpyRecordBatch :=
  match columns.mapM fun item => (B.castString item.1).map fun name => (name, item.2) with
  | some columns => NumpyRecordBatch.ofMap N columns
  | none => NumpyRecordBatch.ofDict B N columns

/-- `arrow_c_array`. -/
def NumpyRecordBatch.arrowCArray (self : NumpyRecordBatch) :
    Except Failure ((ArrowSchema × ArrowArray) × NumpyRecordBatch) :=
  match self.backing with
  | none => .error (.raised (utf8 "NumpyRecordBatch was already exported"))
  | some exported => .ok (exported, { backing := none })

/-! ## What is exported -/

/-- An array the bridge lends: one-dimensional, C-contiguous, of an accepted dtype. -/
structure Lendable (rows : Nat) (arr : NdArray) : Prop where
  contiguous : arr.cContiguous = true
  shape : arr.shape = [rows]
  accepted : ∃ t, mapNumericDtype arr.dtype = .ok t

/-- The Arrow type of an accepted dtype. -/
def NdArray.type (arr : NdArray) : NanoarrowType :=
  match mapNumericDtype arr.dtype with
  | .ok t => t
  | .error _ => .bool

def columnSchema (column : String × NdArray) : ArrowSchema :=
  { schemaInit with format := some column.2.type.format, name := some (Soa.cStr column.1) }

def columnArray (rows : Nat) (arr : NdArray) : ArrowArray :=
  { arrayInit 2 none with
    length := rows, buffers := some [none, some (numpyColumnBytes arr)] }

def batchSchema (columns : List (String × NdArray)) : ArrowSchema :=
  { schemaInit with format := some "+s", children := columns.map columnSchema }

def batchArray (rows : Nat) (columns : List (String × NdArray)) : ArrowArray :=
  { arrayInit 1 (some (columns.map fun c => columnArray rows c.2)) with length := rows }

/-- The columns as Python passes them. -/
def objects {κ : Type} (columns : List (κ × NdArray)) : List (κ × Object) :=
  columns.map fun c => (c.1, .ndarray c.2)

section Built

variable {N : Nanoarrow} {rows : Nat} {columns : List (String × NdArray)}

theorem Lendable.type_eq {arr : NdArray} (h : Lendable rows arr) :
    mapNumericDtype arr.dtype = .ok arr.type := by
  obtain ⟨t, ht⟩ := h.accepted
  unfold NdArray.type
  rw [ht]

theorem Lendable.length_eq {arr : NdArray} (h : Lendable rows arr) : arr.length = rows := by
  unfold NdArray.length
  rw [h.shape]
  rfl

theorem Lendable.require {arr : NdArray} (h : Lendable rows arr) :
    requireCContiguous arr = .ok () := by
  unfold requireCContiguous
  rw [if_neg (by simp [h.contiguous]), if_neg (by simp [h.shape])]

theorem Lendable.bytes_eq {arr : NdArray} (h : Lendable rows arr) :
    numpyColumnBytes arr = arr.memory := by
  unfold numpyColumnBytes
  apply List.take_of_length_le
  rw [h.length_eq, arr.size h.contiguous, h.shape]
  simp

theorem checkColumns_lendable (h : ∀ c ∈ columns, Lendable rows c.2) :
    checkColumns rows (objects columns) = .ok ((rows : Int), columns) := by
  induction columns with
  | nil => rfl
  | cons c rest ih =>
    have hc := h c List.mem_cons_self
    have hrest := ih fun c hc => h c (List.mem_cons_of_mem _ hc)
    change (requireCContiguous c.2 >>= _) = _
    rw [hc.require, hc.length_eq, ok_bind, if_neg (by omega), if_neg (by simp), ok_bind]
    change (checkColumns rows (objects rest) >>= _) = _
    rw [hrest]
    rfl

theorem checkColumns_first (hne : columns ≠ []) (h : ∀ c ∈ columns, Lendable rows c.2) :
    checkColumns (-1) (objects columns) = .ok ((rows : Int), columns) := by
  cases columns with
  | nil => exact absurd rfl hne
  | cons c rest =>
    have hc := h c List.mem_cons_self
    have hrest := checkColumns_lendable fun c hc => h c (List.mem_cons_of_mem _ hc)
    change (requireCContiguous c.2 >>= _) = _
    rw [hc.require, hc.length_eq, ok_bind, if_pos (by omega), ok_bind]
    change (checkColumns rows (objects rest) >>= _) = _
    rw [hrest]
    rfl

theorem setChildren_documented (hN : N.Documented) (h : ∀ c ∈ columns, Lendable rows c.2) :
    setChildren N columns (List.replicate columns.length schemaInit) =
      .ok (columns.map columnSchema) := by
  induction columns with
  | nil => rfl
  | cons c rest ih =>
    have hc := h c List.mem_cons_self
    have hrest := ih fun c hc => h c (List.mem_cons_of_mem _ hc)
    rw [List.length_cons, List.replicate_succ, setChildren, hc.type_eq, ok_bind, hN.setType]
    change (orThrow (N.setName _ _) _ >>= _) = _
    rw [hN.setName]
    change (setChildren N rest _ >>= _) = _
    rw [hrest]
    rfl

theorem attachColumns_documented (hN : N.Documented) (h : ∀ c ∈ columns, Lendable rows c.2) :
    attachColumns N rows columns (List.replicate columns.length (arrayInit 2 none)) =
      .ok (columns.map fun c => columnArray rows c.2) := by
  induction columns with
  | nil => rfl
  | cons c rest ih =>
    have hc := h c List.mem_cons_self
    have hrest := ih fun c hc => h c (List.mem_cons_of_mem _ hc)
    rw [List.length_cons, List.replicate_succ, attachColumns, attachNumpyColumn, hc.type_eq,
      ok_bind, hN.setBuffer _ _ _ (by decide)]
    change (attachColumns N rows rest _ >>= _) = _
    rw [hrest]
    rfl

/-- **The batch that is built.** -/
theorem buildRecordBatch_eq (hN : N.Documented) (hne : columns ≠ [])
    (h : ∀ c ∈ columns, Lendable rows c.2) :
    buildRecordBatch N (objects columns) = .ok (batchSchema columns, batchArray rows columns) := by
  have hne' : objects columns ≠ [] := by simpa [objects] using hne
  have hprim : ∀ c ∈ columns.map columnSchema, Primitive c := by
    intro c hc
    obtain ⟨column, _, rfl⟩ := List.mem_map.mp hc
    exact ⟨⟨_, rfl⟩, rfl, rfl⟩
  have hinit := hN.initFromSchema (batchSchema columns) rfl hprim
  have hattach := attachColumns_documented hN h
  unfold buildRecordBatch
  rw [if_neg hne', checkColumns_first hne h, ok_bind]
  dsimp only
  rw [hN.setTypeStruct, orThrow, ok_bind]
  dsimp only
  rw [setChildren_documented hN h, ok_bind]
  change (orThrow (N.initFromSchema (batchSchema columns)) _ >>= _) = _
  rw [hinit]
  change (attachColumns N rows columns (List.replicate (columns.map columnSchema).length _) >>= _) = _
  rw [List.length_map, hattach]
  simp [ok_bind, batchSchema, batchArray, arrayInit]

end Built

end N2P.Numpy
