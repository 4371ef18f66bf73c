import N2P.NumpyBridge

/-!
# The columns of a lent batch

What the batch that `build_record_batch` makes denotes under the Arrow format, and when that is
what the arrays hold.

* `rows_batchArray` — the rows of the batch, element by element.
* `NdArray.Survives`, `Lendable.survives_iff` — when an array is lent as it is: no mask, booleans
  whose bytes and bits agree, and bytes in the host's order.
-/

namespace N2P.Numpy

open Columnar Python

/-! ## What it denotes -/

/-- The type that the format string names. -/
def NanoarrowType.arrow : NanoarrowType → ArrowType
  | .bool => .bool
  | .int8 => .int true 1
  | .int16 => .int true 2
  | .int32 => .int true 4
  | .int64 => .int true 8
  | .uint8 => .int false 1
  | .uint16 => .int false 2
  | .uint32 => .int false 4
  | .uint64 => .int false 8
  | .float => .float 4
  | .double => .float 8

/-- The fields of a struct of columns. -/
def fieldsOf : List (String × NdArray) → Members
  | [] => .nil
  | c :: cs => .cons (Soa.cStr c.1) true (.leaf c.2.type.arrow) (fieldsOf cs)

/-- Their names, as code points. -/
def fieldNames : Members → List PyStr
  | .nil => []
  | .cons name _ _ rest => name.toList.map Char.toNat :: fieldNames rest

/-- The cells of a struct's row. -/
def cellsOf : List Cell → Cells
  | [] => .nil
  | c :: cs => .cons c (cellsOf cs)

/-- Element `i` of the memory an array lends, at the Arrow type it is lent at. -/
def NdArray.lent (arr : NdArray) (i : Nat) : Scalar :=
  let e := ByteSeq.element arr.dtype.itemsize arr.memory i
  match arr.dtype.kind with
  | 'b' => .bool ((ByteSeq.getBit arr.memory i).getD false)
  | 'i' => .int (signedLE e)
  | 'u' => .int (ByteSeq.ofLE e)
  | _ => .float (ByteSeq.ofLE e)

section Denoted

variable {rows : Nat} {columns : List (String × NdArray)} {arr : NdArray}

theorem ofFormat_format (t : NanoarrowType) : ArrowType.ofFormat t.format = some t.arrow := by
  cases t <;> rfl

theorem membersOf_columns : membersOf (columns.map columnSchema) = some (fieldsOf columns) := by
  induction columns with
  | nil => rfl
  | cons c rest ih =>
    have hschema : columnSchema c = .leaf c.2.type.format (Soa.cStr c.1) true := rfl
    have hleaf : shapeOf (columnSchema c) = some (.leaf c.2.type.arrow) := by
      rw [hschema, shapeOf_leaf (ofFormat_format c.2.type)]
    have hflag : ((columnSchema c).flags &&& ARROW_FLAG_NULLABLE != 0) = true := by
      show (ARROW_FLAG_NULLABLE &&& ARROW_FLAG_NULLABLE != 0) = true
      decide
    rw [List.map_cons, membersOf, hleaf, ih, hflag]
    rfl

theorem shapeOf_batchSchema : shapeOf (batchSchema columns) = some (.struct (fieldsOf columns)) := by
  rw [batchSchema, schemaInit, shapeOf, if_pos rfl, membersOf_columns]
  rfl

/-- An accepted dtype is a boolean, or lent at its own kind and width. -/
theorem Lendable.kind_cases (h : Lendable rows arr) :
    arr.dtype.kind = 'b' ∧ arr.type = .bool ∨
      arr.dtype.kind = 'i' ∧ arr.type.arrow = .int true arr.dtype.itemsize ∨
      arr.dtype.kind = 'u' ∧ arr.type.arrow = .int false arr.dtype.itemsize ∨
      arr.dtype.kind = 'f' ∧ arr.type.arrow = .float arr.dtype.itemsize := by
  have ht := h.type_eq
  generalize arr.type = t at ht ⊢
  unfold mapNumericDtype at ht
  split at ht
  all_goals cases ht
  all_goals simp_all [NanoarrowType.arrow]

theorem Lendable.memory_length (h : Lendable rows arr) :
    arr.memory.length = rows * arr.dtype.itemsize := by
  rw [arr.size h.contiguous, h.shape]
  simp

theorem Lendable.scalarAt {i : Nat} (h : Lendable rows arr) (hi : i < rows) :
    scalarAt arr.type.arrow (columnArray rows arr) i = .ok (arr.lent i) := by
  have hdata : (columnArray rows arr).data 1 = .ok arr.memory := by
    rw [← h.bytes_eq]
    rfl
  have hin : (i + 1) * arr.dtype.itemsize ≤ arr.memory.length := by
    rw [h.memory_length]
    exact Nat.mul_le_mul_right _ hi
  have helem : readElem arr.dtype.itemsize arr.memory i =
      .ok (ByteSeq.element arr.dtype.itemsize arr.memory i) := by
    unfold readElem
    rw [if_pos hin]
    rfl
  unfold Columnar.scalarAt NdArray.lent
  rw [hdata]
  rcases h.kind_cases with ⟨hk, ht⟩ | ⟨hk, ht⟩ | ⟨hk, ht⟩ | ⟨hk, ht⟩
  · -- a bitmap of the first bytes
    have hbit : (ByteSeq.getBit arr.memory i).isSome := by
      rw [ByteSeq.getBit_isSome, h.memory_length, arr.dtype.boolSize hk]
      omega
    obtain ⟨b, hb⟩ := Option.isSome_iff_exists.mp hbit
    rw [ht, hk]
    show (readBit arr.memory i).map Scalar.bool = _
    unfold readBit
    rw [hb]
    rfl
  · rw [ht, hk]
    show (readElem _ _ i).map _ = _
    rw [helem]
    rfl
  · rw [ht, hk]
    show (readElem _ _ i).map _ = _
    rw [helem]
    rfl
  · rw [ht, hk]
    show (readElem _ _ i).map _ = _
    rw [helem]
    rfl

theorem Lendable.cellAt {i : Nat} (h : Lendable rows arr) (hi : i < rows) :
    cellAt (.leaf arr.type.arrow) (columnArray rows arr) i = .ok (.scalar (arr.lent i)) := by
  have hbuffer : (columnArray rows arr).buffer 0 = .ok none := rfl
  have hvalid : validBit none i = .ok true := rfl
  rw [cellAt_leaf rfl rfl hi hbuffer hvalid, if_pos rfl, h.scalarAt hi]
  rfl

theorem cellsAt_columns {i : Nat} (h : ∀ c ∈ columns, Lendable rows c.2) (hi : i < rows) :
    cellsAt (fieldsOf columns) (columns.map fun c => columnArray rows c.2) i =
      .ok (cellsOf (columns.map fun c => .scalar (c.2.lent i))) := by
  induction columns with
  | nil => rfl
  | cons c rest ih =>
    have hc := h c List.mem_cons_self
    have hrest := ih fun c hc => h c (List.mem_cons_of_mem _ hc)
    rw [List.map_cons, fieldsOf, cellsAt, hc.cellAt hi]
    show (cellsAt _ _ i).map _ = _
    rw [hrest]
    rfl

/-- **The rows of the batch** are the lent elements. -/
theorem rows_batchArray (h : ∀ c ∈ columns, Lendable rows c.2) :
    Columnar.rows (.struct (fieldsOf columns)) (batchArray rows columns) =
      .ok ((List.range rows).map fun i =>
        .struct (cellsOf (columns.map fun c => .scalar (c.2.lent i)))) := by
  refine rows_eq_map rfl fun i hi => ?_
  have hbuffer : (batchArray rows columns).buffer 0 = .ok none := rfl
  have hvalid : validBit none i = .ok true := rfl
  rw [cellAt_struct rfl rfl hi hbuffer hvalid rfl, if_pos rfl, cellsAt_columns h hi]
  rfl

end Denoted

/-! ## Which elements survive -/

/-- No element is hidden by a mask; a boolean column's bytes, taken as bits, spell the same truth
    values; and big-endian elements read the same backwards. -/
structure NdArray.Survives (arr : NdArray) (rows : Nat) : Prop where
  unmasked : ∀ i < rows, arr.mask.getD i false = false
  packed : arr.dtype.kind = 'b' → ∀ i < rows,
    ByteSeq.getBit arr.memory i = some (decide (arr.memory.getD i 0 ≠ 0))
  order : arr.dtype.kind ≠ 'b' → arr.dtype.bigEndian = true → ∀ i < rows,
    (ByteSeq.element arr.dtype.itemsize arr.memory i).reverse =
      ByteSeq.element arr.dtype.itemsize arr.memory i

section Survival

variable {rows : Nat} {arr : NdArray}

theorem signedLE_injective {xs ys : Bytes} (hlen : xs.length = ys.length)
    (h : signedLE xs = signedLE ys) : xs = ys := by
  have residue : ∀ zs : Bytes, signedLE zs % (256 ^ zs.length : Nat) = ByteSeq.ofLE zs := by
    intro zs
    unfold signedLE
    have hmod := Int.bmod_emod (x := (ByteSeq.ofLE zs : Int)) (m := 256 ^ zs.length)
    rw [hmod]
    exact_mod_cast Nat.mod_eq_of_lt (ByteSeq.ofLE_lt zs)
  have hx := residue xs
  have hy := residue ys
  rw [h, hlen, hy] at hx
  exact ByteSeq.ofLE_injective hlen (by exact_mod_cast hx.symm)

/-- A boolean is read as a bit and was a byte. -/
theorem Lendable.lent_eq_value_bool (h : Lendable rows arr) (hk : arr.dtype.kind = 'b') {i : Nat}
    (hi : i < rows) : arr.lent i = arr.value i ↔
      ByteSeq.getBit arr.memory i = some (decide (arr.memory.getD i 0 ≠ 0)) := by
  have hsize := arr.dtype.boolSize hk
  have hlen : i < arr.memory.length := by
    rw [h.memory_length, hsize]
    omega
  have hbit : (ByteSeq.getBit arr.memory i).isSome := by
    rw [ByteSeq.getBit_isSome]
    omega
  obtain ⟨b, hb⟩ := Option.isSome_iff_exists.mp hbit
  have helem : ByteSeq.element 1 arr.memory i = [arr.memory.getD i 0] := by
    unfold ByteSeq.element
    rw [Nat.mul_one, List.drop_eq_getElem_cons hlen, List.take_succ_cons, List.take_zero,
      List.getD_eq_getElem _ _ hlen]
  have hvalue : arr.value i = .bool (decide (arr.memory.getD i 0 ≠ 0)) := by
    unfold NdArray.value
    rw [hk, hsize, helem]
    simp
  unfold NdArray.lent
  rw [hk, hvalue, hb]
  simp

/-- Another element is read in the host's byte order. -/
theorem Lendable.lent_eq_value (h : Lendable rows arr) (hk : arr.dtype.kind ≠ 'b') (i : Nat) :
    arr.lent i = arr.value i ↔
      (arr.dtype.bigEndian = true →
        (ByteSeq.element arr.dtype.itemsize arr.memory i).reverse =
          ByteSeq.element arr.dtype.itemsize arr.memory i) := by
  unfold NdArray.lent NdArray.value
  generalize ByteSeq.element arr.dtype.itemsize arr.memory i = e
  have hrev : e.length = e.reverse.length := by simp
  rcases h.kind_cases with ⟨hb, _⟩ | ⟨hk, _⟩ | ⟨hk, _⟩ | ⟨hk, _⟩
  · exact absurd hb hk
  · rw [hk]
    show Scalar.int _ = Scalar.int _ ↔ _
    cases arr.dtype.bigEndian with
    | false => simp
    | true =>
      simp only [if_true, Scalar.int.injEq, forall_const]
      exact ⟨fun heq => (signedLE_injective hrev heq).symm, fun heq => by rw [heq]⟩
  · rw [hk]
    show Scalar.int _ = Scalar.int _ ↔ _
    cases arr.dtype.bigEndian with
    | false => simp
    | true =>
      simp only [if_true, Scalar.int.injEq, Nat.cast_inj, forall_const]
      exact ⟨fun heq => (ByteSeq.ofLE_injective hrev heq).symm, fun heq => by rw [heq]⟩
  · rw [hk]
    show Scalar.float _ = Scalar.float _ ↔ _
    cases arr.dtype.bigEndian with
    | false => simp
    | true =>
      simp only [if_true, Scalar.float.injEq, forall_const]
      exact ⟨fun heq => (ByteSeq.ofLE_injective hrev heq).symm, fun heq => by rw [heq]⟩

/-- **The lent elements are the array's** exactly when they survive. -/
theorem Lendable.survives_iff (h : Lendable rows arr) :
    (∀ i < rows, Cell.scalar (arr.lent i) = arr.element i) ↔ arr.Survives rows := by
  have each : ∀ i, Cell.scalar (arr.lent i) = arr.element i ↔
      arr.mask.getD i false = false ∧ arr.lent i = arr.value i := by
    intro i
    unfold NdArray.element
    cases arr.mask.getD i false with
    | false => simp
    | true => simp
  constructor
  · intro hall
    refine ⟨fun i hi => ((each i).mp (hall i hi)).1, fun hk i hi => ?_, fun hk hbig i hi => ?_⟩
    · exact (h.lent_eq_value_bool hk hi).mp ((each i).mp (hall i hi)).2
    · exact (h.lent_eq_value hk i).mp ((each i).mp (hall i hi)).2 hbig
  · intro hs i hi
    refine (each i).mpr ⟨hs.unmasked i hi, ?_⟩
    by_cases hk : arr.dtype.kind = 'b'
    · exact (h.lent_eq_value_bool hk hi).mpr (hs.packed hk i hi)
    · exact (h.lent_eq_value hk i).mpr fun hbig => hs.order hk hbig i hi

end Survival

end N2P.Numpy
