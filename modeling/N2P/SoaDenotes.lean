import N2P.Columnar
import N2P.SoaBuffers
import N2P.Reference

/-!
# A chunk denotes the rows it was given

The columns a caller passes, taken as rows, against the Arrow tree built from them.

* `Field.shape`, `Column.cell` — the type a field declares, and row `i` of the argument for it:
  what the caller means, without a buffer.
* `Regular` — every range and mask has `n` entries, every bitmap covers them with its exact null
  count, and the offsets of a string column can hold its present bytes.
* `buildNode_denotes` — each node built from regular columns denotes the column's rows, exactly.
* `writeChunk_denotes` — so does the tree built from a chunk, which is what the writer is handed.
-/

namespace N2P.Soa

open Columnar

/-! ## What a caller means -/

def ElementType.arrow : ElementType → ArrowType
  | .int8 => .int true 1
  | .uint8 => .int false 1
  | .int16 => .int true 2
  | .uint16 => .int false 2
  | .int32 => .int true 4
  | .uint32 => .int false 4
  | .int64 => .int true 8
  | .uint64 => .int false 8
  | .float => .float 4
  | .double => .float 8
  | .array n => .fixedSizeBinary n

def StringType.arrow : StringType → ArrowType
  | .utf8 => .binary true 4
  | .binary => .binary false 4
  | .largeUtf8 => .binary true 8
  | .largeBinary => .binary false 8

def FieldType.arrow : FieldType → ArrowType
  | .element t => t.arrow
  | .string t => t.arrow
  | .bool => .bool

mutual

/-- The type a field declares. -/
def Field.shape : Field → Shape
  | .leaf _ t _ => .leaf t.arrow
  | .group _ _ children => .struct children.members

def Fields.members : Fields → Members
  | .last f => .cons (cStr f.name) f.nullable f.shape .nil
  | .cons f rest => .cons (cStr f.name) f.nullable f.shape rest.members

end

/-- The value of an object. -/
def ElementType.scalar : (t : ElementType) → t.Value → Scalar
  | .int8, v => .int v.toInt
  | .uint8, v => .int v.toNat
  | .int16, v => .int v.toInt
  | .uint16, v => .int v.toNat
  | .int32, v => .int v.toInt
  | .uint32, v => .int v.toNat
  | .int64, v => .int v.toInt
  | .uint64, v => .int v.toNat
  | .float, v => .float v.toNat
  | .double, v => .float v.toNat
  | .array _, v => .bytes v.toList

def FieldType.scalar : (t : FieldType) → t.Value → Scalar
  | .element t, v => t.scalar v
  | .string _, v => .bytes v
  | .bool, v => .bool v

/-- Whether a mask or a bitmap says that row `i` is there. -/
def Presence.at (p : Presence) (i : Nat) : Bool :=
  match p with
  | .mask m => m.getD i false
  | .bits none _ => true
  | .bits (some bm) _ => ByteSeq.getBit bm i == some true

/-- Value `i` of a range. -/
def valueCell (t : FieldType) (vs : List t.Value) (i : Nat) : Cell :=
  (vs[i]?.map fun v => Cell.scalar (t.scalar v)).getD .null

mutual

/-- Row `i` of a field's argument. -/
def Column.cell : {f : Field} → Column f → Nat → Cell
  | .leaf _ t _, .values vs, i => valueCell t vs i
  | .leaf _ t _, .nullable vs p, i => if p.at i then valueCell t vs i else .null
  | .group _ _ _, .group children, i => .struct (children.cells i)
  | .group _ _ _, .nullableGroup p children, i =>
    if p.at i then .struct (children.cells i) else .null

def Columns.cells : {fs : Fields} → Columns fs → Nat → Cells
  | _, .last c, i => .cons (c.cell i) .nil
  | _, .cons c rest, i => .cons (c.cell i) (rest.cells i)

end

/-! ## Regular columns -/

/-- A mask of `n` entries, or a bitmap over `n` bits with its null count. -/
def Presence.Regular (n : Nat) : Presence → Prop
  | .mask m => m.length = n
  | .bits bitmap nullCount =>
    (∀ bm, bitmap = some bm → n ≤ 8 * bm.length) ∧ nullCount = clearedBits bitmap n

/-- The bytes of the values that are there. -/
def presentBytes (vs : List Bytes) (at_ : Nat → Bool) : Nat :=
  (vs.mapIdx fun i e => if at_ i then e.length else 0).sum

/-- `n` values.  The present bytes of a string column stay below 2^31 at 32-bit offsets, and at
    64-bit offsets below the 2^63 that no `std::vector` reaches. -/
def LeafRegular (n : Nat) : (t : FieldType) → List t.Value → (Nat → Bool) → Prop
  | .element _, vs, _ => vs.length = n
  | .bool, vs, _ => vs.length = n
  | .string t, vs, at_ => vs.length = n ∧ presentBytes vs at_ < 2 ^ (8 * t.offsetWidth - 1)

mutual

/-- Every range and mask below a field's argument is regular. -/
def Column.Regular (n : Nat) : {f : Field} → Column f → Prop
  | .leaf _ t _, .values vs => LeafRegular n t vs fun _ => true
  | .leaf _ t _, .nullable vs p => LeafRegular n t vs p.at ∧ p.Regular n
  | .group _ _ _, .group children => children.Regular n
  | .group _ _ _, .nullableGroup p children => p.Regular n ∧ children.Regular n

def Columns.Regular (n : Nat) : {fs : Fields} → Columns fs → Prop
  | _, .last c => c.Regular n
  | _, .cons c rest => c.Regular n ∧ rest.Regular n

end

/-! ## Formats -/

theorem makeDigits_toDigits (n : Nat) (out : List Char) :
    makeDigits (digits n) n out = Nat.toDigits 10 n ++ out := by
  induction n using Nat.strongRecOn generalizing out with
  | _ n ih =>
    have hdigit : ∀ d < 10, Char.ofNat ('0'.toNat + d) = Nat.digitChar d := by decide
    rw [digits]
    split
    · rename_i hn
      rw [makeDigits, ih (n / 10) (by omega), hdigit _ (Nat.mod_lt n (by decide)),
        Nat.toDigits_of_base_le (by decide) hn]
      simp
    · rename_i hn
      rw [makeDigits, makeDigits, Nat.mod_eq_of_lt (by omega), hdigit n (by omega),
        Nat.toDigits_of_lt_base (by omega)]
      rfl

/-- A width is read back from its format. -/
theorem ofFormat_fixedSizeBinary (n : Nat) :
    ArrowType.ofFormat (fixedSizeBinaryFormat n) = some (.fixedSizeBinary n) := by
  have hdigits : (Nat.toDigits 10 n).all Char.isDigit = true := by
    rw [List.all_eq_true]
    intro c hc
    exact Nat.isDigit_of_mem_toDigits (by decide) (by decide) hc
  unfold fixedSizeBinaryFormat
  rw [makeDigits_toDigits, List.append_nil]
  simp [ArrowType.ofFormat, hdigits]

theorem ofFormat_element (t : ElementType) : ArrowType.ofFormat t.format = some t.arrow := by
  cases t with
  | array n => exact ofFormat_fixedSizeBinary n
  | _ => decide

/-- A leaf's format names its type. -/
theorem ofFormat_leaf (t : FieldType) (vs : List t.Value) (v : Validity) (n : Nat) :
    ArrowType.ofFormat (leafBuffers t vs v n).format = some t.arrow := by
  cases t with
  | element t => exact ofFormat_element t
  | string t =>
    have hstring : ∀ t : StringType, ArrowType.ofFormat t.format = some t.arrow := by
      intro t
      cases t <;> decide
    exact hstring t
  | bool =>
    have hbool : ArrowType.ofFormat "b" = some .bool := by decide
    exact hbool

/-! ## Validity -/

/-- A validity pointer and null count that say of each of `n` rows whether it is there. -/
structure Validity.Denotes (v : Validity) (n : Nat) (there : Nat → Bool) : Prop where
  bit : ∀ i < n, validBit v.pointer i = .ok (there i)
  nullCount : v.nullCount = clearedBits v.pointer n

/-- No bitmap, no nulls. -/
theorem denotes_required (n : Nat) : (validBits none 0).Denotes n fun _ => true :=
  ⟨fun _ _ => rfl, rfl⟩

theorem denotes_bits {bitmap : Option Bytes} {nullCount : Int} {n : Nat}
    (h : (Presence.bits bitmap nullCount).Regular n) :
    (validBits bitmap nullCount).Denotes n (Presence.bits bitmap nullCount).at := by
  refine ⟨fun i hi => ?_, h.2⟩
  cases bitmap with
  | none => rfl
  | some bm =>
    have hlen := h.1 bm rfl
    obtain ⟨b, hb⟩ := Option.isSome_iff_exists.mp
      (ByteSeq.getBit_isSome.mpr (by omega : i / 8 < bm.length))
    show readBit bm i = .ok (ByteSeq.getBit bm i == some true)
    unfold readBit
    rw [hb]
    cases b <;> rfl

/-- The entries of a mask, by row. -/
theorem countP_clear (m : List Bool) :
    (List.range m.length).countP (fun i => !m.getD i false) = m.count false := by
  have hm : m = (List.range m.length).map fun i => m.getD i false := by
    apply List.ext_getElem
    · simp
    · intro i h _
      simp [List.getD_eq_getElem?_getD, List.getElem?_eq_getElem h]
  calc (List.range m.length).countP (fun i => !m.getD i false)
      = ((List.range m.length).map fun i => m.getD i false).countP (!·) := by
        rw [List.countP_map]
        rfl
    _ = m.countP (!·) := by rw [← hm]
    _ = m.count false := by
        unfold List.count
        congr 1
        funext b
        cases b <;> rfl

/-- A packed mask says what the mask says; of an empty one nothing is left but a null pointer. -/
theorem denotes_packMask (m : List Bool) :
    Validity.Denotes ⟨(packMask m.length m).bits, none, (packMask m.length m).nulls⟩ m.length
      fun i => m.getD i false := by
  obtain ⟨hlen, hbits, hnulls, _⟩ := packMask_spec m.length m
  generalize packMask m.length m = b at *
  have hpointer : Validity.pointer ⟨b.bits, none, b.nulls⟩ =
      if m = [] then none else some b.bits := by
    have hempty : b.bits = [] ↔ m = [] := by
      rw [← List.length_eq_zero_iff, ← List.length_eq_zero_iff, hlen]
      omega
    show (if b.bits.isEmpty then none else some b.bits) = _
    simp only [List.isEmpty_iff, hempty]
  have hget : ∀ i < m.length, ByteSeq.getBit b.bits i = some (m.getD i false) := by
    intro i hi
    apply hbits
    omega
  constructor
  · intro i hi
    have hne : m ≠ [] := List.ne_nil_of_length_pos (by omega)
    rw [hpointer, if_neg hne]
    show readBit b.bits i = _
    unfold readBit
    rw [hget i hi]
  · rw [hpointer]
    show b.nulls = _
    rw [hnulls, ← countP_clear m]
    by_cases hm : m = []
    · rw [if_pos hm, hm]
      rfl
    · rw [if_neg hm]
      congr 1
      apply List.countP_congr
      intro i hi
      rw [hget i (List.mem_range.mp hi)]
      cases m.getD i false <;> simp

/-- The wrapper around a range of `n` values. -/
theorem denotes_column {p : Presence} {n : Nat} (h : p.Regular n) : (p.column n).Denotes n p.at := by
  cases p with
  | mask m =>
    have hn : m.length = n := h
    subst hn
    show Validity.Denotes (present m.length m) m.length _
    unfold present
    rw [List.take_length]
    exact denotes_packMask m
  | bits bitmap nullCount => exact denotes_bits h

/-- The wrapper around a group, whose row count is also right. -/
theorem denotes_group {p : Presence} {n : Nat} (h : p.Regular n) :
    p.group.toValidity.Denotes n p.at ∧ (p.group.rows = unknownRows ∨ p.group.rows = n) := by
  cases p with
  | mask m =>
    have hn : m.length = n := h
    subst hn
    exact ⟨denotes_packMask m, .inr rfl⟩
  | bits bitmap nullCount => exact ⟨denotes_bits h, .inl rfl⟩

/-- What `present_at` says of each of `n` rows. -/
def Validity.Agrees (v : Validity) (n : Nat) (there : Nat → Bool) : Prop :=
  ∀ i < n, v.presentAt i = there i

/-- `present_at` reads the same bit. -/
theorem Validity.Denotes.agrees {v : Validity} {n : Nat} {there : Nat → Bool}
    (h : v.Denotes n there) : v.Agrees n there := by
  intro i hi
  have hbit := h.bit i hi
  unfold Validity.presentAt
  cases hp : v.pointer with
  | none =>
    rw [hp] at hbit
    exact Except.ok.inj hbit
  | some bm =>
    rw [hp] at hbit
    change readBit bm i = _ at hbit
    unfold readBit at hbit
    cases hg : ByteSeq.getBit bm i with
    | none =>
      rw [hg] at hbit
      cases hbit
    | some b =>
      rw [hg] at hbit
      show (ByteSeq.getBit bm i).getD false = _
      rw [hg]
      exact Except.ok.inj hbit

/-! ## Elements -/

theorem ofLE_toLE_bitVec {w : Nat} (b : BitVec (8 * w)) :
    ByteSeq.ofLE (ByteSeq.toLE w b.toNat) = b.toNat := by
  have hpow : 256 ^ w = 2 ^ (8 * w) := by rw [Nat.pow_mul]
  rw [ByteSeq.ofLE_toLE, hpow]
  exact Nat.mod_eq_of_lt b.isLt

theorem signedLE_toLE_bitVec {w : Nat} (b : BitVec (8 * w)) :
    signedLE (ByteSeq.toLE w b.toNat) = b.toInt := by
  have hpow : ((256 : Int) ^ w) = ((2 ^ (8 * w) : Nat) : Int) := by
    rw [Nat.pow_mul]
    push_cast
    rfl
  unfold signedLE
  rw [ofLE_toLE_bitVec, ByteSeq.length_toLE, BitVec.toInt_eq_toNat_bmod]
  congr 1
  rw [Nat.pow_mul]

/-- An element of a range of objects of one size. -/
theorem readElem_objects {α : Type} {vs : List α} {v : α} {i w : Nat} {object : α → Bytes}
    (hw : ∀ u, (object u).length = w) (h : vs[i]? = some v) :
    readElem w (vs.flatMap object) i = .ok (object v) := by
  have hall : ∀ o ∈ vs.map object, o.length = w := by
    intro o ho
    obtain ⟨u, _, rfl⟩ := List.mem_map.mp ho
    exact hw u
  obtain ⟨hi, _⟩ := List.getElem?_eq_some_iff.mp h
  have hlen : (vs.flatMap object).length = vs.length * w := by
    rw [List.flatMap_def, ByteSeq.length_flatten hall, List.length_map]
  have hin : (i + 1) * w ≤ (vs.flatMap object).length := by
    rw [hlen]
    exact Nat.mul_le_mul_right w hi
  have hget : (vs.map object)[i]? = some (object v) := by
    rw [List.getElem?_map, h]
    rfl
  unfold readElem
  rw [if_pos hin]
  exact congrArg Except.ok (ByteSeq.element_flatten hall hget)

/-- A number is read back from its object at its width and kind. -/
theorem scalarAt_number {α : Type} (w : Nat) {vs : List α} {v : α} {i : Nat} {a : ArrowArray}
    (bits : α → BitVec (8 * w))
    (ha : a.data 1 = .ok (vs.flatMap fun u => ByteSeq.toLE w (bits u).toNat))
    (h : vs[i]? = some v) :
    scalarAt (.int true w) a i = .ok (.int (bits v).toInt) ∧
      scalarAt (.int false w) a i = .ok (.int (bits v).toNat) ∧
      scalarAt (.float w) a i = .ok (.float (bits v).toNat) := by
  have helem := readElem_objects (fun u => ByteSeq.length_toLE w (bits u).toNat) h
  unfold scalarAt
  rw [ha]
  refine ⟨?_, ?_, ?_⟩
  · show (readElem w _ i).map _ = _
    rw [helem]
    exact congrArg (fun k => Except.ok (Scalar.int k)) (signedLE_toLE_bitVec (bits v))
  · show (readElem w _ i).map _ = _
    rw [helem]
    exact congrArg (fun k : Nat => Except.ok (Scalar.int k)) (ofLE_toLE_bitVec (bits v))
  · show (readElem w _ i).map _ = _
    rw [helem]
    exact congrArg (fun k => Except.ok (Scalar.float k)) (ofLE_toLE_bitVec (bits v))

/-- **An object is read back at its type.** -/
theorem scalarAt_element (t : ElementType) {vs : List t.Value} {v : t.Value} {i : Nat}
    {a : ArrowArray} (ha : a.data 1 = .ok (vs.flatMap t.object)) (h : vs[i]? = some v) :
    scalarAt t.arrow a i = .ok (t.scalar v) := by
  cases t with
  | int8 => exact (scalarAt_number 1 Int8.toBitVec ha h).1
  | uint8 => exact (scalarAt_number 1 UInt8.toBitVec ha h).2.1
  | int16 => exact (scalarAt_number 2 Int16.toBitVec ha h).1
  | uint16 => exact (scalarAt_number 2 UInt16.toBitVec ha h).2.1
  | int32 => exact (scalarAt_number 4 Int32.toBitVec ha h).1
  | uint32 => exact (scalarAt_number 4 UInt32.toBitVec ha h).2.1
  | int64 => exact (scalarAt_number 8 Int64.toBitVec ha h).1
  | uint64 => exact (scalarAt_number 8 UInt64.toBitVec ha h).2.1
  | float => exact (scalarAt_number 4 id ha h).2.2
  | double => exact (scalarAt_number 8 id ha h).2.2
  | array n =>
    show scalarAt (.fixedSizeBinary n) a i = .ok (.bytes v.toList)
    unfold scalarAt
    rw [ha]
    show (readElem n _ i).map _ = _
    by_cases hn : n = 0
    · -- an element of width 0 is read as no bytes, whatever its object holds
      subst hn
      have hv : v.toList = [] := List.eq_nil_of_length_eq_zero (by simp)
      rw [hv]
      unfold readElem
      rw [if_pos (by omega), List.take_zero]
      rfl
    · have hobject : ∀ u : Vector UInt8 n, (ElementType.array n).object u = u.toList := by
        intro u
        show (if n = 0 then [0] else u.toList) = _
        rw [if_neg hn]
      rw [readElem_objects (fun u => by rw [hobject u]; simp) h, hobject v]
      rfl

/-! ## Strings -/

theorem arrow_string (t : StringType) : ∃ text, t.arrow = .binary text t.offsetWidth := by
  cases t
  · exact ⟨true, rfl⟩
  · exact ⟨false, rfl⟩
  · exact ⟨true, rfl⟩
  · exact ⟨false, rfl⟩

/-- An offset within the width is read back. -/
theorem readOffset_packed {w k : Nat} {offs : List Int} {o : Int} (h : offs[k]? = some o)
    (hlo : -(256 ^ w : Int) ≤ 2 * o) (hhi : 2 * o < (256 ^ w : Int)) :
    readOffset w (packed w offs) k = .ok o := by
  have helem : readElem w (packed w offs) k = .ok (plainBytes w o) :=
    readElem_objects (fun _ => ByteSeq.length_toLE _ _) h
  unfold readOffset
  rw [helem]
  exact congrArg Except.ok (signedLE_plainBytes hlo hhi)

theorem offsetAt_le (v : Validity) (vs : List Bytes) (k : Nat) :
    v.offsetAt vs k ≤ (v.kept vs).flatten.length := by
  have hsplit : (v.kept vs).flatten =
      ((v.kept vs).take k).flatten ++ ((v.kept vs).drop k).flatten := by
    rw [← List.flatten_append, List.take_append_drop]
  unfold Validity.offsetAt
  rw [hsplit, List.length_append]
  omega

theorem offsetAt_succ {v : Validity} {vs : List Bytes} {k : Nat} {e : Bytes}
    (h : (v.kept vs)[k]? = some e) : v.offsetAt vs (k + 1) = v.offsetAt vs k + e.length := by
  unfold Validity.offsetAt
  rw [List.take_add_one, h, List.flatten_append, List.length_append]
  simp

theorem kept_getElem? {v : Validity} {vs : List Bytes} {n i : Nat} {there : Nat → Bool}
    (hv : v.Agrees n there) (hi : i < n) :
    (v.kept vs)[i]? = vs[i]?.map fun e => if there i then e else [] := by
  unfold Validity.kept
  rw [List.getElem?_mapIdx, hv i hi]

/-- The data of a regular string column is its present bytes. -/
theorem length_kept_flatten {v : Validity} {vs : List Bytes} {there : Nat → Bool}
    (hv : v.Agrees vs.length there) : (v.kept vs).flatten.length = presentBytes vs there := by
  have hsizes : (v.kept vs).map List.length =
      vs.mapIdx fun i e => if there i then e.length else 0 := by
    apply List.ext_getElem?
    intro i
    rw [List.getElem?_map, List.getElem?_mapIdx]
    by_cases hi : i < vs.length
    · rw [kept_getElem? hv hi, List.getElem?_eq_getElem hi]
      cases there i <;> simp
    · rw [List.getElem?_eq_none (by rw [length_kept]; omega), List.getElem?_eq_none (by omega)]
      rfl
  rw [List.length_flatten, hsizes]
  rfl

/-- What a regular string column's buffers hold: exact offsets around the kept bytes. -/
theorem string_offsets {t : StringType} {v : Validity} {n : Nat} {vs : List Bytes}
    {there : Nat → Bool} {b : StringBuffers} (hb : b.After t v n vs) (hv : v.Agrees n there)
    (hr : LeafRegular n (.string t) vs there) {k : Nat} (hk : k ≤ n) :
    readOffset t.offsetWidth (packed t.offsetWidth b.off) k = .ok (v.offsetAt vs k : Int) := by
  obtain ⟨rfl, hbytes⟩ := hr
  have hpow : 2 * 2 ^ (8 * t.offsetWidth - 1) = 256 ^ t.offsetWidth := by
    cases t <;> decide
  have hfit : 2 * (v.kept vs).flatten.length < 256 ^ t.offsetWidth := by
    rw [length_kept_flatten hv]
    omega
  have hle := offsetAt_le v vs k
  have hpos : (0 : Int) < 256 ^ t.offsetWidth := Int.pow_pos (by decide)
  apply readOffset_packed (hb.offsets hfit k hk hk)
  · omega
  · exact_mod_cast (by omega : 2 * v.offsetAt vs k < 256 ^ t.offsetWidth)

/-! ## Leaves -/

section Leaves

variable {t : FieldType} {vs : List t.Value} {v : Validity} {n i : Nat} {there : Nat → Bool}
  {name : String} {nullable : Bool}

theorem LeafRegular.length (h : LeafRegular n t vs there) : vs.length = n := by
  cases t with
  | element t => exact h
  | string t => exact h.1
  | bool => exact h

/-- **A present value is read back from the leaf's buffers.** -/
theorem leaf_scalarAt (hv : v.Denotes n there) (hr : LeafRegular n t vs there) (hi : i < n)
    (hthere : there i = true) {x : t.Value} (hx : vs[i]? = some x) :
    scalarAt t.arrow (buildLeaf name t nullable vs v n).array i = .ok (t.scalar x) := by
  cases t with
  | element t => exact scalarAt_element t rfl hx
  | bool =>
    obtain ⟨hlen, hbits, _, _⟩ := packedBits_spec n vs
    have hget : ByteSeq.getBit (vs.foldl PackedBits.push (.sized n)).packed i = some x := by
      rw [hbits i (by omega), List.getD_eq_getElem?_getD, hx]
      rfl
    show (readBit (vs.foldl PackedBits.push (.sized n)).packed i).map Scalar.bool = _
    unfold readBit
    rw [hget]
    rfl
  | string t =>
    have hb := stringBuffers_spec t v n vs
    have hkept : (v.kept vs)[i]? = some x := by
      rw [kept_getElem? hv.agrees hi, hx, Option.map_some, if_pos hthere]
    have hstop := string_offsets hb hv.agrees hr (Nat.succ_le_of_lt hi)
    rw [offsetAt_succ hkept] at hstop
    have hin := offsetAt_le v vs (i + 1)
    rw [offsetAt_succ hkept, ← hb.dat] at hin
    obtain ⟨text, htext⟩ := arrow_string t
    show scalarAt t.arrow _ i = _
    rw [htext, scalarAt_binary rfl rfl
      (string_offsets hb hv.agrees hr (Nat.le_of_lt hi)) hstop hin, hb.dat]
    exact congrArg (fun bs => Except.ok (Scalar.bytes bs)) (ByteSeq.take_drop_flatten hkept)

/-- Row `i` of a leaf. -/
def leafCell (t : FieldType) (vs : List t.Value) (there : Nat → Bool) (i : Nat) : Cell :=
  if there i then valueCell t vs i else .null

theorem leaf_cellAt (hv : v.Denotes n there) (hr : LeafRegular n t vs there) (hi : i < n) :
    cellAt (.leaf t.arrow) (buildLeaf name t nullable vs v n).array i =
      .ok (leafCell t vs there i) := by
  have hlen := hr.length
  have hx : vs[i]? = some vs[i] := List.getElem?_eq_getElem (by omega)
  rw [cellAt_leaf rfl rfl hi rfl (hv.bit i hi)]
  unfold leafCell valueCell
  by_cases hthere : there i = true
  · rw [if_pos hthere, if_pos hthere, leaf_scalarAt hv hr hi hthere hx, hx]
    rfl
  · rw [if_neg hthere, if_neg hthere]

/-- The sizes of a string column's rows are those of what was kept. -/
theorem size_leafCell {t : StringType} {vs : List Bytes} (hv : v.Denotes vs.length there) :
    ((List.range vs.length).map (leafCell (.string t) vs there)).map Cell.size =
      (v.kept vs).map List.length := by
  apply List.ext_getElem?
  intro i
  by_cases hi : i < vs.length
  · rw [List.getElem?_map, List.getElem?_map, List.getElem?_range hi, List.getElem?_map,
      kept_getElem? hv.agrees hi, List.getElem?_eq_getElem hi]
    simp only [Option.map_some, leafCell, valueCell, List.getElem?_eq_getElem hi]
    cases there i <;> rfl
  · rw [List.getElem?_eq_none (by simp; omega), List.getElem?_eq_none (by simp; omega)]

/-- **A leaf's array is exact.** -/
theorem leaf_exact (hv : v.Denotes n there) (hr : LeafRegular n t vs there) :
    Exact n (.leaf t.arrow) (buildLeaf name t nullable vs v n).array := by
  rw [Exact]
  refine ⟨⟨rfl, rfl, ?_, rfl, v.pointer, rfl, hv.nullCount⟩, ?_⟩
  · cases t with
    | element t => cases t <;> exact ⟨rfl, _, rfl, rfl⟩
    | string t => cases t <;> exact ⟨rfl, _, rfl, rfl⟩
    | bool => exact ⟨rfl, _, rfl, rfl⟩
  · intro text w harrow
    have hrows := rows_eq_map (n := n) (a := (buildLeaf name t nullable vs v n).array) rfl
      fun i hi => leaf_cellAt hv hr hi
    cases t with
    | element t => cases t <;> cases harrow
    | bool => cases harrow
    | string t =>
      obtain ⟨text', htext⟩ := arrow_string t
      have hw : w = t.offsetWidth := by
        change t.arrow = _ at harrow
        rw [htext] at harrow
        cases harrow
        rfl
      subst hw
      refine ⟨_, _, rfl, hrows, fun k hk => ?_⟩
      refine (string_offsets (stringBuffers_spec t v n vs) hv.agrees hr hk).trans ?_
      obtain ⟨rfl, _⟩ := hr
      rw [List.map_take, size_leafCell hv, ← List.map_take, ← List.length_flatten]
      rfl

end Leaves

/-! ## The tree -/

/-- A node declares the field, and its array denotes the rows `cell`, exactly. -/
structure Node.Denotes (node : Node) (n : Nat) (f : Field) (cell : Nat → Cell) : Prop where
  shape : shapeOf node.schema = some f.shape
  name : node.schema.nameOr = cStr f.name
  nullable : (node.schema.flags &&& ARROW_FLAG_NULLABLE != 0) = f.nullable
  ok : node.ok = true
  exact : Exact n f.shape node.array
  cells : ∀ i < n, cellAt f.shape node.array i = .ok (cell i)

structure Nodes.Denotes (nodes : Nodes) (n : Nat) (fs : Fields) (cells : Nat → Cells) : Prop where
  members : membersOf nodes.schemas = some fs.members
  length : nodes.arrays.length = fs.members.length
  ok : nodes.ok = true
  exact : ExactAll n fs.members nodes.arrays
  cells : ∀ i < n, cellsAt fs.members nodes.arrays i = .ok (cells i)

theorem flags_nullable (nullable : Bool) :
    ((if nullable then ARROW_FLAG_NULLABLE else 0) &&& ARROW_FLAG_NULLABLE != 0) = nullable := by
  cases nullable <;> decide

theorem buildLeaf_denotes {name : String} {t : FieldType} {nullable : Bool} {vs : List t.Value}
    {v : Validity} {n : Nat} {there : Nat → Bool} (hv : v.Denotes n there)
    (hr : LeafRegular n t vs there) :
    (buildLeaf name t nullable vs v n).Denotes n (.leaf name t nullable) (leafCell t vs there) where
  shape := by
    rw [Field.shape]
    exact shapeOf_leaf (ofFormat_leaf t vs v n)
  name := rfl
  nullable := flags_nullable nullable
  ok := decide_eq_true hr.length
  exact := by
    rw [Field.shape]
    exact leaf_exact hv hr
  cells := by
    intro i hi
    rw [Field.shape]
    exact leaf_cellAt hv hr hi

/-- A group's node, over nodes that denote its children's rows. -/
theorem buildGroup_denotes {name : String} {fs : Fields} {nullable rowsOk : Bool} {v : Validity}
    {n : Nat} {there : Nat → Bool} {children : Nodes} {cells : Nat → Cells} (hv : v.Denotes n there)
    (hrows : rowsOk = true) (h : children.Denotes n fs cells) :
    (buildGroup name nullable v rowsOk n children).Denotes n (.group name nullable fs)
      fun i => if there i then .struct (cells i) else .null where
  shape := by
    rw [Field.shape]
    exact shapeOf_struct h.members
  name := rfl
  nullable := flags_nullable nullable
  ok := by
    show (rowsOk && children.ok) = true
    rw [hrows, h.ok]
    rfl
  exact := by
    rw [Field.shape, Exact]
    refine ⟨⟨rfl, rfl, ⟨rfl, _, rfl, rfl⟩, ?_, v.pointer, rfl, hv.nullCount⟩, _, rfl, h.exact⟩
    exact congrArg Int.ofNat h.length
  cells := by
    intro i hi
    rw [Field.shape, cellAt_struct rfl rfl hi rfl (hv.bit i hi) rfl, h.cells i hi]
    cases there i <;> rfl

theorem Node.Denotes.of_cells {node : Node} {n : Nat} {f : Field} {cell cell' : Nat → Cell}
    (h : node.Denotes n f cell) (heq : ∀ i, cell' i = cell i) : node.Denotes n f cell' where
  shape := h.shape
  name := h.name
  nullable := h.nullable
  ok := h.ok
  exact := h.exact
  cells := fun i hi => by rw [heq i, h.cells i hi]

theorem Nodes.Denotes.of_cells {nodes : Nodes} {n : Nat} {fs : Fields} {cells cells' : Nat → Cells}
    (h : nodes.Denotes n fs cells) (heq : ∀ i, cells' i = cells i) :
    nodes.Denotes n fs cells' where
  members := h.members
  length := h.length
  ok := h.ok
  exact := h.exact
  cells := fun i hi => by rw [heq i, h.cells i hi]

/-- One more column in front. -/
theorem Node.Denotes.cons {node : Node} {nodes : Nodes} {n : Nat} {f : Field} {fs : Fields}
    {cell : Nat → Cell} {cells : Nat → Cells} (h : node.Denotes n f cell)
    (hs : nodes.Denotes n fs cells) :
    Nodes.Denotes ⟨node.schema :: nodes.schemas, node.array :: nodes.arrays, node.ok && nodes.ok,
      node.accesses ++ nodes.accesses⟩ n (.cons f fs) fun i => .cons (cell i) (cells i) where
  members := by
    rw [membersOf, h.shape, hs.members, Fields.members, ← h.name, ← h.nullable]
    rfl
  length := by
    rw [List.length_cons, hs.length, Fields.members, Members.length]
  ok := by
    show (node.ok && nodes.ok) = true
    rw [h.ok, hs.ok]
    rfl
  exact := by
    rw [Fields.members, ExactAll]
    exact ⟨h.exact, hs.exact⟩
  cells := by
    intro i hi
    rw [Fields.members, cellsAt, h.cells i hi, hs.cells i hi]
    rfl

/-- The last column. -/
theorem Node.Denotes.last {node : Node} {n : Nat} {f : Field} {cell : Nat → Cell}
    (h : node.Denotes n f cell) :
    Nodes.Denotes ⟨[node.schema], [node.array], node.ok, node.accesses⟩ n (.last f)
      fun i => .cons (cell i) .nil where
  members := by
    rw [membersOf, h.shape, membersOf, Fields.members, ← h.name, ← h.nullable]
    rfl
  length := by
    rw [Fields.members]
    rfl
  ok := h.ok
  exact := by
    rw [Fields.members, ExactAll]
    exact ⟨h.exact, trivial⟩
  cells := by
    intro i hi
    rw [Fields.members, cellsAt, h.cells i hi]
    rfl

mutual

/-- **A node built from a regular column denotes its rows.** -/
theorem buildNode_denotes {n : Nat} : {f : Field} → (c : Column f) → c.Regular n →
    (buildNode c n).Denotes n f c.cell
  | .leaf _ t _, .values vs, h => by
    rw [Column.Regular] at h
    rw [buildNode]
    apply (buildLeaf_denotes (denotes_required n) h).of_cells
    intro i
    rw [Column.cell]
    rfl
  | .leaf _ t _, .nullable vs p, h => by
    rw [Column.Regular] at h
    rw [buildNode, h.1.length]
    apply (buildLeaf_denotes (denotes_column h.2) h.1).of_cells
    intro i
    rw [Column.cell]
    rfl
  | .group _ _ _, .group children, h => by
    rw [Column.Regular] at h
    rw [buildNode]
    apply (buildGroup_denotes (denotes_required n) rfl (buildNodes_denotes children h)).of_cells
    intro i
    rw [Column.cell]
    rfl
  | .group _ _ _, .nullableGroup p children, h => by
    rw [Column.Regular] at h
    rw [buildNode]
    obtain ⟨hv, hrows⟩ := denotes_group h.1
    have hok : (p.group.rows = unknownRows || p.group.rows = n) = true := by
      simpa using hrows
    apply (buildGroup_denotes hv hok (buildNodes_denotes children h.2)).of_cells
    intro i
    rw [Column.cell]

theorem buildNodes_denotes {n : Nat} : {fs : Fields} → (cols : Columns fs) → cols.Regular n →
    (buildNodes cols n).Denotes n fs cols.cells
  | _, .last c, h => by
    rw [Columns.Regular] at h
    rw [buildNodes]
    apply (buildNode_denotes c h).last.of_cells
    intro i
    rw [Columns.cells]
  | _, .cons c rest, h => by
    rw [Columns.Regular] at h
    rw [buildNodes]
    apply ((buildNode_denotes c h.1).cons (buildNodes_denotes rest h.2)).of_cells
    intro i
    rw [Columns.cells]

end

/-! ## The chunk -/

mutual

/-- Regular columns fix the row count at `n`. -/
theorem firstLeafSize_regular {n : Nat} : {f : Field} → (c : Column f) → c.Regular n →
    firstLeafSize c = n
  | .leaf _ _ _, .values vs, h => by
    rw [Column.Regular] at h
    rw [firstLeafSize, h.length]
  | .leaf _ _ _, .nullable vs p, h => by
    rw [Column.Regular] at h
    rw [firstLeafSize, h.1.length]
  | .group _ _ _, .group children, h => by
    rw [Column.Regular] at h
    rw [firstLeafSize]
    exact firstSize_regular children h
  | .group _ _ _, .nullableGroup p children, h => by
    rw [Column.Regular] at h
    rw [firstLeafSize]
    exact firstSize_regular children h.2

theorem firstSize_regular {n : Nat} : {fs : Fields} → (cols : Columns fs) → cols.Regular n →
    firstSize cols = n
  | _, .last c, h => by
    rw [Columns.Regular] at h
    rw [firstSize]
    exact firstLeafSize_regular c h
  | _, .cons c rest, h => by
    rw [Columns.Regular] at h
    rw [firstSize]
    exact firstLeafSize_regular c h.1

end

/-- A batch denotes the rows `cells` of the fields `fs`, and every array of it is exact. -/
structure BatchDenotes (schema : ArrowSchema) (batch : ArrowArray) (n : Nat) (fs : Fields)
    (cells : Nat → Cells) : Prop where
  shape : shapeOf schema = some (.struct fs.members)
  rows : rows (.struct fs.members) batch = .ok ((List.range n).map fun i => .struct (cells i))
  exact : Exact n (.struct fs.members) batch

theorem chunkNode_denotes {fs : Fields} {cols : Columns fs} {n : Nat} (h : cols.Regular n) :
    (chunkNode cols).ok = true ∧
      BatchDenotes (chunkNode cols).schema (chunkNode cols).array n fs cols.cells := by
  have hsize := firstSize_regular cols h
  have hnodes := buildNodes_denotes cols h
  unfold chunkNode
  rw [hsize]
  refine ⟨hnodes.ok, shapeOf_struct hnodes.members, ?_, ?_⟩
  · apply rows_eq_map rfl
    intro i hi
    rw [cellAt_struct rfl rfl hi rfl rfl rfl, hnodes.cells i hi]
    rfl
  · rw [Exact]
    refine ⟨⟨rfl, rfl, ⟨rfl, _, rfl, rfl⟩, ?_, none, rfl, rfl⟩, _, rfl, hnodes.exact⟩
    exact congrArg Int.ofNat hnodes.length

/-- **The tree built from a regular chunk denotes exactly the rows given**, and it is what the
    writer is handed. -/
theorem writeChunk_denotes (X : External) {S : Schema} (w : Writer) (status : N2PStatus)
    (cols : Columns S.fields) (n : Nat) (h : cols.Regular n) :
    BatchDenotes (chunkNode cols).schema (chunkNode cols).array n S.fields cols.cells ∧
      (writeChunk X ⟨some w, status⟩ cols).result =
        (n2pWriterWriteBatch X w (some (chunkNode cols).schema) (some (chunkNode cols).array)).map
          fun r => (r.1, { w := some r.2, status := r.1 }) := by
  obtain ⟨hok, hbatch⟩ := chunkNode_denotes h
  refine ⟨hbatch, ?_⟩
  unfold writeChunk
  show (if (chunkNode cols).ok = true then _ else _) = _
  rw [if_pos hok]

/-- A number, and an OPTIONAL group of a nullable name and a flag. -/
def peopleSchema : Schema where
  fields :=
    .cons (.leaf "id" (.element .int32) false)
      (.last (.group "person" true
        (.cons (.leaf "name" (.string .utf8) true) (.last (.leaf "adult" .bool false)))))
  unique := by decide

/-- Three rows: the second person is null, the third has no name. -/
def people : Columns peopleSchema.fields :=
  .cons (.values [7, -1, 0])
    (.last (.nullableGroup (.mask [true, false, true])
      (.cons (.nullable [[0x41], [0x42, 0x42], [0x43]] (.bits (some [0b011]) 1))
        (.last (.values [true, false, true])))))

theorem writeChunk_denotes_people :
    (people.cells 1 = .cons (.scalar (.int (-1))) (.cons .null .nil) ∧
      people.cells 2 = .cons (.scalar (.int 0))
        (.cons (.struct (.cons .null (.cons (.scalar (.bool true)) .nil))) .nil)) ∧
    BatchDenotes (chunkNode people).schema (chunkNode people).array 3 peopleSchema.fields
        people.cells ∧
      (writeChunk External.reference ⟨some freshWriter, .ok⟩ people).result =
        (n2pWriterWriteBatch External.reference freshWriter (some (chunkNode people).schema)
          (some (chunkNode people).array)).map fun r =>
            (r.1, { w := some r.2, status := r.1 }) := by
  refine ⟨by decide, writeChunk_denotes External.reference freshWriter .ok people 3 ?_⟩
  have hbits : (Presence.bits (some [0b011]) 1).Regular 3 := by
    refine ⟨?_, by decide⟩
    rintro _ ⟨rfl⟩
    decide
  exact ⟨rfl, rfl, ⟨⟨rfl, by decide⟩, hbits⟩, rfl⟩

end N2P.Soa
