import N2P.Lib.Outcome
import N2P.PageBodies

/-!
# What a schema and an array denote under the Arrow columnar format

The format's side of a record batch, written apart from any code that builds one, for the types
fixed-width, boolean, string and struct.

* `shapeOf` — the type an `ArrowSchema` declares.
* `cellAt`, `rows` — the slots of an `ArrowArray` of that type, read from its untyped buffers.  A
  slot is null, a value, or the cells of a struct's fields.
* `Exact` — every array of the tree has `n` slots from offset 0, the buffers and children its type
  asks for, a null count that is the number of cleared bits, and offsets that are prefix sums.
-/

namespace N2P.Columnar

/-! ## Types -/

/-- The types that take buffers and no children. -/
inductive ArrowType where
  | bool
  | int (signed : Bool) (width : Nat)
  | float (width : Nat)
  | fixedSizeBinary (width : Nat)
  /-- `text`: the bytes are UTF-8. -/
  | binary (text : Bool) (offsetWidth : Nat)
  deriving DecidableEq, Repr

/-- The type a format string names; `w:` is followed by a decimal width. -/
def ArrowType.ofFormat (format : String) : Option ArrowType :=
  match format.toList with
  | ['b'] => some .bool
  | ['c'] => some (.int true 1)
  | ['C'] => some (.int false 1)
  | ['s'] => some (.int true 2)
  | ['S'] => some (.int false 2)
  | ['i'] => some (.int true 4)
  | ['I'] => some (.int false 4)
  | ['l'] => some (.int true 8)
  | ['L'] => some (.int false 8)
  | ['f'] => some (.float 4)
  | ['g'] => some (.float 8)
  | ['u'] => some (.binary true 4)
  | ['z'] => some (.binary false 4)
  | ['U'] => some (.binary true 8)
  | ['Z'] => some (.binary false 8)
  | 'w' :: ':' :: digits =>
    if digits ≠ [] && digits.all Char.isDigit then
      some (.fixedSizeBinary (Nat.ofDigitChars 10 digits 0))
    else none
  | _ => none

/-- Buffers of the type's layout. -/
def ArrowType.buffers : ArrowType → Nat
  | .binary _ _ => 3
  | _ => 2

mutual

/-- The type of an array. -/
inductive Shape where
  | leaf (type : ArrowType)
  | struct (fields : Members)
  deriving DecidableEq, Repr

/-- The fields of a struct, in order. -/
inductive Members where
  | nil
  | cons (name : String) (nullable : Bool) (shape : Shape) (rest : Members)
  deriving DecidableEq, Repr

end

def Members.length : Members → Nat
  | .nil => 0
  | .cons _ _ _ rest => rest.length + 1

mutual

/-- The type a schema declares. -/
def shapeOf : ArrowSchema → Option Shape
  | ⟨some format, _, _, children, none⟩ =>
    if format = "+s" then (membersOf children).map .struct
    else if children.isEmpty then (ArrowType.ofFormat format).map .leaf
    else none
  | _ => none

def membersOf : List ArrowSchema → Option Members
  | [] => some .nil
  | c :: cs =>
    (shapeOf c).bind fun shape => (membersOf cs).map fun rest =>
      .cons c.nameOr (c.flags &&& ARROW_FLAG_NULLABLE != 0) shape rest

end

theorem shapeOf_leaf {format name : String} {nullable : Bool} {t : ArrowType}
    (h : ArrowType.ofFormat format = some t) :
    shapeOf (.leaf format name nullable) = some (.leaf t) := by
  have hne : format ≠ "+s" := by
    rintro rfl
    have hnone : ArrowType.ofFormat "+s" = none := by decide
    rw [hnone] at h
    cases h
  rw [ArrowSchema.leaf, shapeOf, if_neg hne, h]
  rfl

theorem shapeOf_struct {name : String} {nullable : Bool} {children : List ArrowSchema}
    {fields : Members} (h : membersOf children = some fields) :
    shapeOf (.nested "+s" name nullable children) = some (.struct fields) := by
  rw [ArrowSchema.nested, ArrowSchema.leaf, shapeOf, if_pos rfl, h]
  rfl

/-! ## Slots -/

/-- A value of a leaf.  A floating-point value is its bit pattern. -/
inductive Scalar where
  | bool (b : Bool)
  | int (v : Int)
  | float (bits : Nat)
  | bytes (bs : Bytes)
  deriving DecidableEq, Repr

mutual

/-- One slot of an array. -/
inductive Cell where
  | null
  | scalar (v : Scalar)
  | struct (fields : Cells)
  deriving DecidableEq, Repr

inductive Cells where
  | nil
  | cons (cell : Cell) (rest : Cells)
  deriving DecidableEq, Repr

end

/-- The value at slot `j` of a leaf's buffers. -/
def scalarAt (t : ArrowType) (a : ArrowArray) (j : Nat) : Except Fault Scalar := do
  let data ← a.data 1
  match t with
  | .bool => (readBit data j).map .bool
  | .int signed w =>
    (readElem w data j).map fun e => .int (if signed then signedLE e else ByteSeq.ofLE e)
  | .float w => (readElem w data j).map fun e => .float (ByteSeq.ofLE e)
  | .fixedSizeBinary w => (readElem w data j).map .bytes
  | .binary _ w =>
    let start ← readOffset w data j
    let stop ← readOffset w data (j + 1)
    let bytes ← a.data 2
    if 0 ≤ start ∧ start ≤ stop ∧ stop ≤ bytes.length then
      pure (.bytes ((bytes.drop start.toNat).take (stop - start).toNat))
    else throw .undefined

/-- The slot of the buffers behind row `i`: an array with an offset is a slice of them. -/
def slotOf (a : ArrowArray) (i : Nat) : Except Fault Nat :=
  if 0 ≤ a.offset ∧ i < a.length then .ok (a.offset + i).toNat else .error .undefined

mutual

/-- Row `i` of an array. -/
def cellAt : Shape → ArrowArray → Nat → Except Fault Cell
  | .leaf t, a, i => do
    let j ← slotOf a i
    if ← validBit (← a.buffer 0) j then (scalarAt t a j).map .scalar else pure .null
  | .struct fields, a, i => do
    let j ← slotOf a i
    if ← validBit (← a.buffer 0) j then
      (cellsAt fields (a.children.getD []) j).map .struct
    else pure .null

/-- Row `i` of each of a struct's children. -/
def cellsAt : Members → List ArrowArray → Nat → Except Fault Cells
  | .nil, [], _ => .ok .nil
  | .cons _ _ shape rest, a :: as, i => do
    let cell ← cellAt shape a i
    (cellsAt rest as i).map (.cons cell)
  | _, _, _ => .error .undefined

end

/-- The rows of an array. -/
def rows (shape : Shape) (a : ArrowArray) : Except Fault (List Cell) :=
  (List.range a.length.toNat).mapM (cellAt shape a)

/-! ## Reading an array without an offset -/

section Unsliced

variable {a : ArrowArray} {n i : Nat} {validity : Option Bytes} {there : Bool}

theorem slotOf_unsliced (hlen : a.length = n) (hoff : a.offset = 0) (hi : i < n) :
    slotOf a i = .ok i := by
  unfold slotOf
  rw [hlen, hoff, if_pos ⟨le_refl 0, by exact_mod_cast hi⟩]
  simp

theorem cellAt_leaf {t : ArrowType} (hlen : a.length = n) (hoff : a.offset = 0) (hi : i < n)
    (hb : a.buffer 0 = .ok validity) (hbit : validBit validity i = .ok there) :
    cellAt (.leaf t) a i = if there then (scalarAt t a i).map .scalar else .ok .null := by
  rw [cellAt, slotOf_unsliced hlen hoff hi, hb]
  show (validBit validity i >>= _) = _
  rw [hbit]
  rfl

theorem cellAt_struct {fields : Members} {children : List ArrowArray} (hlen : a.length = n)
    (hoff : a.offset = 0) (hi : i < n) (hb : a.buffer 0 = .ok validity)
    (hbit : validBit validity i = .ok there) (hc : a.children = some children) :
    cellAt (.struct fields) a i =
      if there then (cellsAt fields children i).map .struct else .ok .null := by
  rw [cellAt, slotOf_unsliced hlen hoff hi, hb]
  show (validBit validity i >>= _) = _
  rw [hbit, hc]
  rfl

theorem rows_eq_map {shape : Shape} {f : Nat → Cell} (hlen : a.length = n)
    (h : ∀ i < n, cellAt shape a i = .ok (f i)) : rows shape a = .ok ((List.range n).map f) := by
  unfold rows
  rw [hlen, Int.toNat_natCast]
  apply Outcome.mapM_eq_map
  intro i hi
  exact h i (List.mem_range.mp hi)

/-- A string between two offsets. -/
theorem scalarAt_binary {text : Bool} {w : Nat} {off data : Bytes} {start size : Nat}
    (hoff : a.data 1 = .ok off) (hdata : a.data 2 = .ok data)
    (hstart : readOffset w off i = .ok (start : Int))
    (hstop : readOffset w off (i + 1) = .ok ((start + size : Nat) : Int))
    (hin : start + size ≤ data.length) :
    scalarAt (.binary text w) a i = .ok (.bytes ((data.drop start).take size)) := by
  have hsize : ((start + size : Nat) : Int) - start = size := by omega
  unfold scalarAt
  rw [hoff]
  show (readOffset w off i >>= _) = _
  rw [hstart]
  show (readOffset w off (i + 1) >>= _) = _
  rw [hstop, hdata]
  show (if _ then _ else _) = _
  rw [if_pos ⟨by omega, by omega, by exact_mod_cast hin⟩, hsize]
  rfl

end Unsliced

/-! ## Exact arrays -/

/-- The cleared bits of a validity bitmap's first `n`; a null pointer clears none. -/
def clearedBits (validity : Option Bytes) (n : Nat) : Nat :=
  match validity with
  | none => 0
  | some bm => (List.range n).countP fun i => ByteSeq.getBit bm i == some false

/-- Bytes of a cell in its column's data buffer. -/
def Cell.size : Cell → Nat
  | .scalar (.bytes bs) => bs.length
  | _ => 0

/-- `n` slots from offset 0, with exactly `buffers` buffers and `children` children. -/
structure NodeExact (n buffers children : Nat) (a : ArrowArray) : Prop where
  length : a.length = n
  offset : a.offset = 0
  buffers : a.nBuffers = buffers ∧ ∃ bs, a.buffers = some bs ∧ bs.length = buffers
  children : a.nChildren = children
  nullCount : ∃ validity, a.buffer 0 = .ok validity ∧ a.nullCount = clearedBits validity n

/-- The offsets of a string array are the prefix sums of its cells' sizes. -/
def PrefixSums (t : ArrowType) (n : Nat) (a : ArrowArray) : Prop :=
  ∀ text w, t = .binary text w → ∃ off cells, a.data 1 = .ok off ∧
    rows (.leaf t) a = .ok cells ∧
    ∀ k ≤ n, readOffset w off k = .ok (((cells.take k).map Cell.size).sum : Nat)

mutual

/-- Every array of the tree is exact. -/
def Exact (n : Nat) : Shape → ArrowArray → Prop
  | .leaf t, a => NodeExact n t.buffers 0 a ∧ PrefixSums t n a
  | .struct fields, a =>
    NodeExact n 1 fields.length a ∧ ∃ children, a.children = some children ∧
      ExactAll n fields children

def ExactAll (n : Nat) : Members → List ArrowArray → Prop
  | .nil, [] => True
  | .cons _ _ shape rest, a :: as => Exact n shape a ∧ ExactAll n rest as
  | _, _ => False

end

end N2P.Columnar
