import N2P.Writer

/-!
# The columnar front-end

`soa.hpp`: a schema described at compile time, columns passed as plain ranges, and the Arrow tree
that is built over them for one call of the writer.

* `Field` / `Column` — a field, and the argument a caller may pass for it: the index of `Column`
  is what the source's static assertions demand.  A mask is the truth of its elements.
* `present`, `validBits`, `groupPresent`, `groupValid` — the wrappers around a nullable column.
* `buildNode` — the borrowed tree, whether every length was found right, and every index used on
  a buffer the header sized itself.
* `writeChunk`, `close` — the streaming writer.

A range is in memory, so its size is a natural; allocation succeeds.  Objects are stored
little-endian, a floating-point object is its bit pattern.
-/

namespace N2P.Soa

/-! ## Element types -/

/-- The types with `arrow_traits`. -/
inductive ElementType where
  | int8
  | uint8
  | int16
  | uint16
  | int32
  | uint32
  | int64
  | uint64
  | float
  | double
  /-- `std::array<std::uint8_t, N>`. -/
  | array (n : Nat)
  deriving DecidableEq, Repr

abbrev ElementType.Value : ElementType → Type
  | .int8 => Int8
  | .uint8 => UInt8
  | .int16 => Int16
  | .uint16 => UInt16
  | .int32 => Int32
  | .uint32 => UInt32
  | .int64 => Int64
  | .uint64 => UInt64
  | .float => BitVec 32
  | .double => BitVec 64
  | .array n => Vector UInt8 n

/-- The bytes of an object in its range. -/
def ElementType.object : (t : ElementType) → t.Value → Bytes
  | .int8, v => ByteSeq.toLE 1 v.toBitVec.toNat
  | .uint8, v => ByteSeq.toLE 1 v.toNat
  | .int16, v => ByteSeq.toLE 2 v.toBitVec.toNat
  | .uint16, v => ByteSeq.toLE 2 v.toNat
  | .int32, v => ByteSeq.toLE 4 v.toBitVec.toNat
  | .uint32, v => ByteSeq.toLE 4 v.toNat
  | .int64, v => ByteSeq.toLE 8 v.toBitVec.toNat
  | .uint64, v => ByteSeq.toLE 8 v.toNat
  | .float, v => ByteSeq.toLE 4 v.toNat
  | .double, v => ByteSeq.toLE 8 v.toNat
  | .array n, v => if n = 0 then [0] else v.toList -- an empty array still has a size

/-- `fixed_size_binary_format::digits`. -/
def digits (v : Nat) : Nat := if 10 ≤ v then digits (v / 10) + 1 else 1

/-- The loop of `make`, which fills the digits in from the last. -/
def makeDigits : (i v : Nat) → List Char → List Char
  | 0, _, out => out
  | i + 1, v, out => makeDigits i (v / 10) (Char.ofNat ('0'.toNat + v % 10) :: out)

/-- `fixed_size_binary_format::make`. -/
def fixedSizeBinaryFormat (n : Nat) : String :=
  String.ofList ('w' :: ':' :: makeDigits (digits n) n [])

/-- `arrow_traits::format`. -/
def ElementType.format : ElementType → String
  | .int8 => "c"
  | .uint8 => "C"
  | .int16 => "s"
  | .uint16 => "S"
  | .int32 => "i"
  | .uint32 => "I"
  | .int64 => "l"
  | .uint64 => "L"
  | .float => "f"
  | .double => "g"
  | .array n => fixedSizeBinaryFormat n

/-- The tags of the variable-length fields. -/
inductive StringType where
  | utf8
  | binary
  | largeUtf8
  | largeBinary
  deriving DecidableEq, Repr

/-- `is_large_string_v`. -/
def StringType.isLarge : StringType → Bool
  | .largeUtf8 => true
  | .largeBinary => true
  | _ => false

/-- `string_format`. -/
def StringType.format : StringType → String
  | .utf8 => "u"
  | .binary => "z"
  | .largeUtf8 => "U"
  | .largeBinary => "Z"

/-- `sizeof(off_t)`. -/
def StringType.offsetWidth (t : StringType) : Nat := if t.isLarge then 8 else 4

/-- `SupportedField`. -/
inductive FieldType where
  | element (t : ElementType)
  | string (t : StringType)
  | bool
  deriving DecidableEq, Repr

/-- An element of a leaf's range.  A string-like value is the bytes it converts to. -/
abbrev FieldType.Value : FieldType → Type
  | .element t => t.Value
  | .string _ => Bytes
  | .bool => Bool

/-! ## Fields -/

mutual

/-- `Field`, `Nullable`, `Struct` and `NullableStruct`. -/
inductive Field where
  | leaf (name : String) (type : FieldType) (nullable : Bool)
  | group (name : String) (nullable : Bool) (children : Fields)

/-- A pack of fields, never empty. -/
inductive Fields where
  | last (f : Field)
  | cons (f : Field) (rest : Fields)

end

def Field.name : Field → String
  | .leaf name _ _ => name
  | .group name _ _ => name

def Field.nullable : Field → Bool
  | .leaf _ _ nullable => nullable
  | .group _ nullable _ => nullable

/-- `fixed_string::c_str`, as far as a C string reaches. -/
def cStr (name : String) : String := String.ofList (name.toList.takeWhile (· ≠ '\x00'))

def Fields.names : Fields → List String
  | .last f => [f.name]
  | .cons f rest => f.name :: rest.names

/-- `Writer<Fields...>`, with the static assertion on the names. -/
structure Schema where
  fields : Fields
  unique : fields.names.Nodup

/-! ## Wrappers of nullable columns -/

/-- `bits[i >> 3] |= 1u << (i & 7)`; past the end nothing is stored. -/
def orBit (bits : Bytes) (i : Nat) : Bytes := (ByteSeq.setBit bits i).getD bits

/-- A presence mask being packed. -/
structure MaskBits where
  bits : Bytes
  nulls : Int
  i : Nat

/-- The loop body of `present` and `group_present`. -/
def MaskBits.push (b : MaskBits) (m : Bool) : MaskBits :=
  if m then { b with bits := orBit b.bits b.i, i := b.i + 1 }
  else { b with nulls := b.nulls + 1, i := b.i + 1 }

/-- `n` entries of a mask, packed. -/
def packMask (n : Nat) (mask : List Bool) : MaskBits :=
  mask.foldl MaskBits.push { bits := List.replicate ((n + 7) / 8) 0, nulls := 0, i := 0 }

/-- What `nullable_column` and `group_column` hold beside the values or children. -/
structure Validity where
  ownedBitmap : Bytes
  bitmap : Option Bytes
  nullCount : Int

/-- `validity()`: the caller's bitmap unless one was packed. -/
def Validity.pointer (v : Validity) : Option Bytes :=
  if v.ownedBitmap.isEmpty then v.bitmap else some v.ownedBitmap

/-- `present`, on a range of `n` values; its loop breaks at `n`. -/
def present (n : Nat) (mask : List Bool) : Validity :=
  let b := packMask n (mask.take n)
  { ownedBitmap := b.bits, bitmap := none, nullCount := b.nulls }

/-- `valid_bits`. -/
def validBits (bitmap : Option Bytes) (nullCount : Int) : Validity :=
  { ownedBitmap := [], bitmap, nullCount }

/-- `group_column`'s `rows` when it is not known: `static_cast<std::size_t>(-1)`. -/
def unknownRows : Nat := 2 ^ 64 - 1

/-- `group_column` of an OPTIONAL group. -/
structure GroupColumn extends Validity where
  rows : Nat := unknownRows

/-- `group_present`. -/
def groupPresent (mask : List Bool) : GroupColumn :=
  let b := packMask mask.length mask
  { ownedBitmap := b.bits, bitmap := none, nullCount := b.nulls, rows := mask.length }

/-- `group_valid`. -/
def groupValid (bitmap : Option Bytes) (nullCount : Int) : GroupColumn :=
  { ownedBitmap := [], bitmap, nullCount }

/-- What a caller passes beside a nullable column: a mask, or a packed bitmap and its null count. -/
inductive Presence where
  | mask (m : List Bool)
  | bits (bitmap : Option Bytes) (nullCount : Int)

/-- The wrapper around a range of `n` values. -/
def Presence.column (p : Presence) (n : Nat) : Validity :=
  match p with
  | .mask m => present n m
  | .bits bitmap nullCount => validBits bitmap nullCount

/-- The wrapper around a group. -/
def Presence.group : Presence → GroupColumn
  | .mask m => groupPresent m
  | .bits bitmap nullCount => groupValid bitmap nullCount

mutual

/-- The argument for a field: a plain range, a wrapped one, or a group of its children's. -/
inductive Column : Field → Type where
  | values {name : String} {t : FieldType} (vs : List t.Value) : Column (.leaf name t false)
  | nullable {name : String} {t : FieldType} (vs : List t.Value) (p : Presence) :
      Column (.leaf name t true)
  | group {name : String} {fs : Fields} (children : Columns fs) : Column (.group name false fs)
  | nullableGroup {name : String} {fs : Fields} (p : Presence) (children : Columns fs) :
      Column (.group name true fs)

inductive Columns : Fields → Type where
  | last {f : Field} (c : Column f) : Columns (.last f)
  | cons {f : Field} {fs : Fields} (c : Column f) (rest : Columns fs) : Columns (.cons f fs)

end

/-! ## The Arrow tree -/

/-- The buffers `build_node` sizes, and those a wrapper packed. -/
inductive Buffer where
  | off
  | packed
  | ownedBitmap
  deriving DecidableEq, Repr

/-- An index used on a buffer of `size` entries. -/
structure Access where
  buffer : Buffer
  index : Nat
  size : Nat
  deriving DecidableEq, Repr

def Access.InBounds (a : Access) : Prop := a.index < a.size

/-- `present_at`.  A bit past the caller's bitmap reads as clear. -/
def Validity.presentAt (v : Validity) (i : Nat) : Bool :=
  match v.pointer with
  | none => true
  | some bm => (ByteSeq.getBit bm i).getD false

/-- What `present_at` reads of a bitmap that a wrapper packed. -/
def Validity.reads (v : Validity) (i : Nat) : List Access :=
  if v.ownedBitmap.isEmpty then [] else [⟨.ownedBitmap, i / 8, v.ownedBitmap.length⟩]

/-- The buffers of a string column being materialised. -/
structure StringBuffers where
  off : List Int
  dat : Bytes := []
  cur : Int := 0
  i : Nat := 0
  accesses : List Access

/-- `off` resized for `n` values, and `o[0] = 0`. -/
def StringBuffers.sized (n : Nat) : StringBuffers :=
  { off := (List.replicate (n + 1) 0).set 0 0, accesses := [⟨.off, 0, n + 1⟩] }

/-- The loop body of the string branch.  `cur` is an `off_t`; a store past `off` is only recorded. -/
def StringBuffers.push (t : StringType) (v : Validity) (b : StringBuffers) (e : Bytes) :
    StringBuffers :=
  let here := v.presentAt b.i
  let dat := if here then b.dat ++ e else b.dat
  let cur := if here then Int.bmod (b.cur + e.length) (256 ^ t.offsetWidth) else b.cur
  let i := b.i + 1
  { off := b.off.set i cur, dat, cur, i,
    accesses := b.accesses ++ v.reads b.i ++ [⟨.off, i, b.off.length⟩] }

/-- A column of booleans being packed. -/
structure PackedBits where
  packed : Bytes
  i : Nat := 0
  accesses : List Access := []

/-- `packed` assigned for `n` values. -/
def PackedBits.sized (n : Nat) : PackedBits := { packed := List.replicate ((n + 7) / 8) 0 }

/-- The loop body of the bool branch: only a true value touches the buffer. -/
def PackedBits.push (b : PackedBits) (v : Bool) : PackedBits :=
  if v then
    { packed := orBit b.packed b.i, i := b.i + 1,
      accesses := b.accesses ++ [⟨.packed, b.i / 8, b.packed.length⟩] }
  else { b with i := b.i + 1 }

/-- The format, the buffers behind the validity bitmap, and the indices used on them. -/
structure LeafBuffers where
  format : String
  buffers : List (Option Bytes)
  accesses : List Access

/-- The three branches of `build_node` on the leaf's type. -/
def leafBuffers (t : FieldType) (vs : List t.Value) (v : Validity) (n : Nat) : LeafBuffers :=
  match t with
  | .string t =>
    let b := vs.foldl (StringBuffers.push t v) (.sized n)
    { format := t.format, buffers := [some (N2P.packed t.offsetWidth b.off), some b.dat],
      accesses := b.accesses }
  | .bool =>
    let b := vs.foldl PackedBits.push (.sized n)
    { format := "b", buffers := [some b.packed], accesses := b.accesses }
  | .element t =>
    { format := t.format, buffers := [some (vs.flatMap t.object)], accesses := [] }

/-- A schema node and an array node, whether no length was found wrong, and the indices used. -/
structure Node where
  schema : ArrowSchema
  array : ArrowArray
  ok : Bool
  accesses : List Access

/-- `build_node` on a leaf. -/
def buildLeaf (name : String) (t : FieldType) (nullable : Bool) (vs : List t.Value) (v : Validity)
    (n : Nat) : Node :=
  let b := leafBuffers t vs v n
  { schema := .leaf b.format (cStr name) nullable
    array :=
      { length := n, nullCount := v.nullCount, offset := 0, nBuffers := b.buffers.length + 1,
        nChildren := 0, buffers := some (v.pointer :: b.buffers), children := none }
    ok := vs.length = n
    accesses := b.accesses }

/-- The nodes of a pack of columns, in order. -/
structure Nodes where
  schemas : List ArrowSchema
  arrays : List ArrowArray
  ok : Bool
  accesses : List Access

/-- `build_node` on a group, over its children's nodes. -/
def buildGroup (name : String) (nullable : Bool) (v : Validity) (rowsOk : Bool) (n : Nat)
    (children : Nodes) : Node :=
  { schema := .nested "+s" (cStr name) nullable children.schemas
    array :=
      { length := n, nullCount := v.nullCount, offset := 0, nBuffers := 1,
        nChildren := children.arrays.length, buffers := some [v.pointer],
        children := some children.arrays }
    ok := rowsOk && children.ok
    accesses := children.accesses }

mutual

/-- `build_node`. -/
def buildNode : {f : Field} → Column f → Nat → Node
  | .leaf name t _, .values vs, n => buildLeaf name t false vs (validBits none 0) n
  | .leaf name t _, .nullable vs p, n => buildLeaf name t true vs (p.column vs.length) n
  | .group name _ _, .group children, n =>
    buildGroup name false (validBits none 0) true n (buildNodes children n)
  | .group name _ _, .nullableGroup p children, n =>
    let g := p.group
    buildGroup name true g.toValidity (g.rows = unknownRows || g.rows = n) n (buildNodes children n)

def buildNodes : {fs : Fields} → Columns fs → Nat → Nodes
  | _, .last c, n =>
    let node := buildNode c n
    { schemas := [node.schema], arrays := [node.array], ok := node.ok, accesses := node.accesses }
  | _, .cons c rest, n =>
    let node := buildNode c n
    let nodes := buildNodes rest n
    { schemas := node.schema :: nodes.schemas, arrays := node.array :: nodes.arrays,
      ok := node.ok && nodes.ok, accesses := node.accesses ++ nodes.accesses }

end

mutual

/-- `first_leaf_size`. -/
def firstLeafSize : {f : Field} → Column f → Nat
  | .leaf _ _ _, .values vs => vs.length
  | .leaf _ _ _, .nullable vs _ => vs.length
  | .group _ _ _, .group children => firstSize children
  | .group _ _ _, .nullableGroup _ children => firstSize children

/-- That of a pack's first column. -/
def firstSize : {fs : Fields} → Columns fs → Nat
  | _, .last c => firstLeafSize c
  | _, .cons c _ => firstLeafSize c

end

/-! ## The writer -/

/-- The tree `write_chunk_impl` passes on, rooted in a struct of the columns. -/
def chunkNode {fs : Fields} (cols : Columns fs) : Node :=
  let n := firstSize cols
  let nodes := buildNodes cols n
  { schema := .nested "+s" "schema" false nodes.schemas
    array := .struct n none 0 nodes.arrays
    ok := nodes.ok
    accesses := nodes.accesses }

/-- `Writer`: the handle, null once closed, and the last status. -/
structure SoaWriter (S : Schema) where
  w : Option Writer
  status : N2PStatus

/-- `Writer(path)`.  The handle is there even when the file could not be opened. -/
def openWriter (S : Schema) (sink : ByteSink) (path : String) : SoaWriter S :=
  let (status, w) := n2pWriterOpen sink path
  { w := some w, status }

/-- A call of `write_chunk`: the indices used on the buffers it owns, and what it returns; `none`
    is undefined behaviour in the back-end. -/
structure ChunkCall (S : Schema) where
  accesses : List Access
  result : Option (N2PStatus × SoaWriter S)

/-- `write_chunk`. -/
def writeChunk (X : External) {S : Schema} (self : SoaWriter S) (cols : Columns S.fields) :
    ChunkCall S :=
  match self.w with
  | none => { accesses := [], result := some (self.status, self) }
  | some w =>
    let node := chunkNode cols
    { accesses := node.accesses
      result :=
        if node.ok then
          (n2pWriterWriteBatch X w (some node.schema) (some node.array)).map fun (status, w) =>
            (status, { w := some w, status })
        else some (.invalidArgument, { self with status := .invalidArgument }) }

/-- `close`. -/
def close (X : External) {S : Schema} (self : SoaWriter S) : N2PStatus × SoaWriter S :=
  match self.w with
  | none => (self.status, self)
  | some w =>
    let (s, _) := n2pWriterClose X w
    (s, { w := none, status := if self.status = .ok then s else self.status })

end N2P.Soa
