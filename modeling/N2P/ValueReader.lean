import N2P.ColumnKinds
import N2P.PageBodies

/-!
# Reading a page's values

The Parquet format's side of a value page, written apart from the writer: `readPlain` and
`readValues` decode a page body by the encoding its header names.  The decoders of nanom's
encodings are a parameter (`Decoders`); `Decoders.Inverts` says what is relied on.

The Arrow side is `ColumnKind.values`: the values an array holds at its valid rows, at the
column's Parquet type.
-/

namespace N2P

/-- A value at its Parquet type.  A floating-point value is its bit pattern. -/
inductive Value where
  | boolean (b : Bool)
  | int32 (v : Int)
  | int64 (v : Int)
  | float (bits : Nat)
  | double (bits : Nat)
  | byteArray (bytes : Bytes)
  | fixed (bytes : Bytes)
  deriving DecidableEq, Repr

/-! ## The reader -/

/-- Decoders of nanom's encodings. -/
structure Decoders where
  /-- Bytes, bit width, number of values. -/
  rleHybrid : Bytes → Nat → Nat → Option (List Nat)
  /-- Value width, bytes. -/
  deltaBinaryPacked : Nat → Bytes → Option (List Int)
  deltaPrefix : Bytes → Option (List Bytes)
  /-- Bytes, value width, number of values. -/
  byteStreamSplit : Bytes → Nat → Nat → Option Bytes

/-- The decoders invert the encoders, and a dictionary keeps the index it gave a string. -/
structure Decoders.Inverts (D : Decoders) (X : External) : Prop where
  rleHybrid : ∀ (l : List Nat) (w : Nat), w ≤ 32 → (∀ v ∈ l, v < 2 ^ w) →
    D.rleHybrid (X.rleHybridEncode l w) w l.length = some l
  deltaBinaryPacked : ∀ (w : Nat) (l : List Int), w = 4 ∨ w = 8 →
    (∀ v ∈ l, -(256 ^ w : Int) ≤ 2 * v ∧ 2 * v < (256 ^ w : Int)) →
    D.deltaBinaryPacked w (X.deltaBinaryPackedEncode w l) = some l
  deltaPrefix : ∀ (l : List Bytes) (bs : Bytes), X.deltaPrefixEncode l = some bs →
    D.deltaPrefix bs = some l
  byteStreamSplit : ∀ (bs : Bytes) (w n : Nat), bs.length = n * w →
    D.byteStreamSplit (X.byteStreamSplitEncode bs w n) w n = some bs
  indexOf : ∀ (d : X.Dictionary) (v : Bytes),
    (X.dictionaryValues (X.indexOf d v).2)[(X.indexOf d v).1]? = some v
  keeps : ∀ (d : X.Dictionary) (v : Bytes),
    X.dictionaryValues d <+: X.dictionaryValues (X.indexOf d v).2

/-- PLAIN byte arrays: a 4-byte length before each. -/
def readByteArrays : Nat → Bytes → Option (List Bytes)
  | 0, [] => some []
  | 0, _ :: _ => none
  | n + 1, bs =>
    let len := ByteSeq.ofLE (bs.take 4)
    if 4 + len ≤ bs.length then
      (readByteArrays n (bs.drop (4 + len))).map ((bs.drop 4).take len :: ·)
    else none

/-- PLAIN booleans, LSB first; padding follows the last one. -/
def readBooleans (n : Nat) (bs : Bytes) : Option (List Bool) :=
  if bs.length = (n + 7) / 8 then (List.range n).mapM (ByteSeq.getBit bs) else none

/-- `n` PLAIN values. -/
def readPlain (type : PhysicalType) (typeLength n : Nat) (bs : Bytes) : Option (List Value) :=
  match type with
  | .boolean => (readBooleans n bs).map (List.map .boolean)
  | .int32 => (ByteSeq.pieces 4 n bs).map (List.map fun p => .int32 (signedLE p))
  | .int64 => (ByteSeq.pieces 8 n bs).map (List.map fun p => .int64 (signedLE p))
  | .float => (ByteSeq.pieces 4 n bs).map (List.map fun p => .float (ByteSeq.ofLE p))
  | .double => (ByteSeq.pieces 8 n bs).map (List.map fun p => .double (ByteSeq.ofLE p))
  | .byteArray => (readByteArrays n bs).map (List.map .byteArray)
  | .fixedLenByteArray => (ByteSeq.pieces typeLength n bs).map (List.map .fixed)

/-- The entries of a dictionary page that the indices of a data page name. -/
def readIndices (D : Decoders) (type : PhysicalType) (typeLength n : Nat) (dict : Nat × Bytes) :
    Bytes → Option (List Value)
  | [] => none
  | width :: bs =>
    (readPlain type typeLength dict.1 dict.2).bind fun entries =>
      (D.rleHybrid bs width.toNat n).bind fun indices => indices.mapM fun i => entries[i]?

/-- The `n` values of a data page, by the encoding its header names; `dict` is the dictionary
    page's entry count and body. -/
def readValues (D : Decoders) (type : PhysicalType) (typeLength n : Nat)
    (dict : Option (Nat × Bytes)) (encoding : Encoding) (bs : Bytes) : Option (List Value) :=
  match encoding, type with
  | .plain, _ => readPlain type typeLength n bs
  | .rleDictionary, _ => dict.bind fun dict => readIndices D type typeLength n dict bs
  | .deltaBinaryPacked, .int32 => (D.deltaBinaryPacked 4 bs).map (List.map .int32)
  | .deltaBinaryPacked, .int64 => (D.deltaBinaryPacked 8 bs).map (List.map .int64)
  | .deltaByteArray, .byteArray => (D.deltaPrefix bs).map (List.map .byteArray)
  | .byteStreamSplit, .float => (D.byteStreamSplit bs 4 n).bind (readPlain .float 0 n)
  | .byteStreamSplit, .double => (D.byteStreamSplit bs 8 n).bind (readPlain .double 0 n)
  | _, _ => none

/-! ## The array -/

/-- The bytes of buffer `k`. -/
def ArrowArray.bytes (a : ArrowArray) (k : Nat) : Bytes :=
  match a.data k with
  | .ok bs => bs
  | .error _ => []

/-- A row is valid: there is no bitmap, or its bit is set. -/
def rowValid (validity : Option Bytes) (i : Nat) : Bool :=
  match validity with
  | none => true
  | some bm => ByteSeq.getBit bm i == some true

/-- The valid rows, in order. -/
def validRows (validity : Option Bytes) (n : Nat) : List Nat :=
  (List.range n).filter (rowValid validity)

/-- Bytes of one element of a fixed-width type. -/
def ColumnKind.width : ColumnKind → Nat
  | .narrow w _ _ => w
  | .int32 _ => 4
  | .int64 _ => 8
  | .float => 4
  | .double => 8
  | .fixed width _ => width
  | _ => 0

/-- Byte string `i` of a string or binary array. -/
def byteStringAt (w : Nat) (off data : Bytes) (i : Nat) : Bytes :=
  let start := signedLE (ByteSeq.element w off i)
  let stop := signedLE (ByteSeq.element w off (i + 1))
  (data.drop start.toNat).take (stop - start).toNat

/-- The value at a row, at the column's Parquet type: a 1- or 2-byte integer is widened by its
    signedness, an unsigned 4- or 8-byte one keeps its bits. -/
def ColumnKind.value (k : ColumnKind) (arr : ArrowArray) (i : Nat) : Value :=
  match k with
  | .null => .boolean false
  | .bool => .boolean ((ByteSeq.getBit (arr.bytes 1) i).getD false)
  | .narrow w signed _ =>
    let e := ByteSeq.element w (arr.bytes 1) i
    .int32 (if signed then signedLE e else ByteSeq.ofLE e)
  | .int32 _ => .int32 (signedLE (ByteSeq.element 4 (arr.bytes 1) i))
  | .int64 _ => .int64 (signedLE (ByteSeq.element 8 (arr.bytes 1) i))
  | .float => .float (ByteSeq.ofLE (ByteSeq.element 4 (arr.bytes 1) i))
  | .double => .double (ByteSeq.ofLE (ByteSeq.element 8 (arr.bytes 1) i))
  | .fixed width _ => .fixed (ByteSeq.element width (arr.bytes 1) i)
  | .bytes _ large =>
    .byteArray (byteStringAt (if large then 8 else 4) (arr.bytes 1) (arr.bytes 2) i)

/-- The values at the valid rows; the null type has none. -/
def ColumnKind.values (k : ColumnKind) (arr : ArrowArray) (validity : Option Bytes) : List Value :=
  match k with
  | .null => []
  | k => (validRows validity arr.length.toNat).map (k.value arr)

/-- Buffers as the Arrow format promises them for the type. -/
structure ColumnKind.BuffersOk (k : ColumnKind) (arr : ArrowArray) : Prop where
  length : 0 ≤ arr.length ∧ arr.length < 2 ^ 63
  data : k ≠ .null → ∃ bs, arr.data 1 = .ok bs
  bits : k = .bool → arr.length.toNat ≤ 8 * (arr.bytes 1).length
  elements : arr.length.toNat * k.width ≤ (arr.bytes 1).length
  strings : ∀ utf8 large, k = .bytes utf8 large → (∃ bs, arr.data 2 = .ok bs) ∧
    ∀ i < arr.length.toNat, ∃ start stop,
      readOffset (if large then 8 else 4) (arr.bytes 1) i = .ok start ∧
      readOffset (if large then 8 else 4) (arr.bytes 1) (i + 1) = .ok stop ∧
      0 ≤ start ∧ start ≤ stop ∧ stop ≤ (arr.bytes 2).length

/-- No bitmap, or one with a bit for every row. -/
def ValidityOk (validity : Option Bytes) (n : Nat) : Prop :=
  ∀ bm, validity = some bm → n ≤ 8 * bm.length

end N2P
