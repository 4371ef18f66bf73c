import N2P.Schema

/-!
# Page bodies

The value bytes of a column chunk: `build_plain_fixed`, `build_plain_bool`,
`build_byte_array_pages`, `encode_fixed_values` and `fixed_stats` of `writer.cpp`.  Every builder
walks rows `0 .. n-1` and skips the invalid ones; that loop is `forValid`.  A null data pointer
is a buffer of no bytes.
-/

namespace N2P

/-! ## Little pieces -/

/-- `append_le` of a `uint32_t`. -/
def leBytes (v : UInt32) : Bytes :=
  [(v &&& 0xFF).toUInt8, ((v >>> 8) &&& 0xFF).toUInt8, ((v >>> 16) &&& 0xFF).toUInt8,
   ((v >>> 24) &&& 0xFF).toUInt8]

/-- `append_le(out, static_cast<std::uint32_t>(n))`. -/
def leSize (n : Nat) : Bytes := leBytes (UInt32.ofNat n)

/-- `arr.buffers[k]`, as the bytes behind it. -/
def ArrowArray.data (a : ArrowArray) (k : Nat) : Except Fault Bytes :=
  (a.buffer k).map fun p => p.getD []

/-- The rows of a list of indices that are valid, each read by `f`. -/
def forValid {α : Type} (validity : Option Bytes) (f : Nat → Except Fault α) :
    List Nat → Except Fault (List α)
  | [] => .ok []
  | i :: is =>
    match validBit validity i with
    | .error e => .error e
    | .ok false => forValid validity f is
    | .ok true =>
      match f i with
      | .error e => .error e
      | .ok a => (forValid validity f is).map (a :: ·)

/-- `memcpy` of the first `n` bytes. -/
def readPrefix (src : Bytes) (n : Nat) : Except Fault Bytes :=
  if n ≤ src.length then .ok (src.take n) else .error .undefined

/-! ## PLAIN bodies -/

/-- `append_widened`: a 1- or 2-byte integer as the INT32 it is stored as. -/
def widened (s : ColumnSpec) (src : Bytes) (i : Nat) : Except Fault Bytes :=
  if s.srcWidth = 1 then
    match readElem 1 src i with
    | .ok [b] => .ok (leBytes (if s.signExtend then b.toInt8.toInt32.toUInt32 else b.toUInt32))
    | _ => .error .undefined
  else
    match readElem 2 src i with
    | .ok [lo, hi] =>
      let raw : UInt16 := lo.toUInt16 ||| (hi.toUInt16 <<< 8)
      .ok (leBytes (if s.signExtend then raw.toInt16.toInt32.toUInt32 else raw.toUInt32))
    | _ => .error .undefined

/-- `build_plain_fixed`. -/
def buildPlainFixed (arr : ArrowArray) (s : ColumnSpec) (validity : Option Bytes) :
    Except Fault Bytes :=
  let n := toSize arr.length
  match arr.data 1 with
  | .error e => .error e
  | .ok src =>
    match s.extract with
    | .memcpyFixed =>
      match validity with
      | none => readPrefix src (n * s.srcWidth) -- byte-identical to Arrow
      | some _ =>
        (forValid validity (fun i => readElem s.srcWidth src i) (List.range n)).map List.flatten
    | _ => (forValid validity (fun i => widened s src i) (List.range n)).map List.flatten

/-- One present bit appended to a body that holds `outBit` of them. -/
def packBit (st : Bytes × Nat) (bit : Bool) : Bytes × Nat :=
  let body := if st.2 % 8 = 0 then st.1 ++ [0] else st.1
  let body := if bit then body.dropLast ++ [body.getLastD 0 ||| UInt8.ofNat (1 <<< (st.2 % 8))]
    else body
  (body, st.2 + 1)

/-- `build_plain_bool`. -/
def buildPlainBool (arr : ArrowArray) (validity : Option Bytes) : Except Fault Bytes :=
  let n := toSize arr.length
  match arr.data 1 with
  | .error e => .error e
  | .ok src =>
    match validity with
    | none => readPrefix src ((n + 7) % 2 ^ 64 / 8)
    | some _ =>
      (forValid validity (fun i => readBit src i) (List.range n)).map fun bits =>
        (bits.foldl packBit ([], 0)).1

/-! ## Strings and binary -/

/-- `ByteArrayPages`; `stats` is `none` when no value is comparable. -/
structure ByteArrayPages where
  useDictionary : Bool := true
  dataEncoding : Encoding := .rleDictionary
  dictBody : Bytes := []
  dataBody : Bytes := []
  dictSize : Nat := 0
  stats : Option (Bytes × Bytes) := none

def kEncAuto : Nat := 0
def kEncPlain : Nat := 1
def kEncDelta : Nat := 2
def kEncByteStreamSplit : Nat := 3

/-- `value_at`: the bytes between two offsets, viewed in the data buffer. -/
def valueAt (s : ColumnSpec) (off data : Bytes) (i : Nat) : Except Fault Bytes :=
  let w := if s.largeOffsets then 8 else 4
  match readOffset w off i, readOffset w off (i + 1) with
  | .ok start, .ok stop =>
    if 0 ≤ start ∧ start ≤ stop ∧ stop ≤ data.length then
      .ok ((data.drop start.toNat).take (stop - start).toNat)
    else .error .undefined
  | _, _ => .error .undefined

/-- The length-prefixed layout of a list of byte strings. -/
def plainByteArrays (vs : List Bytes) : Bytes := vs.flatMap fun v => leSize v.length ++ v

/-- `index_of` on every value in turn: the indices and the final dictionary. -/
def indexAll (X : External) (d : X.Dictionary) : List Bytes → List Nat × X.Dictionary
  | [] => ([], d)
  | v :: vs =>
    let r := X.indexOf d v
    let rs := indexAll X r.2 vs
    (r.1 :: rs.1, rs.2)

/-- Total bytes of a list of strings. -/
def totalSize (vs : List Bytes) : Nat := (vs.map List.length).sum

/-- `build_byte_array_pages`, once the present values are collected. -/
def byteArrayPages (X : External) (present : List Bytes) (mode : Nat) :
    Except Fault ByteArrayPages :=
  let plainBody (stats : Option (Bytes × Bytes)) : ByteArrayPages :=
    { useDictionary := false, dataEncoding := .plain, dataBody := plainByteArrays present, stats }
  if mode = kEncPlain then .ok (plainBody (X.computeBinaryStats present))
  else if mode = kEncDelta then
    match X.deltaPrefixEncode present with
    | none => .error (.thrown "a string longer than 2 GiB")
    | some enc =>
      .ok { useDictionary := false, dataEncoding := .deltaByteArray, dataBody := enc,
            stats := X.computeBinaryStats present }
  else
    let r := indexAll X X.emptyDictionary present
    let dict := X.dictionaryValues r.2
    let stats := X.computeBinaryStats dict
    let dictBodyBytes := 4 * dict.length + totalSize dict
    let bitWidth := dictionaryBitWidth dict.length
    let idxEncoded := X.rleHybridEncode r.1 bitWidth
    let dictTotal := dictBodyBytes + 1 + idxEncoded.length
    let plainTotal := 4 * present.length + totalSize present
    if plainTotal < dictTotal then .ok (plainBody stats)
    else
      .ok { useDictionary := true, dictSize := dict.length, dictBody := plainByteArrays dict,
            dataBody := UInt8.ofNat bitWidth :: idxEncoded, stats }

/-- `build_byte_array_pages`. -/
def buildByteArrayPages (X : External) (arr : ArrowArray) (s : ColumnSpec)
    (validity : Option Bytes) (mode : Nat) : Except Fault ByteArrayPages :=
  let n := toSize arr.length
  match arr.data 1, arr.data 2 with
  | .ok off, .ok data =>
    match forValid validity (fun i => valueAt s off data i) (List.range n) with
    | .error e => .error e
    | .ok present => byteArrayPages X present mode
  | _, _ => .error .undefined

/-! ## Fixed-width encodings -/

/-- The `w`-byte groups of a dense body. -/
def chunks (w : Nat) (n : Nat) (bs : Bytes) : List Bytes :=
  (List.range n).map fun i => (bs.drop (i * w)).take w

/-- `encode_fixed_values`. -/
def encodeFixedValues (X : External) (values : Bytes) (s : ColumnSpec) (mode : Nat) :
    Encoding × Bytes :=
  if mode = kEncDelta ∧ (s.type = .int32 ∨ s.type = .int64) then
    let w := if s.type = .int32 then 4 else 8
    (.deltaBinaryPacked,
      X.deltaBinaryPackedEncode w ((chunks w (values.length / w) values).map signedLE))
  else if mode = kEncByteStreamSplit ∧ (s.type = .float ∨ s.type = .double) then
    let w := if s.type = .float then 4 else 8
    (.byteStreamSplit, X.byteStreamSplitEncode values w (values.length / w))
  else (.plain, values)

/-! ## Statistics -/

/-- `has_minmax`, `min_value` and `max_value` of a chunk. -/
abbrev MinMax := Option (Bytes × Bytes)

/-- `plain_bytes` of a `w`-byte value. -/
def plainBytes (w : Nat) (v : Int) : Bytes := ByteSeq.toLE w (v % 256 ^ w).toNat

/-- Element bytes and widening of each instantiation: source width, signed reading, stored width. -/
def StatType.layout : StatType → Nat × Bool × Nat
  | .int8 => (1, true, 4)
  | .uint8 => (1, false, 4)
  | .int16 => (2, true, 4)
  | .uint16 => (2, false, 4)
  | .int32 => (4, true, 4)
  | .uint32 => (4, false, 4)
  | .int64 => (8, true, 8)
  | .uint64 => (8, false, 8)
  | .float => (4, false, 4)
  | .double => (8, false, 8)

/-- `put(compute_stats<T>(...), widen)`. -/
def typedStats (X : External) (t : StatType) (src : Bytes) (n : Nat) (validity : Option Bytes) :
    Except Fault MinMax :=
  let (w, signed, out) := t.layout
  match readPrefix src (n * w) with
  | .error e => .error e
  | .ok bs =>
    let elems := (chunks w n bs).map fun b => if signed then signedLE b else (ByteSeq.ofLE b : Int)
    .ok ((X.computeStats t elems validity).map fun m => (plainBytes out m.1, plainBytes out m.2))

/-- `is_unsigned`. -/
def ColumnSpec.isUnsigned (s : ColumnSpec) : Bool :=
  s.converted = some .uint8 || s.converted = some .uint16 || s.converted = some .uint32 ||
    s.converted = some .uint64

/-- The early-exit scan for true and false values. -/
def boolScan (validity : Option Bytes) (bits : Bytes) : List Nat → Bool → Bool →
    Except Fault (Bool × Bool)
  | [], anyTrue, anyFalse => .ok (anyTrue, anyFalse)
  | i :: is, anyTrue, anyFalse =>
    if anyTrue && anyFalse then .ok (anyTrue, anyFalse)
    else
      match validBit validity i with
      | .error e => .error e
      | .ok false => boolScan validity bits is anyTrue anyFalse
      | .ok true =>
        match readBit bits i with
        | .error e => .error e
        | .ok b =>
          if b then boolScan validity bits is true anyFalse
          else boolScan validity bits is anyTrue true

/-- `fixed_stats`. -/
def fixedStats (X : External) (arr : ArrowArray) (s : ColumnSpec) (validity : Option Bytes) :
    Except Fault MinMax :=
  let n := toSize arr.length
  if s.extract = .null then .ok none
  else
    match arr.data 1 with
    | .error e => .error e
    | .ok src =>
      match s.extract with
      | .bool =>
        (boolScan validity src (List.range n) false false).map fun (anyTrue, anyFalse) =>
          if anyTrue || anyFalse then
            some ([if anyFalse then 0 else 1], [if anyTrue then 1 else 0])
          else none
      | .widenInt =>
        let t : StatType :=
          if s.srcWidth = 1 then (if s.signExtend then .int8 else .uint8)
          else if s.signExtend then .int16 else .uint16
        typedStats X t src n validity
      | .memcpyFixed =>
        match s.type with
        | .int32 => typedStats X (if s.isUnsigned then .uint32 else .int32) src n validity
        | .int64 => typedStats X (if s.isUnsigned then .uint64 else .int64) src n validity
        | .float => typedStats X .float src n validity
        | .double => typedStats X .double src n validity
        | .fixedLenByteArray =>
          (forValid validity (fun i => readElem s.typeLength src i) (List.range n)).map
            X.computeBinaryStats
        | _ => .ok none
      | _ => .ok none

end N2P
