import N2P.StringValues

/-!
# Reference encoders

A concrete `External`: Thrift compact headers and footers, zstd frames of one raw block, and a
plain stream of each columnar encoding.  Their decoders invert them (`referenceDecoders_invert`),
so that what is proved under `Decoders.Inverts` is about something, and small runs of the writer
can be evaluated.
-/

namespace N2P

/-- A writer just opened on a device that takes every byte. -/
def freshWriter : Writer := (n2pWriterOpen (.fresh 8191 none) "out.parquet").2

/-! ## Thrift compact protocol -/

/-- A base-128 number, low group first. -/
def varint : (fuel n : Nat) → Bytes
  | 0, _ => []
  | fuel + 1, n =>
    if n < 128 then [UInt8.ofNat n] else UInt8.ofNat (n % 128 + 128) :: varint fuel (n / 128)

/-- An `i32` or `i64`, zigzag coded. -/
def thriftInt (n : Int) : Bytes :=
  varint 10 (if n < 0 then (-2 * n - 1).toNat else (2 * n).toNat)

def thriftBinary (bs : Bytes) : Bytes := varint 5 bs.length ++ bs

def thriftString (s : String) : Bytes := thriftBinary (s.toList.flatMap String.utf8EncodeChar)

/-- A field's compact type and its bytes; a boolean is all in its type. -/
abbrev ThriftField := Nat × Bytes

def thriftI32 (n : Int) : ThriftField := (5, thriftInt n)
def thriftI64 (n : Int) : ThriftField := (6, thriftInt n)
def thriftBool (b : Bool) : ThriftField := (if b then 1 else 2, [])

/-- A struct: the fields that are present, by increasing id, then a stop. -/
def thriftStruct (last : Nat) : List (Nat × Option ThriftField) → Bytes
  | [] => [0]
  | (_, none) :: fields => thriftStruct last fields
  | (id, some (type, bs)) :: fields =>
    UInt8.ofNat (16 * (id - last) + type) :: bs ++ thriftStruct id fields

/-- A list of elements of one type. -/
def thriftList (type : Nat) (items : List Bytes) : ThriftField :=
  (9, (if items.length < 15 then [UInt8.ofNat (16 * items.length + type)]
    else UInt8.ofNat (240 + type) :: varint 5 items.length) ++ items.flatten)

def PhysicalType.id : PhysicalType → Int
  | .boolean => 0
  | .int32 => 1
  | .int64 => 2
  | .float => 4
  | .double => 5
  | .byteArray => 6
  | .fixedLenByteArray => 7

def Encoding.id : Encoding → Int
  | .plain => 0
  | .rle => 3
  | .deltaBinaryPacked => 5
  | .deltaByteArray => 7
  | .rleDictionary => 8
  | .byteStreamSplit => 9

def ConvertedType.id : ConvertedType → Int
  | .utf8 => 0
  | .map => 1
  | .list => 3
  | .uint8 => 11
  | .uint16 => 12
  | .uint32 => 13
  | .uint64 => 14
  | .int8 => 15
  | .int16 => 16

def LogicalType.id : LogicalType → Nat
  | .map => 2
  | .list => 3

def CompressionCodec.id : CompressionCodec → Int
  | .uncompressed => 0
  | .zstd => 6

def repetitionId : FieldRepetitionType → Int
  | .required => 0
  | .optional => 1
  | .repeated => 2

def PageHeader.thrift (h : PageHeader) : Bytes :=
  thriftStruct 0
    [(1, some (thriftI32 (match h.type with | .dataPage => 0 | .dictionaryPage => 2))),
     (2, some (thriftI32 h.uncompressedPageSize)),
     (3, some (thriftI32 h.compressedPageSize)),
     (5, h.dataPageHeader.map fun d => (12, thriftStruct 0
        [(1, some (thriftI32 d.numValues)), (2, some (thriftI32 d.encoding.id)),
         (3, some (thriftI32 d.definitionLevelEncoding.id)),
         (4, some (thriftI32 d.repetitionLevelEncoding.id))])),
     (7, h.dictionaryPageHeader.map fun d => (12, thriftStruct 0
        [(1, some (thriftI32 d.numValues)), (2, some (thriftI32 d.encoding.id)),
         (3, some (thriftBool d.isSorted))]))]

def SchemaElement.thrift (e : SchemaElement) : Bytes :=
  thriftStruct 0
    [(1, e.type.map fun t => thriftI32 t.id),
     (2, e.typeLength.map fun n => thriftI32 n),
     (3, e.repetitionType.map fun r => thriftI32 (repetitionId r)),
     (4, some (8, thriftString e.name)),
     (5, e.numChildren.map fun n => thriftI32 n),
     (6, e.convertedType.map fun c => thriftI32 c.id),
     (10, e.logicalType.map fun l => (12, thriftStruct 0 [(l.id, some (12, [0]))]))]

def ColumnChunk.thrift (c : ColumnChunk) : Bytes :=
  let m := c.metaData
  let statistics := thriftStruct 0
    [(3, some (thriftI64 m.statistics.nullCount)),
     (5, m.statistics.maxValue.map fun v => (8, thriftBinary v)),
     (6, m.statistics.minValue.map fun v => (8, thriftBinary v))]
  let metaData := thriftStruct 0
    [(1, some (thriftI32 m.type.id)),
     (2, some (thriftList 5 (m.encodings.map fun e => thriftInt e.id))),
     (3, some (thriftList 8 (m.pathInSchema.map thriftString))),
     (4, some (thriftI32 m.codec.id)),
     (5, some (thriftI64 m.numValues)),
     (6, some (thriftI64 m.totalUncompressedSize)),
     (7, some (thriftI64 m.totalCompressedSize)),
     (9, some (thriftI64 m.dataPageOffset)),
     (11, m.dictionaryPageOffset.map fun n => thriftI64 n),
     (12, some (12, statistics))]
  thriftStruct 0 [(2, some (thriftI64 c.fileOffset)), (3, some (12, metaData))]

def RowGroup.thrift (g : RowGroup) : Bytes :=
  thriftStruct 0
    [(1, some (thriftList 12 (g.columns.map ColumnChunk.thrift))),
     (2, some (thriftI64 g.totalByteSize)), (3, some (thriftI64 g.numRows))]

def FileMetaData.thrift (f : FileMetaData) : Bytes :=
  thriftStruct 0
    [(1, some (thriftI32 f.version)),
     (2, some (thriftList 12 (f.schema.map SchemaElement.thrift))),
     (3, some (thriftI64 f.numRows)),
     (4, some (thriftList 12 (f.rowGroups.map RowGroup.thrift))),
     (6, some (8, thriftString f.createdBy)),
     (7, some (thriftList 12 (f.columnOrders.map fun _ => thriftStruct 0 [(1, some (12, [0]))])))]

/-! ## Columnar encodings -/

/-- A zstd frame of one raw block. -/
def zstdRaw (bs : Bytes) : Except String Bytes :=
  if bs.length < 256 then
    .ok ([0x28, 0xB5, 0x2F, 0xFD, 0x20, UInt8.ofNat bs.length] ++
      ByteSeq.toLE 3 (8 * bs.length + 1) ++ bs)
  else .error "more than one block"

/-- RLE / bit-packed hybrid, one run for each value. -/
def singleRuns (values : List Nat) (width : Nat) : Bytes :=
  (values.map fun v => 2 :: ByteSeq.toLE ((width + 7) / 8) v).flatten

/-- Rows and columns of a `w`-byte matrix exchanged. -/
def transpose (bs : Bytes) (rows columns : Nat) : Bytes :=
  (List.range columns).flatMap fun k => (List.range rows).map fun i => bs.getD (i * columns + k) 0

/-- The strings behind their count; none when a length does not fit its prefix. -/
def countedStrings (vs : List Bytes) : Option Bytes :=
  if vs.length < 2 ^ 32 ∧ ∀ v ∈ vs, v.length < 2 ^ 32 then
    some (leSize vs.length ++ plainByteArrays vs)
  else none

/-- The index of a string, which is added when it is new. -/
def addString (d : List Bytes) (v : Bytes) : Nat × List Bytes :=
  if v ∈ d then (d.idxOf v, d) else (d.length, d ++ [v])

/-- The valid elements. -/
def validElements (elems : List Int) (validity : Option Bytes) : List Int :=
  (validRows validity elems.length).filterMap fun i => elems[i]?

/-- The smallest and the largest of a list. -/
def extremes {α : Type} [DecidableEq α] (le : α → α → Bool) : List α → Option (α × α)
  | [] => none
  | v :: vs =>
    some (vs.foldl (fun a b => if le b a then b else a) v,
      vs.foldl (fun a b => if le a b then b else a) v)

/-- Encoders that keep to each format's plainest stream. -/
def External.reference : External where
  zstdCompress := zstdRaw
  encodePageHeader h := .ok h.thrift
  encodeFooter f := .ok f.thrift
  rleHybridEncode := singleRuns
  rleBitmapEncode bm n := singleRuns ((List.range n).map fun i => (rowValid (some bm) i).toNat) 1
  Dictionary := List Bytes
  emptyDictionary := []
  indexOf := addString
  dictionaryValues d := d
  deltaBinaryPackedEncode w values := (values.map (plainBytes w)).flatten
  deltaPrefixEncode := countedStrings
  byteStreamSplitEncode bs w n := transpose bs n w
  computeStats t elems validity :=
    if t = .float ∨ t = .double then none
    else extremes (fun a b => a ≤ b) (validElements elems validity)
  computeBinaryStats := extremes fun a b => (a.map UInt8.toNat) ≤ (b.map UInt8.toNat)

/-- Their decoders. -/
def referenceDecoders : Decoders where
  rleHybrid bs width n :=
    (ByteSeq.pieces ((width + 7) / 8 + 1) n bs).map (List.map fun p => ByteSeq.ofLE p.tail)
  deltaBinaryPacked w bs := (ByteSeq.pieces w (bs.length / w) bs).map (List.map signedLE)
  deltaPrefix bs := readByteArrays (ByteSeq.ofLE (bs.take 4)) (bs.drop 4)
  byteStreamSplit bs w n := some (transpose bs w n)

theorem length_transpose (bs : Bytes) (rows columns : Nat) :
    (transpose bs rows columns).length = columns * rows := by
  unfold transpose
  induction columns with
  | zero => simp
  | succ k ih => simp_all [List.length_flatMap]

/-- An entry of the exchanged matrix. -/
theorem getElem?_transpose (bs : Bytes) {rows columns i k : Nat} (hi : i < rows)
    (hk : k < columns) :
    (transpose bs rows columns)[k * rows + i]? = some (bs.getD (i * columns + k) 0) := by
  have grid : ∀ n, k < n → ((List.range n).flatMap fun k =>
      (List.range rows).map fun i => bs.getD (i * columns + k) 0)[k * rows + i]? =
        some (bs.getD (i * columns + k) 0) := by
    intro n hn
    induction n with
    | zero => cases hn
    | succ n ih =>
      have hlen : ((List.range n).flatMap fun k =>
          (List.range rows).map fun i => bs.getD (i * columns + k) 0).length = n * rows := by
        simp [List.length_flatMap]
      rw [List.range_succ, List.flatMap_append]
      by_cases hkn : k < n
      · have hlt : k * rows + i < n * rows := by
          calc k * rows + i < (k + 1) * rows := by rw [Nat.succ_mul]; omega
            _ ≤ n * rows := Nat.mul_le_mul_right rows hkn
        rw [List.getElem?_append_left (by rw [hlen]; exact hlt), ih hkn]
      · have hkn : k = n := by omega
        subst hkn
        rw [List.getElem?_append_right (by omega), hlen, Nat.add_sub_cancel_left]
        simp [hi]
  exact grid columns hk

/-- Exchanging twice restores the matrix. -/
theorem transpose_transpose {bs : Bytes} {n w : Nat} (h : bs.length = n * w) :
    transpose (transpose bs n w) w n = bs := by
  refine List.ext_getElem? fun j => ?_
  by_cases hj : j < n * w
  · have hw : 0 < w := Nat.pos_of_ne_zero (by rintro rfl; simp at hj)
    have hi : j / w < n := (Nat.div_lt_iff_lt_mul hw).mpr hj
    have hk := Nat.mod_lt j hw
    have hdiv : j / w * w + j % w = j := by rw [Nat.mul_comm]; exact Nat.div_add_mod j w
    have houter := @getElem?_transpose (transpose bs n w) w n (j % w) (j / w) hk hi
    rw [hdiv] at houter
    rw [houter, List.getD_eq_getElem?_getD, getElem?_transpose bs hi hk, hdiv, Option.getD_some,
      List.getD_eq_getElem?_getD, List.getElem?_eq_getElem (by omega), Option.getD_some]
  · rw [List.getElem?_eq_none (by rw [length_transpose]; omega),
      List.getElem?_eq_none (by omega)]

/-- A number within the width is read back from its bytes. -/
theorem signedLE_plainBytes {w : Nat} {v : Int} (h : -(256 ^ w : Int) ≤ 2 * v)
    (h' : 2 * v < (256 ^ w : Int)) : signedLE (plainBytes w v) = v := by
  have hcast : (256 ^ w : Int) = ((256 ^ w : Nat) : Int) := by push_cast; rfl
  have hpos : 0 < 256 ^ w := Nat.pow_pos (by decide)
  unfold signedLE plainBytes
  rw [ByteSeq.ofLE_toLE, ByteSeq.length_toLE]
  rw [hcast] at h h' ⊢
  generalize 256 ^ w = m at *
  have hmod := Int.emod_nonneg v (by omega : (m : Int) ≠ 0)
  have hlt := Int.emod_lt_of_pos v (by omega : (0 : Int) < m)
  rw [Nat.mod_eq_of_lt (by omega), Int.toNat_of_nonneg hmod, Int.emod_bmod]
  exact Int.bmod_eq_of_le (by omega) (by omega)

/-- **The reference decoders invert the reference encoders.** -/
theorem referenceDecoders_invert : referenceDecoders.Inverts External.reference := by
  constructor
  · intro l w _ hl
    show (ByteSeq.pieces _ l.length (singleRuns l w)).map _ = _
    unfold singleRuns
    have hlen := @ByteSeq.pieces_flatten ((w + 7) / 8 + 1)
      (l.map fun v => 2 :: ByteSeq.toLE ((w + 7) / 8) v) (fun v hv => by
        obtain ⟨u, _, rfl⟩ := List.mem_map.mp hv
        simp)
    rw [List.length_map] at hlen
    rw [hlen, Option.map_some, List.map_map]
    congr 1
    refine (List.map_congr_left fun v hv => ?_).trans (List.map_id l)
    show ByteSeq.ofLE (ByteSeq.toLE ((w + 7) / 8) v) = v
    rw [ByteSeq.ofLE_toLE, Nat.mod_eq_of_lt]
    calc v < 2 ^ w := hl v hv
      _ ≤ 2 ^ (8 * ((w + 7) / 8)) := Nat.pow_le_pow_right (by decide) (by omega)
      _ = 256 ^ ((w + 7) / 8) := by rw [Nat.pow_mul]
  · intro w l hw hl
    have hlen : ∀ v ∈ l.map (plainBytes w), v.length = w := by
      intro v hv
      obtain ⟨u, _, rfl⟩ := List.mem_map.mp hv
      exact ByteSeq.length_toLE _ _
    show (ByteSeq.pieces w ((l.map (plainBytes w)).flatten.length / w) _).map _ = _
    rw [ByteSeq.length_flatten hlen, Nat.mul_div_cancel _ (by omega)]
    refine (congrArg (Option.map (List.map signedLE)) (ByteSeq.pieces_flatten hlen)).trans ?_
    rw [Option.map_some, List.map_map]
    congr 1
    refine (List.map_congr_left fun v hv => ?_).trans (List.map_id l)
    exact signedLE_plainBytes (hl v hv).1 (hl v hv).2
  · intro l bs h
    change countedStrings l = some bs at h
    unfold countedStrings at h
    split at h
    · rename_i hsmall
      cases h
      have hlen : (leSize l.length).length = 4 := length_leBytes _
      show readByteArrays _ _ = _
      rw [← hlen, List.take_left, List.drop_left, ofLE_leSize hsmall.1]
      exact readByteArrays_plain hsmall.2
    · cases h
  · intro bs w n h
    exact congrArg some (transpose_transpose h)
  · intro d v
    show (addString d v).2[(addString d v).1]? = some v
    unfold addString
    split
    · rename_i hmem
      rw [List.getElem?_eq_getElem (List.idxOf_lt_length_of_mem hmem)]
      exact congrArg some (List.getElem_idxOf _)
    · exact List.getElem?_concat_length
  · intro d v
    show d <+: (addString d v).2
    unfold addString
    split
    · exact List.prefix_rfl
    · exact List.prefix_append d [v]

end N2P
