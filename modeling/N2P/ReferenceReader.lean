import N2P.FileReader
import N2P.Reference
import N2P.Lib.Scan

/-!
# Reference decoders

Decoders of what the encoders of `Reference` put out: Thrift's compact protocol read back into a
tree of values and from there into page headers and footers, and frames of one raw block.  The
encoders are those of `Reference`, except that a header or a footer no decoder restores is refused
(a number of more than ten groups, a name outside ASCII).

* `readableDecoders_invert` — a whole file can be read back.
-/

namespace N2P

/-! ## Thrift compact protocol -/

inductive ThriftValue where
  | bool (b : Bool)
  | number (n : Int)
  | binary (bs : Bytes)
  | list (items : List ThriftValue)
  | struct (fields : List (Nat × ThriftValue))

namespace ThriftValue

def scanVarint : (fuel : Nat) → Scan UInt8 Nat
  | 0 => failure
  | fuel + 1 => do
    let b ← Scan.next
    if b.toNat < 128 then pure b.toNat else (fun n => b.toNat - 128 + 128 * n) <$> scanVarint fuel

def scanInt : Scan UInt8 Int :=
  (fun n : Nat => if n % 2 = 0 then (n / 2 : Int) else -((n + 1) / 2 : Int)) <$> scanVarint 10

/-- The number of items of a list: in its first byte, unless it is fifteen or more. -/
def scanCount (b : UInt8) : Scan UInt8 Nat :=
  if b.toNat / 16 < 15 then pure (b.toNat / 16) else scanVarint 5

/-- The fields of a struct, up to its stop. -/
def scanFields (value : Nat → Scan UInt8 ThriftValue) :
    (fuel last : Nat) → Scan UInt8 (List (Nat × ThriftValue))
  | 0, _ => failure
  | fuel + 1, last => do
    let b ← Scan.next
    if b = 0 then pure [] else do
      let v ← value (b.toNat % 16)
      let fields ← scanFields value fuel (last + b.toNat / 16)
      pure ((last + b.toNat / 16, v) :: fields)

/-- A value of a compact type. -/
def scan : (fuel type : Nat) → Scan UInt8 ThriftValue
  | 0, _ => failure
  | fuel + 1, type =>
    if type = 1 then pure (.bool true)
    else if type = 2 then pure (.bool false)
    else if type = 5 ∨ type = 6 then .number <$> scanInt
    else if type = 8 then .binary <$> (scanVarint 5 >>= Scan.take)
    else if type = 9 then do
      let b ← Scan.next
      let n ← scanCount b
      .list <$> Scan.times (scan fuel (b.toNat % 16)) n
    else if type = 12 then .struct <$> scanFields (scan fuel) fuel 0
    else failure

theorem local_scanVarint (fuel : Nat) : Scan.Local (scanVarint fuel) := by
  induction fuel with
  | zero => exact Scan.local_failure
  | succ fuel ih =>
    refine Scan.local_next.bind fun b => ?_
    split
    · exact Scan.local_pure _
    · exact ih.map _

theorem local_scanCount (b : UInt8) : Scan.Local (scanCount b) := by
  unfold scanCount
  split
  · exact Scan.local_pure _
  · exact local_scanVarint 5

theorem local_scanFields {value : Nat → Scan UInt8 ThriftValue}
    (hvalue : ∀ type, Scan.Local (value type)) (fuel : Nat) :
    ∀ last, Scan.Local (scanFields value fuel last) := by
  induction fuel with
  | zero => exact fun _ => Scan.local_failure
  | succ fuel ih =>
    refine fun last => Scan.local_next.bind fun b => ?_
    split
    · exact Scan.local_pure _
    · exact (hvalue _).bind fun v => (ih _).bind fun fields => Scan.local_pure _

theorem local_scan (fuel : Nat) : ∀ type, Scan.Local (scan fuel type) := by
  induction fuel with
  | zero => exact fun _ => Scan.local_failure
  | succ fuel ih =>
    intro type
    unfold scan
    split_ifs
    · exact Scan.local_pure _
    · exact Scan.local_pure _
    · exact ((local_scanVarint 10).map _).map _
    · exact ((local_scanVarint 5).bind Scan.local_take).map _
    · exact Scan.local_next.bind fun b => (local_scanCount b).bind fun n => ((ih _).times n).map _
    · exact (local_scanFields ih fuel 0).map _
    · exact Scan.local_failure

/-! ## Values of a struct -/

def field (v : ThriftValue) (id : Nat) : Option ThriftValue :=
  match v with
  | .struct fields => (fields.find? (·.1 = id)).map (·.2)
  | _ => none

def int : ThriftValue → Option Int
  | .number n => some n
  | _ => none

def nat : ThriftValue → Option Nat
  | .number (.ofNat n) => some n
  | _ => none

def flag : ThriftValue → Option Bool
  | .bool b => some b
  | _ => none

def bytes : ThriftValue → Option Bytes
  | .binary bs => some bs
  | _ => none

/-- An ASCII text. -/
def text (v : ThriftValue) : Option String :=
  v.bytes.map fun bs => String.ofList (bs.map fun b => Char.ofNat b.toNat)

/-- What a list holds, item by item. -/
def items {α : Type} (item : ThriftValue → Option α) : ThriftValue → Option (List α)
  | .list vs => vs.mapM item
  | _ => none

/-- The one of these with the id. -/
def oneOf {α : Type} (id : α → Int) (all : List α) (v : ThriftValue) : Option α :=
  v.int.bind fun n => all.find? (id · = n)

/-- A field that must be there. -/
def required {α : Type} (v : ThriftValue) (id : Nat) (as : ThriftValue → Option α) : Option α :=
  (v.field id).bind as

/-- A field that may be missing. -/
def optional {α : Type} (v : ThriftValue) (id : Nat) (as : ThriftValue → Option α) :
    Option (Option α) :=
  match v.field id with
  | none => some none
  | some w => (as w).map some

end ThriftValue

open ThriftValue

def allPhysicalTypes : List PhysicalType :=
  [.boolean, .int32, .int64, .float, .double, .byteArray, .fixedLenByteArray]

def allEncodings : List Encoding :=
  [.plain, .rle, .deltaBinaryPacked, .deltaByteArray, .rleDictionary, .byteStreamSplit]

def allConvertedTypes : List ConvertedType :=
  [.utf8, .map, .list, .uint8, .uint16, .uint32, .uint64, .int8, .int16]

def DataPageHeader.ofThrift (v : ThriftValue) : Option DataPageHeader := do
  pure { numValues := ← v.required 1 nat
         encoding := ← v.required 2 (oneOf Encoding.id allEncodings)
         definitionLevelEncoding := ← v.required 3 (oneOf Encoding.id allEncodings)
         repetitionLevelEncoding := ← v.required 4 (oneOf Encoding.id allEncodings) }

def DictionaryPageHeader.ofThrift (v : ThriftValue) : Option DictionaryPageHeader := do
  pure { numValues := ← v.required 1 nat
         encoding := ← v.required 2 (oneOf Encoding.id allEncodings)
         isSorted := ← v.required 3 flag }

def PageHeader.ofThrift (v : ThriftValue) : Option PageHeader := do
  let type ← v.required 1 nat
  pure { type := ← if type = 0 then some .dataPage else if type = 2 then some .dictionaryPage
           else none
         uncompressedPageSize := ← v.required 2 nat
         compressedPageSize := ← v.required 3 nat
         dataPageHeader := ← v.optional 5 DataPageHeader.ofThrift
         dictionaryPageHeader := ← v.optional 7 DictionaryPageHeader.ofThrift }

def LogicalType.ofThrift (v : ThriftValue) : Option LogicalType :=
  [LogicalType.map, .list].find? fun l => (v.field l.id).isSome

def SchemaElement.ofThrift (v : ThriftValue) : Option SchemaElement := do
  pure { type := ← v.optional 1 (oneOf PhysicalType.id allPhysicalTypes)
         typeLength := ← v.optional 2 nat
         repetitionType := ← v.optional 3 (oneOf repetitionId [.required, .optional, .repeated])
         name := ← v.required 4 text
         numChildren := ← v.optional 5 nat
         convertedType := ← v.optional 6 (oneOf ConvertedType.id allConvertedTypes)
         logicalType := ← v.optional 10 LogicalType.ofThrift }

def Statistics.ofThrift (v : ThriftValue) : Option Statistics := do
  pure { nullCount := ← v.required 3 int
         minValue := ← v.optional 6 bytes
         maxValue := ← v.optional 5 bytes }

def ColumnMetaData.ofThrift (v : ThriftValue) : Option ColumnMetaData := do
  pure { type := ← v.required 1 (oneOf PhysicalType.id allPhysicalTypes)
         encodings := ← v.required 2 (items (oneOf Encoding.id allEncodings))
         pathInSchema := ← v.required 3 (items text)
         codec := ← v.required 4 (oneOf CompressionCodec.id [.uncompressed, .zstd])
         numValues := ← v.required 5 int
         totalUncompressedSize := ← v.required 6 nat
         totalCompressedSize := ← v.required 7 nat
         dataPageOffset := ← v.required 9 nat
         dictionaryPageOffset := ← v.optional 11 nat
         statistics := ← v.required 12 Statistics.ofThrift }

def ColumnChunk.ofThrift (v : ThriftValue) : Option ColumnChunk := do
  pure { fileOffset := ← v.required 2 nat
         metaData := ← v.required 3 ColumnMetaData.ofThrift }

def RowGroup.ofThrift (v : ThriftValue) : Option RowGroup := do
  pure { columns := ← v.required 1 (items ColumnChunk.ofThrift)
         totalByteSize := ← v.required 2 nat
         numRows := ← v.required 3 int }

def FileMetaData.ofThrift (v : ThriftValue) : Option FileMetaData := do
  pure { version := ← v.required 1 nat
         schema := ← v.required 2 (items SchemaElement.ofThrift)
         numRows := ← v.required 3 int
         rowGroups := ← v.required 4 (items RowGroup.ofThrift)
         createdBy := ← v.required 6 text
         columnOrders := ← v.required 7 (items fun _ => some .typeOrder) }

/-! ## Decoders -/

def scanPageHeader : Scan UInt8 PageHeader := do
  let v ← ThriftValue.scan 16 12
  match PageHeader.ofThrift v with
  | some h => pure h
  | none => failure

def readFooterBytes (bs : Bytes) : Option FileMetaData :=
  match ThriftValue.scan 16 12 bs with
  | some (v, []) => FileMetaData.ofThrift v
  | _ => none

theorem local_scanPageHeader : Scan.Local scanPageHeader := by
  refine (local_scan 16 12).bind fun v => ?_
  split
  · exact Scan.local_pure _
  · exact Scan.local_failure

/-- The frame's nine bytes in front of its block. -/
def zstdRawHeader (size : Nat) : Bytes :=
  [0x28, 0xB5, 0x2F, 0xFD, 0x20, UInt8.ofNat size] ++ ByteSeq.toLE 3 (8 * size + 1)

/-- The reference encoders, as far as their headers and footers can be read back. -/
def External.readable : External :=
  { External.reference with
    encodePageHeader := fun h =>
      if scanPageHeader h.thrift = some (h, []) then .ok h.thrift else .error "page header"
    encodeFooter := fun f =>
      if readFooterBytes f.thrift = some f then .ok f.thrift else .error "footer" }

def readableDecoders : FileDecoders :=
  { referenceDecoders with
    zstdDecompress := fun frame size =>
      if frame.take 9 = zstdRawHeader size ∧ (frame.drop 9).length = size then
        some (frame.drop 9)
      else none
    decodePageHeader := scanPageHeader
    decodeFooter := readFooterBytes }

/-- **The readable encoders are inverted.** -/
theorem readableDecoders_invert : readableDecoders.Inverts External.readable where
  toInverts := by
    have h := referenceDecoders_invert
    exact { h with }
  zstd := by
    intro bs z h
    change zstdRaw bs = .ok z at h
    unfold zstdRaw at h
    split at h
    · cases h
      have hlen : (zstdRawHeader bs.length).length = 9 := by simp [zstdRawHeader]
      show (if _ then _ else _) = _
      rw [show [0x28, 0xB5, 0x2F, 0xFD, 0x20, UInt8.ofNat bs.length] ++
        ByteSeq.toLE 3 (8 * bs.length + 1) = zstdRawHeader bs.length from rfl, ← hlen,
        List.take_left, List.drop_left, if_pos ⟨rfl, rfl⟩]
    · cases h
  pageHeader := by
    intro h bs rest hbs
    change (if _ then _ else _) = _ at hbs
    split at hbs
    · rename_i hread
      cases hbs
      exact local_scanPageHeader _ _ _ rest hread
    · cases hbs
  footer := by
    intro fm bs hbs
    change (if _ then _ else _) = _ at hbs
    split at hbs
    · rename_i hread
      cases hbs
      exact hread
    · cases hbs

end N2P
