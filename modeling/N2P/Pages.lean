import N2P.Lib.ByteSink
import N2P.Lib.Outcome
import N2P.PageBodies
import N2P.Shredder

/-!
# The writer's state and the pages of one column chunk

`N2PWriter`, the level streams of `rle_bitpack.hpp`, the codec wrapper of `compress.hpp`, the page
headers, `emit_page` and `write_leaf_pages`.

A step of the writer is an `EStateM` program over the writer's state: on an early return or an
exception the state stays as it is at that point, bytes already streamed included.
-/

namespace N2P

/-! ## Level streams, codec and page headers -/

def INT32_MAX : Nat := 2 ^ 31 - 1
def UINT32_MAX : Nat := 2 ^ 32 - 1

/-- `with_length_prefix`. -/
def withLengthPrefix (run : Bytes) : Except Fault Bytes :=
  if run.length > UINT32_MAX then .error (.thrown "definition levels larger than 4 GiB")
  else .ok (leSize run.length ++ run)

/-- `encode_definition_levels`. -/
def encodeDefinitionLevels (X : External) (levels : List Nat) (bitWidth : Nat) :
    Except Fault Bytes :=
  withLengthPrefix (X.rleHybridEncode levels bitWidth)

/-- `encode_definition_levels_bitmap`. -/
def encodeDefinitionLevelsBitmap (X : External) (present : Bytes) (n : Nat) :
    Except Fault Bytes :=
  withLengthPrefix (X.rleBitmapEncode present n)

/-- `compress_page`. -/
def compressPage (X : External) (src : Bytes) (codec : CompressionCodec) : Except Fault Bytes :=
  match codec with
  | .uncompressed => .ok src
  | .zstd =>
    match X.zstdCompress src with
    | .error e => .error (.thrown ("zstd compression failed: " ++ e))
    | .ok dst => .ok dst

/-- `page_size_i32`. -/
def pageSizeI32 (n : Nat) : Except Fault Nat :=
  if n > INT32_MAX then
    .error (.thrown "a page larger than 2 GiB (Parquet page sizes are i32)")
  else .ok n

/-- `encode_page_header`. -/
def encodePageHeader (X : External) (h : PageHeader) : Except Fault Bytes :=
  match X.encodePageHeader h with
  | .error e => .error (.thrown ("page header encoding failed: " ++ e))
  | .ok bytes => .ok bytes

/-- The header of a data page, before it is encoded. -/
def dataPage (numValues : Nat) (encoding : Encoding) (uncompressed compressed : Nat) : PageHeader :=
  { type := .dataPage, uncompressedPageSize := uncompressed, compressedPageSize := compressed,
    dataPageHeader := some
      { numValues, encoding, definitionLevelEncoding := .rle, repetitionLevelEncoding := .rle },
    dictionaryPageHeader := none }

/-- The header of a dictionary page, before it is encoded. -/
def dictionaryPage (numValues uncompressed compressed : Nat) : PageHeader :=
  { type := .dictionaryPage, uncompressedPageSize := uncompressed,
    compressedPageSize := compressed, dataPageHeader := none,
    dictionaryPageHeader := some { numValues, encoding := .plain, isSorted := false } }

/-- The three `page_size_i32` checks both header builders make. -/
def checkSizes (numValues uncompressed compressed : Nat) : Except Fault Unit :=
  match pageSizeI32 numValues, pageSizeI32 uncompressed, pageSizeI32 compressed with
  | .ok _, .ok _, .ok _ => .ok ()
  | .error e, _, _ => .error e
  | _, .error e, _ => .error e
  | _, _, .error e => .error e

/-- `data_page_header`. -/
def dataPageHeader (X : External) (numValues : Nat) (encoding : Encoding)
    (uncompressed compressed : Nat) : Except Fault Bytes :=
  match checkSizes numValues uncompressed compressed with
  | .error e => .error e
  | .ok () => encodePageHeader X (dataPage numValues encoding uncompressed compressed)

/-- `dictionary_page_header`. -/
def dictionaryPageHeader (X : External) (numValues uncompressed compressed : Nat) :
    Except Fault Bytes :=
  match checkSizes numValues uncompressed compressed with
  | .error e => .error e
  | .ok () => encodePageHeader X (dictionaryPage numValues uncompressed compressed)

/-! ## The writer object -/

structure ColumnChunkMeta where
  type : PhysicalType
  encodings : List Encoding := []
  path : List String
  numValues : Int := 0
  totalUncompressed : Nat := 0
  totalCompressed : Nat := 0
  dataPageOffset : Nat := 0
  dictionaryPageOffset : Nat := 0
  hasDictionary : Bool := false
  fileOffset : Nat := 0
  minMax : MinMax := none
  nullCount : Int := 0
  deriving DecidableEq, Repr

structure RowGroupMeta where
  columns : List ColumnChunkMeta := []
  numRows : Int := 0
  totalByteSize : Nat := 0
  deriving DecidableEq, Repr

/-- `N2PWriter`. -/
structure Writer where
  out : ByteSink
  path : String
  offset : Nat := 0
  codec : CompressionCodec := .zstd
  encoding : Nat := 0
  schemaLocked : Bool := false
  schemaNodes : List SchemaNode := []
  leaves : List LeafSpec := []
  topChildren : Nat := 0
  rowGroups : List RowGroupMeta := []
  totalRows : Int := 0
  footerWritten : Bool := false
  lastError : String := ""
  deriving DecidableEq, Repr

/-- How a step of the writer ends early: a status and the error set, an exception on its way to the
    handler, or undefined behaviour. -/
inductive Exit where
  | refused (status : N2PStatus) (why : Refusal)
  | thrown (what : String)
  | undefined
  deriving DecidableEq, Repr

abbrev WriterM := EStateM Exit Writer

/-- `w.last_error = ...; return status;` -/
def refuse {α : Type} (status : N2PStatus) (why : Refusal) : WriterM α := do
  modify fun w => { w with lastError := why.text }
  throw (.refused status why)

/-- Run a check inside a step; an error it reports is an invalid argument. -/
def raise {α : Type} (x : Except Fault α) : WriterM α :=
  match x with
  | .ok a => pure a
  | .error (.refused why) => refuse .invalidArgument why
  | .error (.thrown what) => throw (.thrown what)
  | .error .undefined => throw .undefined

/-! ## Pages -/

/-- `write_bytes`. -/
def writeBytes (bytes : Bytes) : WriterM Unit :=
  modify fun w => { w with out := w.out.write bytes, offset := w.offset + bytes.length }

/-- Bytes on disk and uncompressed total of a page, both with its header. -/
structure PageBytes where
  onDisk : Nat
  uncompressed : Nat

/-- `emit_page`. -/
def emitPage (header compressedBody : Bytes) (uncompressedBody : Nat) : WriterM PageBytes := do
  writeBytes header
  writeBytes compressedBody
  pure { onDisk := header.length + compressedBody.length,
         uncompressed := header.length + uncompressedBody }

/-- Compress, label and emit a data page: the last five lines of each branch of
    `write_leaf_pages`.  Returns where the page starts. -/
def emitDataPage (X : External) (numLevels : Nat) (encoding : Encoding) (body : Bytes) :
    WriterM (Nat × PageBytes) := do
  let w ← get
  let comp ← raise (compressPage X body w.codec)
  let header ← raise (dataPageHeader X numLevels encoding body.length comp.length)
  let pages ← emitPage header comp body.length
  pure (w.offset, pages)

/-- `{encodings..., RLE if the page carries levels}`. -/
def withLevels (encodings : List Encoding) (hasLevels : Bool) : List Encoding :=
  if hasLevels then encodings ++ [.rle] else encodings

/-- The value bytes of a fixed-width, boolean or null leaf, and their encoding. -/
def fixedBody (X : External) (arr : ArrowArray) (s : ColumnSpec) (validity : Option Bytes)
    (mode : Nat) : Except Fault (Encoding × Bytes) :=
  match s.extract with
  | .bool => (buildPlainBool arr validity).map fun v => (.plain, v)
  | .null => .ok (.plain, [])
  | _ => (buildPlainFixed arr s validity).map fun v => encodeFixedValues X v s mode

/-- `write_leaf_pages`: one column chunk's pages, dictionary page first when there is one. -/
def writeLeafPages (X : External) (arr : ArrowArray) (s : ColumnSpec) (validity : Option Bytes)
    (levelPrefix : Bytes) (numLevels : Nat) (hasLevels : Bool) (c : ColumnChunkMeta) :
    WriterM ColumnChunkMeta := do
  let w ← get
  if s.extract = .byteArray then
    let pages ← raise (buildByteArrayPages X arr s validity w.encoding)
    let c := { c with minMax := pages.stats }
    if pages.useDictionary then
      let dictComp ← raise (compressPage X pages.dictBody w.codec)
      let dictHdr ←
        raise (dictionaryPageHeader X pages.dictSize pages.dictBody.length dictComp.length)
      let dp ← emitPage dictHdr dictComp pages.dictBody.length
      let vp ← emitDataPage X numLevels .rleDictionary (levelPrefix ++ pages.dataBody)
      pure { c with
        dictionaryPageOffset := w.offset, hasDictionary := true, dataPageOffset := vp.1,
        totalUncompressed := dp.uncompressed + vp.2.uncompressed,
        totalCompressed := dp.onDisk + vp.2.onDisk,
        encodings := withLevels [.plain, .rleDictionary] hasLevels }
    else
      let vp ← emitDataPage X numLevels pages.dataEncoding (levelPrefix ++ pages.dataBody)
      pure { c with
        dataPageOffset := vp.1, totalUncompressed := vp.2.uncompressed,
        totalCompressed := vp.2.onDisk,
        encodings := withLevels [pages.dataEncoding] hasLevels }
  else
    let stats ← raise (fixedStats X arr s validity)
    let c := { c with minMax := stats }
    let (enc, v) ← raise (fixedBody X arr s validity w.encoding)
    let vp ← emitDataPage X numLevels enc (levelPrefix ++ v)
    pure { c with
      dataPageOffset := vp.1, totalUncompressed := vp.2.uncompressed,
      totalCompressed := vp.2.onDisk, encodings := withLevels [enc] hasLevels }

end N2P
