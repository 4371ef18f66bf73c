import N2P.PageFraming

/-!
# Reading a file back

A reader of a whole file, written from the Parquet format apart from the writer.  It is given the
bytes and nothing else: the footer is found from the end of the file, the leaves and their
repetitions come from the footer's schema list, a chunk's pages from the offsets and sizes its entry
and the page headers give, and the rows from record assembly.

The decoders of zstd and of nanom's Thrift structs are parameters beside those of the columnar
encodings; `FileDecoders.Inverts` says what is relied on.

* `readFile` — the table: one list of columns for each row group.
-/

namespace N2P

open Preorder Preorder.RoseTree

/-! ## Decoders -/

/-- Decoders of everything the writer calls. -/
structure FileDecoders extends Decoders where
  /-- A zstd frame, and the size of what it holds. -/
  zstdDecompress : Bytes → Nat → Option Bytes
  /-- A page header, and what follows it. -/
  decodePageHeader : Bytes → Option (PageHeader × Bytes)
  decodeFooter : Bytes → Option FileMetaData

/-- The decoders invert the encoders.  A page header ends where its own encoding says. -/
structure FileDecoders.Inverts (R : FileDecoders) (X : External) : Prop
    extends Decoders.Inverts R.toDecoders X where
  zstd : ∀ bs z : Bytes, X.zstdCompress bs = .ok z → R.zstdDecompress z bs.length = some bs
  pageHeader : ∀ (h : PageHeader) (bs rest : Bytes), X.encodePageHeader h = .ok bs →
    R.decodePageHeader (bs ++ rest) = some (h, rest)
  footer : ∀ (fm : FileMetaData) (bs : Bytes), X.encodeFooter fm = .ok bs →
    R.decodeFooter bs = some fm

/-! ## Pages -/

/-- A page body, decompressed. -/
def readBody (R : FileDecoders) (codec : CompressionCodec) (stored : Bytes) (size : Nat) :
    Option Bytes :=
  match codec with
  | .uncompressed => if stored.length = size then some stored else none
  | .zstd => R.zstdDecompress stored size

/-- The page at an offset: its header, then as many bytes as the header says. -/
def readPageAt (R : FileDecoders) (codec : CompressionCodec) (file : Bytes) (offset : Nat) :
    Option (PageHeader × Bytes) :=
  (R.decodePageHeader (file.drop offset)).bind fun (h, rest) =>
    if h.compressedPageSize ≤ rest.length then
      (readBody R codec (rest.take h.compressedPageSize) h.uncompressedPageSize).map (h, ·)
    else none

/-- The entry count and body of the dictionary page, where the entry names one. -/
def readDictionary (R : FileDecoders) (file : Bytes) (cc : ColumnChunk) :
    Option (Option (Nat × Bytes)) :=
  match cc.metaData.dictionaryPageOffset with
  | none => some none
  | some offset =>
    (readPageAt R cc.metaData.codec file offset).bind fun (h, body) =>
      h.dictionaryPageHeader.map fun d => some (d.numValues, body)

/-- The header and body of the data page. -/
def readDataPage (R : FileDecoders) (file : Bytes) (cc : ColumnChunk) :
    Option (DataPageHeader × Bytes) :=
  (readPageAt R cc.metaData.codec file cc.metaData.dataPageOffset).bind fun (h, body) =>
    h.dataPageHeader.map (·, body)

/-! ## Columns -/

/-- A column of a table: the names and repetitions on its path, and what each row holds. -/
structure TableColumn where
  path : List String
  repetitions : List FieldRepetitionType
  records : List (Dremel.Val Value repetitions)

/-- A data page's levels and values. -/
structure PageContents where
  levels : List (Nat × Nat)
  values : List Value
  deriving DecidableEq, Repr

/-- What a data page holds, for a leaf of this type with these maximal levels. -/
def readContents (R : FileDecoders) (e : SchemaElement) (maxRep maxDef : Nat)
    (dict : Option (Nat × Bytes)) (h : DataPageHeader) (body : Bytes) : Option PageContents :=
  (readPage R.toDecoders maxRep maxDef h.numValues body).bind fun (reps, dfns, bytes) =>
    e.type.bind fun type =>
      (readValues R.toDecoders type (e.typeLength.getD 0) (dfns.count maxDef) dict h.encoding
        bytes).map fun values => ⟨reps.zip dfns, values⟩

/-- The records on a path of the schema. -/
def assembleColumn (path : List SchemaElement) (contents : PageContents) : Option TableColumn :=
  (path.mapM SchemaElement.repetitionType).bind fun repetitions =>
    (Dremel.assemble repetitions (readerMaxDef path) contents.levels contents.values).map
      fun records => ⟨path.map (·.name), repetitions, records⟩

/-- A column chunk, along the path of its leaf in the schema. -/
def readChunk (R : FileDecoders) (file : Bytes) (path : List SchemaElement) (cc : ColumnChunk) :
    Option TableColumn :=
  path.getLast?.bind fun e =>
    if cc.metaData.pathInSchema = path.map (·.name) ∧ e.type = some cc.metaData.type then
      (readDictionary R file cc).bind fun dict =>
        (readDataPage R file cc).bind fun (h, body) =>
          if (h.numValues : Int) = cc.metaData.numValues then
            (readContents R e (readerMaxRep path) (readerMaxDef path) dict h body).bind
              (assembleColumn path)
          else none
    else none

/-! ## The file -/

/-- The paths of the schema's leaves, without the root. -/
def leafPaths (schema : List SchemaElement) : Option (List (List SchemaElement)) :=
  (decode SchemaElement.childCount schema).map fun t =>
    (paths SchemaElement.isPrimitive t).map List.tail

/-- The columns of a row group, one for each leaf, all of them as long as the row group. -/
def readRowGroup (R : FileDecoders) (file : Bytes) (leaves : List (List SchemaElement))
    (rg : RowGroup) : Option (List TableColumn) :=
  if rg.columns.length = leaves.length then
    ((leaves.zip rg.columns).mapM fun (path, cc) => readChunk R file path cc).bind fun columns =>
      if ∀ c ∈ columns, (c.records.length : Int) = rg.numRows then some columns else none
  else none

/-- The footer: magic at both ends, and in front of the second one the footer and its length. -/
def readFooter (R : FileDecoders) (file : Bytes) : Option FileMetaData :=
  let n := file.length
  let len := ByteSeq.ofLE ((file.drop (n - 8)).take 4)
  if file.take 4 = kMagic ∧ file.drop (n - 4) = kMagic ∧ len + 12 ≤ n then
    R.decodeFooter ((file.drop (n - 8 - len)).take len)
  else none

/-- **The table a file holds**: for each row group its columns. -/
def readFile (R : FileDecoders) (file : Bytes) : Option (List (List TableColumn)) :=
  (readFooter R file).bind fun fm =>
    if (fm.rowGroups.map (·.numRows)).sum = fm.numRows then
      (leafPaths fm.schema).bind fun leaves =>
        fm.rowGroups.mapM (readRowGroup R file leaves)
    else none

end N2P
