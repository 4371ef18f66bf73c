import N2P.Lib.Dremel
import N2P.Lib.Bytes

/-!
# The Parquet structures the writer fills in, and the codecs it calls

The records of `parquet_types.hpp` (nanom's `parquet_thrift` model) with the fields
`writer.cpp` sets: page headers and the footer's `FileMetaData`.  Sizes and offsets are naturals;
row and value counts are the `int64` the caller passes and stay integers.

`External` holds the code the repository only calls: zstd and nanom's Thrift and columnar
encoders.  Theorems that rely on one of them name what they rely on as a hypothesis.
-/

namespace N2P

abbrev Bytes := List UInt8

/-- `pq::Type`, the physical types. -/
inductive PhysicalType where
  | boolean
  | int32
  | int64
  | float
  | double
  | byteArray
  | fixedLenByteArray
  deriving DecidableEq, Repr

inductive ConvertedType where
  | utf8
  | map
  | list
  | uint8
  | uint16
  | uint32
  | uint64
  | int8
  | int16
  deriving DecidableEq, Repr

inductive Encoding where
  | plain
  | rle
  | deltaBinaryPacked
  | deltaByteArray
  | rleDictionary
  | byteStreamSplit
  deriving DecidableEq, Repr

inductive CompressionCodec where
  | uncompressed
  | zstd
  deriving DecidableEq, Repr

inductive LogicalType where
  | list
  | map
  deriving DecidableEq, Repr

/-- `pq::FieldRepetitionType`. -/
abbrev FieldRepetitionType := Dremel.Repetition

/-- One element of the footer's pre-order schema list.  A primitive has no `numChildren`. -/
structure SchemaElement where
  type : Option PhysicalType
  typeLength : Option Nat
  repetitionType : Option FieldRepetitionType
  name : String
  numChildren : Option Nat
  convertedType : Option ConvertedType
  logicalType : Option LogicalType
  deriving DecidableEq, Repr

structure DataPageHeader where
  numValues : Nat
  encoding : Encoding
  definitionLevelEncoding : Encoding
  repetitionLevelEncoding : Encoding
  deriving DecidableEq, Repr

structure DictionaryPageHeader where
  numValues : Nat
  encoding : Encoding
  isSorted : Bool
  deriving DecidableEq, Repr

inductive PageType where
  | dataPage
  | dictionaryPage
  deriving DecidableEq, Repr

structure PageHeader where
  type : PageType
  uncompressedPageSize : Nat
  compressedPageSize : Nat
  dataPageHeader : Option DataPageHeader
  dictionaryPageHeader : Option DictionaryPageHeader
  deriving DecidableEq, Repr

structure Statistics where
  nullCount : Int
  minValue : Option Bytes
  maxValue : Option Bytes
  deriving DecidableEq, Repr

structure ColumnMetaData where
  type : PhysicalType
  encodings : List Encoding
  pathInSchema : List String
  codec : CompressionCodec
  numValues : Int
  totalUncompressedSize : Nat
  totalCompressedSize : Nat
  dataPageOffset : Nat
  dictionaryPageOffset : Option Nat
  statistics : Statistics
  deriving DecidableEq, Repr

structure ColumnChunk where
  fileOffset : Nat
  metaData : ColumnMetaData
  deriving DecidableEq, Repr

structure RowGroup where
  columns : List ColumnChunk
  totalByteSize : Nat
  numRows : Int
  deriving DecidableEq, Repr

inductive ColumnOrder where
  | typeOrder
  deriving DecidableEq, Repr

structure FileMetaData where
  version : Nat
  schema : List SchemaElement
  numRows : Int
  rowGroups : List RowGroup
  createdBy : String
  columnOrders : List ColumnOrder
  deriving DecidableEq, Repr

/-- The element types `nanom::columnar::compute_stats` is instantiated at. -/
inductive StatType where
  | int8
  | uint8
  | int16
  | uint16
  | int32
  | uint32
  | int64
  | uint64
  | float
  | double
  deriving DecidableEq, Repr

/-- zstd and nanom, as the writer calls them.  A thrown exception carries its `what()`. -/
structure External where
  /-- `ZSTD_compress` at level 3. -/
  zstdCompress : Bytes → Except String Bytes
  /-- `thrift_compact_encode` of a page header into a 128-byte buffer. -/
  encodePageHeader : PageHeader → Except String Bytes
  /-- `thrift_compact_encode` of the footer. -/
  encodeFooter : FileMetaData → Except String Bytes
  /-- `rle_hybrid_encode` of a list of values at a bit width. -/
  rleHybridEncode : List Nat → Nat → Bytes
  /-- `rle_bitmap_encode` of the first `n` bits of a bitmap. -/
  rleBitmapEncode : Bytes → Nat → Bytes
  /-- `string_dictionary`: `index_of` adds an entry when the string is new. -/
  Dictionary : Type
  emptyDictionary : Dictionary
  indexOf : Dictionary → Bytes → Nat × Dictionary
  dictionaryValues : Dictionary → List Bytes
  /-- `delta_binary_packed_encode<int32_t>` and `<int64_t>` (by byte width). -/
  deltaBinaryPackedEncode : Nat → List Int → Bytes
  /-- `delta_prefix_encode`; `none` when it returns false. -/
  deltaPrefixEncode : List Bytes → Option Bytes
  /-- `byte_stream_split_encode` of `n` values of `w` bytes. -/
  byteStreamSplitEncode : Bytes → Nat → Nat → Bytes
  /-- `compute_stats<T>`: minimum and maximum of the valid elements.  An integer element is its
      value, a floating-point one its bit pattern. -/
  computeStats : StatType → List Int → Option Bytes → Option (Int × Int)
  /-- `compute_binary_stats`. -/
  computeBinaryStats : List Bytes → Option (Bytes × Bytes)

end N2P
