import N2P.Parquet

/-!
# The Arrow C data interface and how a call can end

`ArrowSchema` and `ArrowArray` are the C structs the caller passes.  A null pointer is `none`;
buffers are untyped byte strings, as in C, and are read at the width the writer's schema says.
A read outside a buffer, or through a null pointer, is `Fault.undefined`: nothing is assumed about
what the program does then.

`Refusal` lists every error the writer sets, with the text it stores in `last_error`.
-/

namespace N2P

/-- A node of an Arrow schema tree.  `children` are the `n_children` pointers. -/
structure ArrowSchema where
  format : Option String
  name : Option String
  flags : Nat
  children : List ArrowSchema
  dictionary : Option ArrowSchema

/-- `ARROW_FLAG_NULLABLE`. -/
def ARROW_FLAG_NULLABLE : Nat := 2

/-- `child->name ? child->name : ""`. -/
def ArrowSchema.nameOr (s : ArrowSchema) : String := s.name.getD ""

/-- `nullable_child`: the nullable flag is set, or the type is the null type. -/
def ArrowSchema.nullableChild (s : ArrowSchema) : Bool :=
  s.flags &&& ARROW_FLAG_NULLABLE != 0 || s.format == some "n"

/-- A node of an array tree, with every count as the caller set it. -/
structure ArrowArray where
  length : Int
  nullCount : Int
  offset : Int
  nBuffers : Int
  nChildren : Int
  buffers : Option (List (Option Bytes))
  children : Option (List ArrowArray)

inductive N2PStatus where
  | ok
  | invalidArgument
  | unsupportedType
  | ioError
  deriving DecidableEq, Repr

/-- What `Shredder::fail` is called with. -/
inductive ShredError where
  | sliced
  | pastEnd
  | nullInRequired
  | structureMismatch
  | noOffsets
  | mapEntries
  | mapPastEntries
  | offsetsOrder
  deriving DecidableEq, Repr

def ShredError.what : ShredError → String
  | .sliced => "an array on the path has a non-zero offset (slices unsupported)"
  | .pastEnd => "an index runs past an array on the path"
  | .nullInRequired => "a null in a field that is not nullable"
  | .structureMismatch => "batch structure does not match the schema"
  | .noOffsets => "a list without offsets or child"
  | .mapEntries => "map entries must be an offset-0 struct of key and value"
  | .mapPastEntries => "map offsets run past its entries"
  | .offsetsOrder => "list offsets are out of order or past its child"

/-- Every error the writer reports. -/
inductive Refusal where
  | nullArguments
  | notAStruct
  | noColumns
  | childCount
  | noLeafColumns
  | incompatible
  | structureMismatch
  | lengthMismatch (name : String)
  | slicedColumn (name : String)
  | nullsNotNullable (name : String)
  | missingBuffers (name : String)
  | shred (name : String) (e : ShredError)
  | fixedWidth (format : String)
  | unsupportedFormat (format : String)
  | listChildren (name : String)
  | mapEntries (name : String)
  | pageFailure (what : String)
  | cannotOpen (path : String)
  | notOpen
  | ioError
  | unknownCodec
  | unknownEncoding
  deriving DecidableEq, Repr

/-- The text stored in `last_error`. -/
def Refusal.text : Refusal → String
  | .nullArguments => "schema and batch must be non-null"
  | .notAStruct => "top-level schema must be a struct (record batch)"
  | .noColumns => "record batch has no columns"
  | .childCount => "batch child count does not match schema"
  | .noLeafColumns => "record batch has no leaf columns"
  | .incompatible => "batch schema is incompatible with the first batch"
  | .structureMismatch => "batch structure does not match the schema"
  | .lengthMismatch name => "column '" ++ name ++ "' length does not match the record batch"
  | .slicedColumn name => "column '" ++ name ++ "' has a non-zero array offset (slices unsupported)"
  | .nullsNotNullable name =>
    "column '" ++ name ++ "' contains nulls but its schema is not nullable"
  | .missingBuffers name => "column '" ++ name ++ "' is missing required buffers"
  | .shred name e => "column '" ++ name ++ "': " ++ e.what
  | .fixedWidth format => "invalid fixed_size_binary width: " ++ format
  | .unsupportedFormat format => "unsupported Arrow type format: " ++ format
  | .listChildren name => "list / map '" ++ name ++ "' must have exactly one child"
  | .mapEntries name => "map '" ++ name ++ "' entries must be a struct of key and value"
  | .pageFailure what => "page compression failed: " ++ what
  | .cannotOpen path => "cannot open output file: " ++ path
  | .notOpen => "writer is not open"
  | .ioError => "I/O error while writing column data"
  | .unknownCodec => "unknown codec"
  | .unknownEncoding => "unknown encoding"

/-- How a step ends when it does not return a value: an error for the caller, a C++ exception, or
    undefined behaviour. -/
inductive Fault where
  | refused (why : Refusal)
  | thrown (what : String)
  | undefined
  deriving DecidableEq, Repr

/-- `static_cast<std::size_t>` of an `int64`. -/
def toSize (n : Int) : Nat := (n % 2 ^ 64).toNat

theorem toSize_of_nonneg {n : Int} (h : 0 ≤ n) (h' : n < 2 ^ 64) : toSize n = n.toNat := by
  unfold toSize
  rw [Int.emod_eq_of_lt h h']

namespace ArrowArray

/-- `a->buffers[k]`. -/
def buffer (a : ArrowArray) (k : Nat) : Except Fault (Option Bytes) :=
  match a.buffers with
  | none => .error .undefined
  | some bs =>
    match bs[k]? with
    | none => .error .undefined
    | some b => .ok b

/-- `a->children[i]`. -/
def child (a : ArrowArray) (i : Nat) : Except Fault ArrowArray :=
  match a.children with
  | none => .error .undefined
  | some cs =>
    match cs[i]? with
    | none => .error .undefined
    | some c => .ok c

end ArrowArray

/-- Bit `i` of a validity bitmap or of packed booleans: `(bm[i >> 3] >> (i & 7)) & 1`. -/
def readBit (bm : Bytes) (i : Nat) : Except Fault Bool :=
  match ByteSeq.getBit bm i with
  | none => .error .undefined
  | some b => .ok b

/-- `valid_bit`: a null bitmap pointer means every value is valid. -/
def validBit (validity : Option Bytes) (i : Nat) : Except Fault Bool :=
  match validity with
  | none => .ok true
  | some bm => readBit bm i

/-- Element `i` of a buffer of `w`-byte elements. -/
def readElem (w : Nat) (buf : Bytes) (i : Nat) : Except Fault Bytes :=
  if (i + 1) * w ≤ buf.length then .ok ((buf.drop (i * w)).take w) else .error .undefined

/-- A `w`-byte little-endian two's complement number. -/
def signedLE (bs : Bytes) : Int := Int.bmod (ByteSeq.ofLE bs) (256 ^ bs.length)

/-- `off[i]` of an `int32_t` (`w = 4`) or `int64_t` (`w = 8`) offsets buffer. -/
def readOffset (w : Nat) (buf : Bytes) (i : Nat) : Except Fault Int :=
  (readElem w buf i).map signedLE

/-! ## Small inputs -/

/-- A column without children. -/
def ArrowSchema.leaf (format name : String) (nullable : Bool) : ArrowSchema :=
  { format := some format, name := some name, flags := if nullable then ARROW_FLAG_NULLABLE else 0,
    children := [], dictionary := none }

/-- A struct, list or map column. -/
def ArrowSchema.nested (format name : String) (nullable : Bool) (children : List ArrowSchema) :
    ArrowSchema :=
  { ArrowSchema.leaf format name nullable with children }

/-- Numbers as `w`-byte little-endian elements. -/
def packed (w : Nat) (ns : List Int) : Bytes :=
  ns.flatMap fun n => ByteSeq.toLE w (n % 256 ^ w).toNat

def ArrowArray.int32 (values : List Int) (validity : Option Bytes) (nullCount : Int) : ArrowArray :=
  { length := values.length, nullCount, offset := 0, nBuffers := 2, nChildren := 0,
    buffers := some [validity, some (packed 4 values)], children := none }

def ArrowArray.strings (offsets : List Int) (data : Bytes) (validity : Option Bytes)
    (nullCount : Int) : ArrowArray :=
  { length := offsets.length - 1, nullCount, offset := 0, nBuffers := 3, nChildren := 0,
    buffers := some [validity, some (packed 4 offsets), some data], children := none }

def ArrowArray.list (offsets : List Int) (validity : Option Bytes) (nullCount : Int)
    (child : ArrowArray) : ArrowArray :=
  { length := offsets.length - 1, nullCount, offset := 0, nBuffers := 2, nChildren := 1,
    buffers := some [validity, some (packed 4 offsets)], children := some [child] }

def ArrowArray.struct (rows : Int) (validity : Option Bytes) (nullCount : Int)
    (children : List ArrowArray) : ArrowArray :=
  { length := rows, nullCount, offset := 0, nBuffers := 1, nChildren := children.length,
    buffers := some [validity], children := some children }

end N2P
