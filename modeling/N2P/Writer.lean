import N2P.Pages

/-!
# The writer

`validate_child`, `write_list_leaf`, the leaf loop and the commit of `write_one_batch`,
`serialize_footer`, and the C functions `n2p_writer_open`, `n2p_writer_set_codec`,
`n2p_writer_set_encoding`, `n2p_writer_write_batch` and `n2p_writer_close`.

The two kinds of leaf keep their own code, as in the source: `writeFlatLeaf` walks every row's
OPTIONAL nodes in a loop, `writeListLeaf` runs the Shredder.
-/

namespace N2P

/-! ## Checks on an array -/

/-- `validate_child`. -/
def validateChild (child : ArrowArray) (s : ColumnSpec) (expectedRows : Int) : Except Fault Unit :=
  if child.length ≠ expectedRows then .error (.refused (.lengthMismatch s.name))
  else if child.offset ≠ 0 then .error (.refused (.slicedColumn s.name))
  else if child.nullCount > 0 ∧ !s.nullable then .error (.refused (.nullsNotNullable s.name))
  else if s.extract = .null then .ok () -- the null type carries no buffers
  else
    let need : Int := if s.extract = .byteArray then 3 else 2
    if child.nBuffers < need ∨ child.buffers.isNone then .error (.refused (.missingBuffers s.name))
    else .ok ()

/-- A `std::vector` of `n` elements of `elemSize` bytes: longer than `max_size()` throws. -/
def allocate (elemSize n : Nat) (what : String) : Except Fault Unit :=
  if n > (2 ^ 63 - 1) / elemSize then .error (.thrown what) else .ok ()

/-- `std::vector::assign` and the sizing constructor. -/
def vectorAssign : String := "cannot create std::vector larger than max_size()"

/-- `std::vector::reserve`. -/
def vectorReserve : String := "vector::reserve"

/-! ## A leaf under a list or map -/

/-- One step of the path towards the leaf array in `write_list_leaf`. -/
def nextArray (st : PathStep) (cur : ArrowArray) : Except Fault ArrowArray :=
  let mismatch : Except Fault ArrowArray := .error (.refused .structureMismatch)
  if cur.children.isNone ∨ cur.nChildren < 1 then mismatch
  else
    match st.kind with
    | .struct => if (st.child : Int) < cur.nChildren then cur.child st.child else mismatch
    | .map =>
      match cur.child 0 with
      | .error e => .error e
      | .ok entries =>
        if entries.children.isSome ∧ entries.nChildren = 2 then entries.child st.child else mismatch
    | _ => cur.child 0

/-- The leaf array below a column: follow the path's first entries. -/
def followSteps : List PathStep → ArrowArray → Except Fault ArrowArray
  | [], cur => .ok cur
  | st :: rest, cur =>
    if st.kind = .leaf then .ok cur
    else
      match nextArray st cur with
      | .error e => .error e
      | .ok next => followSteps rest next

/-- `batch->children[leaf.path_idx[0]]`. -/
def topColumn (leaf : LeafSpec) (batch : ArrowArray) : Except Fault ArrowArray :=
  match leaf.pathIdx with
  | [] => .error .undefined
  | ci :: _ =>
    if batch.children.isNone ∨ (ci : Int) ≥ batch.nChildren then
      .error (.refused .structureMismatch)
    else batch.child ci

/-- What `write_list_leaf` computes before it writes: the leaf array and its levels. -/
def shredLeaf (leaf : LeafSpec) (batch : ArrowArray) : Except Fault (ArrowArray × Shredded) := do
  let column ← topColumn leaf batch
  let leafArr ← followSteps leaf.steps column
  validateChild leafArr leaf.col leafArr.length
  let bytes := toSize (Int.tdiv (leafArr.length + 7) 8)
  allocate 1 bytes vectorAssign
  allocate 4 (toSize batch.length) vectorReserve
  let sh ← Shredder.rows leaf column batch.length.toNat
    { rep := [], dfn := [], present := List.replicate bytes 0, presentCount := 0 }
  pure (leafArr, sh)

/-- `write_list_leaf`. -/
def writeListLeaf (X : External) (leaf : LeafSpec) (batch : ArrowArray) (rg : RowGroupMeta) :
    WriterM RowGroupMeta := do
  let s := leaf.col
  let (leafArr, sh) ← raise (shredLeaf leaf batch)
  let repBytes ← raise (encodeDefinitionLevels X sh.rep leaf.repBitWidth)
  let defBytes ← raise (encodeDefinitionLevels X sh.dfn leaf.defBitWidth)
  let validity := if sh.presentCount < toSize leafArr.length then some sh.present else none
  let w ← get
  let c ← writeLeafPages X leafArr s validity (repBytes ++ defBytes) sh.dfn.length true
    { type := s.type, path := leaf.pathNames, numValues := sh.dfn.length, fileOffset := w.offset,
      nullCount := (sh.dfn.length : Int) - sh.presentCount }
  pure { rg with totalByteSize := rg.totalByteSize + c.totalUncompressed,
                 columns := rg.columns ++ [c] }

/-! ## A leaf outside lists -/

/-- The arrays of the nodes on a leaf's path, column first. -/
def followIdx : List Nat → ArrowArray → Except Fault (List ArrowArray)
  | [], _ => .ok []
  | ci :: rest, cur =>
    if cur.children.isNone ∨ (ci : Int) ≥ cur.nChildren then .error (.refused .structureMismatch)
    else
      match cur.child ci with
      | .error e => .error e
      | .ok next => (followIdx rest next).map (next :: ·)

/-- `n_buffers > 0 ? buffers[0] : nullptr`. -/
def ArrowArray.validity (a : ArrowArray) : Except Fault (Option Bytes) :=
  if a.nBuffers > 0 then a.buffer 0 else .ok none

/-- Row `i`'s walk over the path: the definition level at the first null OPTIONAL node, and
    whether there was none.  REQUIRED nodes count as present. -/
def flatLevel (nullLeaf : Bool) : List ArrowArray → List Bool → Nat → Nat →
    Except Fault (Nat × Bool)
  | [], _, _, d => .ok (d, true)
  | _ :: _, [], _, _ => .error .undefined -- path_optional[k] past its end
  | a :: as, optional :: opts, i, d =>
    if !optional then flatLevel nullLeaf as opts i d
    else if as.isEmpty && nullLeaf then .ok (d, false)
    else
      match a.validity with
      | .error e => .error e
      | .ok bm =>
        match validBit bm i with
        | .error e => .error e
        | .ok false => .ok (d, false)
        | .ok true => flatLevel nullLeaf as opts i (d + 1)

/-- The definition levels of a leaf outside lists.  `dfn` is filled in only above max level 1. -/
structure FlatLevels where
  dfn : List Nat
  present : Bytes
  presentCount : Nat
  deriving DecidableEq, Repr

/-- The body of the row loop. -/
def flatRow (leaf : LeafSpec) (nodes : List ArrowArray) (out : FlatLevels) (i : Nat) :
    Except Fault FlatLevels :=
  match flatLevel (leaf.col.extract = .null) nodes leaf.pathOptional i 0 with
  | .error e => .error e
  | .ok (d, presentAll) =>
    let out := if leaf.maxDefLevel > 1 then { out with dfn := out.dfn ++ [d] } else out
    if presentAll ∧ d = leaf.maxDefLevel then
      match ByteSeq.setBit out.present i with
      | none => .error .undefined
      | some bs => .ok { out with present := bs, presentCount := out.presentCount + 1 }
    else .ok out

/-- The row loop, over rows `0 .. n-1`. -/
def flatRows (leaf : LeafSpec) (nodes : List ArrowArray) (n : Nat) : Except Fault FlatLevels := do
  allocate 4 (if leaf.maxDefLevel > 1 then n else 0) vectorAssign
  let bytes := (n + 7) % 2 ^ 64 / 8
  allocate 1 bytes vectorAssign
  (List.range n).foldlM (flatRow leaf nodes)
    { dfn := [], present := List.replicate bytes 0, presentCount := 0 }

/-- The arrays on the path, once the leaf array is validated. -/
def flatNodes (leaf : LeafSpec) (batch : ArrowArray) :
    Except Fault (List ArrowArray × ArrowArray) := do
  let nodes ← followIdx leaf.pathIdx batch
  match nodes.getLast? with
  | none => .error .undefined
  | some child =>
    validateChild child leaf.col batch.length
    pure (nodes, child)

/-- The level prefix, the validity map and the null count of a leaf outside lists. -/
def flatLevels (X : External) (leaf : LeafSpec) (nodes : List ArrowArray) (n : Nat) :
    Except Fault (Bytes × Option Bytes × Int) :=
  if leaf.maxDefLevel > 0 then do
    let fl ← flatRows leaf nodes n
    let defPrefix ←
      if leaf.maxDefLevel = 1 then encodeDefinitionLevelsBitmap X fl.present n
      else encodeDefinitionLevels X fl.dfn leaf.defBitWidth
    pure (defPrefix, if fl.presentCount < n then some fl.present else none,
      (n : Int) - fl.presentCount)
  else .ok ([], none, 0)

/-- The loop body of `write_one_batch` for a leaf outside lists. -/
def writeFlatLeaf (X : External) (leaf : LeafSpec) (batch : ArrowArray) (rg : RowGroupMeta) :
    WriterM RowGroupMeta := do
  let s := leaf.col
  let n := toSize batch.length
  let (nodes, child) ← raise (flatNodes leaf batch)
  let w ← get
  let (defPrefix, validity, nullCount) ← raise (flatLevels X leaf nodes n)
  let c ← writeLeafPages X child s validity defPrefix n (leaf.maxDefLevel > 0)
    { type := s.type, path := leaf.pathNames, numValues := batch.length, fileOffset := w.offset,
      nullCount := nullCount }
  pure { rg with totalByteSize := rg.totalByteSize + c.totalUncompressed,
                 columns := rg.columns ++ [c] }

/-! ## One batch -/

/-- The leaf loop. -/
def writeLeaves (X : External) : List LeafSpec → ArrowArray → RowGroupMeta → WriterM RowGroupMeta
  | [], _, rg => pure rg
  | leaf :: rest, batch, rg => do
    let rg ← if leaf.hasList then writeListLeaf X leaf batch rg else writeFlatLeaf X leaf batch rg
    writeLeaves X rest batch rg

/-- The schema lock: flatten on the first batch, compare the column count afterwards. -/
def lockSchema (schema : ArrowSchema) : WriterM Unit := do
  let w ← get
  if !w.schemaLocked then
    match flattenColumns schema.children 0 ([], []) with
    | .error (.refused why) => refuse .unsupportedType why
    | .error (.thrown what) => throw (.thrown what)
    | .error .undefined => throw .undefined
    | .ok (nodes, leaves) =>
      if leaves.isEmpty then refuse .invalidArgument .noLeafColumns
      else
        modify fun w =>
          { w with schemaNodes := nodes, leaves := leaves, topChildren := schema.children.length,
                   schemaLocked := true }
  else if schema.children.length ≠ w.topChildren then refuse .invalidArgument .incompatible
  else pure ()

/-- The checks before the schema is looked at. -/
def checkArguments (schema : Option ArrowSchema) (batch : Option ArrowArray) :
    Except Fault (ArrowSchema × ArrowArray) :=
  match schema, batch with
  | some schema, some batch =>
    if schema.format ≠ some "+s" then .error (.refused .notAStruct)
    else if schema.children.length = 0 then .error (.refused .noColumns)
    else if batch.nChildren ≠ schema.children.length then .error (.refused .childCount)
    else .ok (schema, batch)
  | _, _ => .error (.refused .nullArguments)

/-- The commit: the row group is recorded, then the stream is checked. -/
def commit (batch : ArrowArray) (rg : RowGroupMeta) : WriterM Unit := do
  modify fun w =>
    { w with rowGroups := w.rowGroups ++ [rg], totalRows := w.totalRows + batch.length }
  let w ← get
  if w.out.good then pure () else refuse .ioError .ioError

/-- `write_one_batch`. -/
def writeOneBatch (X : External) (schema : Option ArrowSchema) (batch : Option ArrowArray) :
    WriterM Unit := do
  let (schema, batch) ← raise (checkArguments schema batch)
  lockSchema schema
  let w ← get
  let rg ← writeLeaves X w.leaves batch { numRows := batch.length }
  commit batch rg

/-! ## The footer -/

/-- `schema_element`. -/
def schemaElement (s : SchemaNode) : SchemaElement :=
  { type := if s.isGroup then none else some s.type
    typeLength :=
      if !s.isGroup && s.type = .fixedLenByteArray then some s.typeLength else none
    repetitionType :=
      some (if s.repeated then .repeated else if s.optional then .optional else .required)
    name := s.name
    numChildren := if s.isGroup then some s.numChildren else none
    convertedType :=
      if s.isGroup then
        if s.listGroup then some .list else if s.mapGroup then some .map else none
      else s.converted
    logicalType :=
      if s.isGroup then
        if s.listGroup then some .list else if s.mapGroup then some .map else none
      else none }

/-- The root element: name and child count only. -/
def rootElement (topChildren : Nat) : SchemaElement :=
  { type := none, typeLength := none, repetitionType := none, name := "schema",
    numChildren := some topChildren, convertedType := none, logicalType := none }

/-- The footer's entry for a chunk; the codec is the writer's at the time. -/
def columnChunk (codec : CompressionCodec) (c : ColumnChunkMeta) : ColumnChunk :=
  { fileOffset := c.fileOffset
    metaData :=
      { type := c.type, encodings := c.encodings, pathInSchema := c.path, codec,
        numValues := c.numValues, totalUncompressedSize := c.totalUncompressed,
        totalCompressedSize := c.totalCompressed, dataPageOffset := c.dataPageOffset,
        dictionaryPageOffset := if c.hasDictionary then some c.dictionaryPageOffset else none,
        statistics :=
          { nullCount := c.nullCount, minValue := c.minMax.map (·.1),
            maxValue := c.minMax.map (·.2) } } }

def rowGroup (codec : CompressionCodec) (rg : RowGroupMeta) : RowGroup :=
  { columns := rg.columns.map (columnChunk codec), totalByteSize := rg.totalByteSize,
    numRows := rg.numRows }

/-- The `FileMetaData` that `serialize_footer` builds. -/
def fileMetaData (w : Writer) : FileMetaData :=
  { version := 1
    schema := rootElement w.topChildren :: w.schemaNodes.map schemaElement
    numRows := w.totalRows
    rowGroups := w.rowGroups.map (rowGroup w.codec)
    createdBy := "nanoarrow2parquet"
    columnOrders := List.replicate w.leaves.length .typeOrder }

/-- `serialize_footer`. -/
def serializeFooter (X : External) (w : Writer) : Except String Bytes :=
  (X.encodeFooter (fileMetaData w)).mapError ("footer encoding failed: " ++ ·)

/-! ## The C functions -/

/-- `PAR1`. -/
def kMagic : Bytes := [0x50, 0x41, 0x52, 0x31]

/-- `n2p_writer_open` on a path whose stream is `sink`. -/
def n2pWriterOpen (sink : ByteSink) (path : String) : N2PStatus × Writer :=
  if sink.isOpen then (.ok, { out := sink.write kMagic, path, offset := kMagic.length })
  else (.ioError, { out := sink, path, lastError := (Refusal.cannotOpen path).text })

/-- `n2p_writer_set_codec`. -/
def n2pWriterSetCodec (w : Writer) (codec : Int) : N2PStatus × Writer :=
  if codec = 0 then (.ok, { w with codec := .zstd })
  else if codec = 1 then (.ok, { w with codec := .uncompressed })
  else (.invalidArgument, { w with lastError := Refusal.unknownCodec.text })

/-- `n2p_writer_set_encoding`. -/
def n2pWriterSetEncoding (w : Writer) (encoding : Int) : N2PStatus × Writer :=
  if 0 ≤ encoding ∧ encoding ≤ 3 then (.ok, { w with encoding := encoding.toNat })
  else (.invalidArgument, { w with lastError := Refusal.unknownEncoding.text })

/-- `n2p_writer_write_batch`; `none` is undefined behaviour.  The exception handler of
    `write_one_batch` is the `thrown` case. -/
def n2pWriterWriteBatch (X : External) (w : Writer) (schema : Option ArrowSchema)
    (batch : Option ArrowArray) : Option (N2PStatus × Writer) :=
  if w.out.isOpen then
    match writeOneBatch X schema batch w with
    | .ok _ w => some (.ok, w)
    | .error (.refused status _) w => some (status, w)
    | .error (.thrown what) w =>
      some (.ioError, { w with lastError := (Refusal.pageFailure what).text })
    | .error .undefined _ => none
  else some (.ioError, { w with lastError := Refusal.notOpen.text })

/-- The bytes `n2p_writer_close` appends: the footer, its length, the magic. -/
def footerTail (footer : Bytes) : List Bytes := [footer, leSize footer.length, kMagic]

/-- `n2p_writer_close`: the status, and the stream as the writer leaves it. -/
def n2pWriterClose (X : External) (w : Writer) : N2PStatus × ByteSink :=
  if w.out.isOpen ∧ !w.footerWritten then
    let written : N2PStatus × ByteSink :=
      match serializeFooter X w with
      | .error _ => (.ioError, w.out)
      | .ok footer =>
        if footer.length > UINT32_MAX then (.ioError, w.out)
        else (.ok, (footerTail footer).foldl ByteSink.write w.out)
    let flushed := written.2.flush
    (if flushed.good then written.1 else .ioError, flushed.close)
  else (.ok, w.out)

end N2P
