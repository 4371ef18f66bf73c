import N2P.LeafColumns
import N2P.ReferenceReader
import N2P.ValuePages
import N2P.CodecLabels
import N2P.Devices

/-!
# What is written is read back

The reader of `FileReader`, run on what the writer left behind.

* `readChunk_written` — a chunk reads back as the column its batch holds on the leaf.
* `readRowGroup_written` — a row group as the columns of its batch.
* `readFooter_written` — the footer is found between the pages and the end.
* `file_readBack` — a file whose close succeeded holds exactly the accepted batches.
-/

namespace N2P

open Preorder Preorder.RoseTree Outcome

/-! ## Pages -/

section Pages

variable {R : FileDecoders} {X : External}

/-- A body is restored from what was stored for it. -/
theorem readBody_stored (hR : R.Inverts X) {codec : CompressionCodec} {body stored : Bytes}
    (h : compressPage X body codec = .ok stored) :
    readBody R codec stored body.length = some body := by
  unfold compressPage at h
  unfold readBody
  cases codec with
  | uncompressed =>
    cases h
    exact if_pos rfl
  | zstd =>
    dsimp only at h ⊢
    cases hz : X.zstdCompress body with
    | error e =>
      rw [hz] at h
      cases h
    | ok z =>
      rw [hz] at h
      cases h
      exact hR.zstd body _ hz

/-- A page is read at its offset, whatever surrounds it. -/
theorem readPageAt_page (hR : R.Inverts X) {codec : CompressionCodec} {p : Page}
    (h : p.Encoded X codec) (hu : p.header.uncompressedPageSize = p.body.length)
    (hc : p.header.compressedPageSize = p.stored.length) {pre post : Bytes} {offset : Nat}
    (hoffset : offset = pre.length) :
    readPageAt R codec (pre ++ (p.bytes ++ post)) offset = some (p.header, p.body) := by
  unfold readPageAt Page.bytes
  rw [hoffset, List.drop_left, List.append_assoc,
    hR.pageHeader p.header p.headerBytes _ h.header, Option.bind_some]
  dsimp only
  rw [hc, hu, if_pos (by simp), List.take_left, readBody_stored hR h.stored]
  rfl

/-- The dictionary page is read where the entry names one. -/
theorem readDictionary_chunk (hR : R.Inverts X) {codec : CompressionCodec} {batch : ArrowArray}
    {encoding : Nat} {x : Chunk} (h : x.Of X batch codec encoding) {pre post : Bytes}
    (hpre : pre.length = x.start) :
    readDictionary R (pre ++ (x.pages.bytes ++ post)) (columnChunk codec x.entry) =
      some x.bodies.dict := by
  have hpages := dictPage_header h.built.dict
  have hdict := h.built.dict
  unfold readDictionary
  cases hd : x.pages.dict with
  | none =>
    rw [hd] at hdict
    have hoffset : (columnChunk codec x.entry).metaData.dictionaryPageOffset = none := by
      simp [columnChunk, Chunk.entry, ChunkPages.entry, hd]
    rw [hoffset]
    generalize x.bodies.dict = d at hdict
    cases hdict
    rfl
  | some p =>
    rw [hd] at hdict
    obtain ⟨_, _, hu, hc⟩ := hpages p hd
    have hoffset : (columnChunk codec x.entry).metaData.dictionaryPageOffset = some x.start := by
      simp [columnChunk, Chunk.entry, ChunkPages.entry, hd, LeafInputs.start]
    have hbytes : x.pages.bytes = p.bytes ++ x.pages.data.bytes := by
      simp [ChunkPages.bytes, ChunkPages.pages, hd]
    have henc : p.Encoded X codec := h.built.encoded p (by simp [ChunkPages.pages, hd])
    rw [hoffset, hbytes, List.append_assoc]
    dsimp only
    rw [show (columnChunk codec x.entry).metaData.codec = codec from rfl,
      readPageAt_page hR henc hu hc hpre.symm, Option.bind_some]
    generalize x.bodies.dict = d at hdict
    cases hdict with
    | some hb _ hheader =>
      rw [← hb, hheader]
      rfl

/-- The data page is read behind the dictionary page. -/
theorem readDataPage_chunk (hR : R.Inverts X) {codec : CompressionCodec} {batch : ArrowArray}
    {encoding : Nat} {x : Chunk} (h : x.Of X batch codec encoding) {pre post : Bytes}
    (hpre : pre.length = x.start) :
    ∃ hdr, x.pages.data.header.dataPageHeader = some hdr ∧ hdr.numValues = x.inp.numLevels ∧
      hdr.encoding = x.bodies.encoding ∧
      readDataPage R (pre ++ (x.pages.bytes ++ post)) (columnChunk codec x.entry) =
        some (hdr, x.pages.data.body) := by
  have hheader := h.built.header
  have hbytes : x.pages.bytes = x.pages.dict.toList.flatMap Page.bytes ++ x.pages.data.bytes := by
    simp [ChunkPages.bytes, ChunkPages.pages]
  have henc : x.pages.data.Encoded X codec := h.built.encoded _ (by simp [ChunkPages.pages])
  have hoffset : (columnChunk codec x.entry).metaData.dataPageOffset =
      (pre ++ x.pages.dict.toList.flatMap Page.bytes).length := by
    rw [List.length_append, hpre]
    rfl
  have hpage := @readPageAt_page R X hR codec x.pages.data henc (by rw [hheader]; rfl)
    (by rw [hheader]; rfl) (pre ++ x.pages.dict.toList.flatMap Page.bytes) post _ hoffset
  have hfile : pre ++ (x.pages.bytes ++ post) =
      pre ++ x.pages.dict.toList.flatMap Page.bytes ++ (x.pages.data.bytes ++ post) := by
    rw [hbytes]
    simp only [List.append_assoc]
  refine ⟨_, by rw [hheader]; rfl, rfl, rfl, ?_⟩
  unfold readDataPage
  rw [hfile, show (columnChunk codec x.entry).metaData.codec = codec from rfl, hpage, hheader]
  rfl

end Pages

/-! ## Paths of the schema -/

/-- A path of the footer's schema is a leaf's, down to the repetitions of what it holds. -/
structure PathOf (path : List SchemaElement) (leaf : LeafSpec) : Prop where
  agrees : LeafAgrees path leaf
  repetitions : path.mapM SchemaElement.repetitionType = some (stepRepetitions leaf.arrowSteps)

/-- A reader counts the definition levels of the repetitions it finds. -/
theorem readerMaxDef_eq {path : List SchemaElement} : ∀ {reps : List FieldRepetitionType},
    path.mapM SchemaElement.repetitionType = some reps → readerMaxDef path = Dremel.maxDef reps := by
  induction path with
  | nil =>
    intro reps h
    cases h
    rfl
  | cons e path ih =>
    intro reps h
    rw [List.mapM_cons] at h
    obtain ⟨r, hr, h⟩ := Option.bind_eq_some_iff.mp h
    obtain ⟨rs, hrs, h⟩ := Option.bind_eq_some_iff.mp h
    cases h
    have ih := ih hrs
    unfold readerMaxDef Dremel.maxDef at ih ⊢
    rw [List.countP_cons, List.countP_cons, ih, hr]
    cases r <;> rfl

/-- The repetitions of a path of structs. -/
theorem stepRepetitions_structs {st : PathStep} (hk : st.kind = .leaf) (ss : List PathStep)
    (hss : ∀ s ∈ ss, s.kind = .struct) :
    stepRepetitions (ss ++ [st]) =
      ((ss ++ [st]).map (·.optional)).map fun o => if o then .optional else .required := by
  induction ss with
  | nil => simp [stepRepetitions, PathStep.repetitions, hk, StepKind.isList]
  | cons s ss ih =>
    have hs := hss s List.mem_cons_self
    rw [List.cons_append, stepRepetitions_cons, ih fun s' hs' => hss s' (List.mem_cons_of_mem s hs')]
    simp [PathStep.repetitions, hs, StepKind.isList]

/-- Outside lists a node is as OPTIONAL as its flag says. -/
theorem repetitions_of_flags {path : List SchemaNode}
    (h : Dremel.maxRep (path.map (·.repetition)) = 0) :
    path.map (·.repetition) =
      (path.map (·.optional)).map fun o => if o then .optional else .required := by
  unfold Dremel.maxRep at h
  rw [List.countP_eq_zero] at h
  rw [List.map_map]
  refine List.map_congr_left fun s hs => ?_
  have hr := h s.repetition (List.mem_map_of_mem hs)
  unfold SchemaNode.repetition at hr ⊢
  cases hrep : s.repeated with
  | true => simp [hrep] at hr
  | false => rfl

/-- **The path of a leaf in the footer has the repetitions of the leaf's Arrow nodes.** -/
theorem ColumnOk.pathOf {columns : List ArrowSchema} {b : Branch} (h : ColumnOk b)
    (hof : LeafOfColumns columns b.column) : PathOf (b.path.map schemaElement) b.column := by
  refine ⟨h.agrees, ?_⟩
  have hmap : (b.path.map schemaElement).mapM SchemaElement.repetitionType =
      some (b.path.map (·.repetition)) := by
    induction b.path with
    | nil => rfl
    | cons s path ih => rw [List.map_cons, List.mapM_cons, ih]; rfl
  rw [hmap]
  congr 1
  unfold LeafSpec.arrowSteps
  cases hl : b.column.hasList with
  | true =>
    have hsteps : b.column.steps = b.steps :=
      if_pos (by simpa [Branch.column, leafSpec] using hl)
    rw [if_pos rfl, hsteps, h.reps]
  | false =>
    rw [if_neg (by simp)]
    have h0 : repLevels b.steps = 0 := by simpa [Branch.column, leafSpec] using hl
    have hrep : Dremel.maxRep (b.path.map (·.repetition)) = 0 := by
      rw [← h.reps, maxRep_stepRepetitions, h0]
    obtain ⟨steps, hsteps⟩ := hof.steps
    have hflat := (hsteps.flat hl).arrowSteps hl
    have harrow : b.column.arrowSteps =
        structSteps b.column.pathIdx.tail b.column.pathOptional := if_neg (by simp [hl])
    obtain ⟨ss, st, hss, hk, hstructs, _⟩ := hflat.structs
    have hopt := hflat.opt
    rw [← harrow, hss, stepRepetitions_structs hk ss hstructs, ← hss, ← hopt,
      repetitions_of_flags hrep, h.flat h0]
    rfl

/-! ## Chunks -/

/-- The definition levels of striped rows: one maximal level for each value. -/
theorem Striped.count {leaf : LeafSpec} {batch : ArrowArray} {inp : LeafInputs}
    {reps dfns : List Nat} {k : ColumnKind} {rows : List (Dremel.Val Value
      (stepRepetitions leaf.arrowSteps))} (h : Striped leaf batch inp reps dfns k rows)
    (hlen : reps.length = dfns.length) :
    dfns.count (Dremel.maxDef (stepRepetitions leaf.arrowSteps)) =
      (k.values inp.arr inp.validity).length := by
  have hdfns : dfns = (Dremel.shredAll (stepRepetitions leaf.arrowSteps) rows).map (·.dfn) := by
    have hsnd := congrArg (List.map Prod.snd) h.striped.levels
    rw [List.map_snd_zip (by omega), List.map_map] at hsnd
    exact hsnd
  rw [hdfns, h.striped.values]
  exact Dremel.count_maxDef_shredAll _ _

/-- The values of a chunk decode, by what its data page's header says. -/
theorem Chunk.Of.decode {X : External} {D : Decoders} (hD : D.Inverts X) {batch : ArrowArray}
    {codec : CompressionCodec} {encoding : Nat} {x : Chunk} (h : x.Of X batch codec encoding)
    {k : ColumnKind} (hkind : ∃ (name : String) (nullable : Bool),
      x.leaf.col = k.spec name nullable) (hbuf : k.BuffersOk x.inp.arr)
    (hv : ValidityOk x.inp.validity x.inp.arr.length.toNat) :
    x.bodies.Decode D x.leaf.col (k.values x.inp.arr x.inp.validity) := by
  obtain ⟨name, nullable, hcol⟩ := hkind
  have hbodies := h.bodies
  rw [hcol] at hbodies ⊢
  rcases chunkBodies_decode hD hbuf hv encoding with ⟨b, hb, hdec⟩ | ⟨_, hthrown⟩
  · rw [hb] at hbodies
    cases hbodies
    exact hdec h.built.small
  · rw [hthrown] at hbodies
    cases hbodies

/-- The contents of a chunk's data page: the leaf's levels and values. -/
theorem readContents_chunk {R : FileDecoders} {X : External} (hR : R.Inverts X)
    {batch : ArrowArray} {codec : CompressionCodec} {encoding : Nat} {x : Chunk}
    (h : x.Of X batch codec encoding) {path : List SchemaElement} (hpath : PathOf path x.leaf)
    (hint : x.leaf.maxDefLevel ≤ INT32_MAX) {reps dfns : List Nat}
    (hlevels : LevelsOf X x.leaf batch x.inp reps dfns) {k : ColumnKind}
    {rows : List (Dremel.Val Value (stepRepetitions x.leaf.arrowSteps))}
    (hrows : Striped x.leaf batch x.inp reps dfns k rows) {e : SchemaElement}
    (he : path.getLast? = some e) {hdr : DataPageHeader}
    (hhdr : x.pages.data.header.dataPageHeader = some hdr)
    (henc : hdr.encoding = x.bodies.encoding) :
    readContents R e (readerMaxRep path) (readerMaxDef path) x.bodies.dict hdr
      x.pages.data.body = some ⟨reps.zip dfns, k.values x.inp.arr x.inp.validity⟩ := by
  obtain ⟨e', he', htype, hlength, _⟩ := hpath.agrees.type
  rw [he] at he'
  cases he'
  obtain ⟨hdr', reps', dfns', hhdr', hlv', hpage⟩ :=
    (h.framed hR.toInverts hlevels hpath.agrees hint).pieces
  rw [hhdr] at hhdr'
  cases hhdr'
  rw [hlevels.levels] at hlv'
  cases hlv'
  have hcount := hrows.count (hlevels.repsLength.trans hlevels.dfnsLength.symm)
  have hdecode := h.decode hR.toInverts hrows.kind hrows.buffers hrows.striped.validity
  unfold ChunkBodies.Decode at hdecode
  unfold readContents
  rw [hpage, Option.bind_some]
  dsimp only
  rw [htype, Option.bind_some, hlength, readerMaxDef_eq hpath.repetitions, hcount, henc, hdecode]
  rfl

/-- **A chunk reads back as the column its batch holds.** -/
theorem readChunk_written {R : FileDecoders} {X : External} (hR : R.Inverts X)
    {batch : ArrowArray} (hb : IsInt64 batch.length) {codec : CompressionCodec} {encoding : Nat}
    {x : Chunk} (h : x.Of X batch codec encoding) {path : List SchemaElement}
    (hpath : PathOf path x.leaf) (hint : x.leaf.maxDefLevel ≤ INT32_MAX) {reps dfns : List Nat}
    (hlevels : LevelsOf X x.leaf batch x.inp reps dfns) {k : ColumnKind}
    {rows : List (Dremel.Val Value (stepRepetitions x.leaf.arrowSteps))}
    (hrows : Striped x.leaf batch x.inp reps dfns k rows) {pre post : Bytes}
    (hpre : pre.length = x.start) :
    readChunk R (pre ++ (x.pages.bytes ++ post)) path (columnChunk codec x.entry) =
      some { path := x.leaf.pathNames, repetitions := stepRepetitions x.leaf.arrowSteps,
             records := rows } := by
  obtain ⟨e, he, htype, _⟩ := hpath.agrees.type
  obtain ⟨hdr, hhdr, hcount, henc, hdata⟩ := @readDataPage_chunk R X hR codec batch encoding x h
    pre post hpre
  have hvalues : (hdr.numValues : Int) = (columnChunk codec x.entry).metaData.numValues := by
    rw [hcount]
    exact leafInputs_numValues hb h.inputs h.built.count
  unfold readChunk
  rw [he, Option.bind_some, if_pos ⟨hpath.agrees.names.symm, htype⟩, readDictionary_chunk hR h hpre,
    Option.bind_some, hdata, Option.bind_some]
  dsimp only
  rw [if_pos hvalues, readContents_chunk hR h hpath hint hlevels hrows he hhdr henc,
    Option.bind_some]
  unfold assembleColumn
  rw [hpath.repetitions, Option.bind_some, readerMaxDef_eq hpath.repetitions, hrows.striped.levels,
    hrows.striped.values, Dremel.assemble_shred, hpath.agrees.names]
  rfl

/-! ## Row groups -/

/-- A batch with a negative length is accepted on no leaf. -/
theorem leafInputs_nonneg {X : External} {leaf : LeafSpec} {batch : ArrowArray} {inp : LeafInputs}
    (hb : IsInt64 batch.length) (h : leafInputs X leaf batch = .ok inp)
    (hn : inp.numLevels ≤ INT32_MAX) : 0 ≤ batch.length := by
  cases hl : leaf.hasList with
  | true =>
    obtain ⟨_, _, _, _, hshred, _⟩ := leafInputs_list hl h
    unfold shredLeaf at hshred
    obtain ⟨_, _, hshred⟩ := bind_eq_ok.mp hshred
    obtain ⟨_, _, hshred⟩ := bind_eq_ok.mp hshred
    obtain ⟨_, _, hshred⟩ := bind_eq_ok.mp hshred
    obtain ⟨_, _, hshred⟩ := bind_eq_ok.mp hshred
    obtain ⟨_, hreserve, _⟩ := bind_eq_ok.mp hshred
    -- the levels' reservation fails for the size a negative length casts to
    unfold allocate toSize at hreserve
    unfold IsInt64 at hb
    split at hreserve
    · cases hreserve
    · omega
  | false =>
    obtain ⟨_, _, _, _, _, _, _, _, _, _, rfl⟩ := leafInputs_flat hl h
    have hcount := leafInputs_numValues hb h hn
    have hvalues : (toSize batch.length : Int) = batch.length := hcount
    omega

/-- What the batch holds on each leaf. -/
def batchColumns (leaves : List LeafSpec) (batch : ArrowArray) : Option (List TableColumn) :=
  leaves.mapM (leafColumn · batch)

section Groups

variable {R : FileDecoders} {X : External}

/-- A chunk of a recorded group, in the file. -/
theorem readChunk_group (hR : R.Inverts X) (hbits : BitmapLevels X) {columns : List ArrowSchema}
    {nodes : List SchemaNode} {leaves : List LeafSpec}
    (hflat : flattenColumns columns 0 ([], []) = .ok (nodes, leaves)) {g : Group}
    (hg : g.Of X leaves) {x : Chunk} (hx : x ∈ g.chunks) (harrays : LeafArrays x.leaf g.batch)
    (hint : x.leaf.maxDefLevel ≤ INT32_MAX) {path : List SchemaElement} (hpath : PathOf path x.leaf)
    {file pre post : Bytes} (hfile : file = pre ++ x.pages.bytes ++ post)
    (hpre : pre.length = x.start) :
    ∃ c, readChunk R file path (columnChunk g.codec x.entry) = some c ∧
      leafColumn x.leaf g.batch = some c ∧ (c.records.length : Int) = g.batch.length := by
  have hof := hg.of x hx
  have hleaf : x.leaf ∈ leaves := hg.leaves ▸ List.mem_map_of_mem hx
  obtain ⟨reps, dfns, hlevels⟩ := levelsOf hbits hflat hleaf hof.inputs hof.built.count
  obtain ⟨k, rows, hrows⟩ :=
    leafStriped_of_inputs hflat hleaf harrays hof.inputs hof.built.count hlevels.levels
  have hnonneg := leafInputs_nonneg hg.int64 hof.inputs hof.built.count
  refine ⟨_, ?_, hrows.column, ?_⟩
  · rw [hfile, List.append_assoc]
    exact readChunk_written hR hg.int64 hof hpath hint hlevels hrows hpre
  · show (rows.length : Int) = _
    rw [hrows.length]
    omega

/-- **A row group reads back as the columns of its batch.** -/
theorem readRowGroup_written (hR : R.Inverts X) (hbits : BitmapLevels X)
    {columns : List ArrowSchema} {nodes : List SchemaNode} {leaves : List LeafSpec}
    (hflat : flattenColumns columns 0 ([], []) = .ok (nodes, leaves)) {g : Group}
    (hg : g.Of X leaves) (harrays : ∀ leaf ∈ leaves, LeafArrays leaf g.batch)
    (hint : ∀ leaf ∈ leaves, leaf.maxDefLevel ≤ INT32_MAX) {paths : List (List SchemaElement)}
    (hpaths : List.Forall₂ PathOf paths leaves) {file : Bytes}
    (hfile : ∀ x ∈ g.chunks, ∃ pre post, file = pre ++ x.pages.bytes ++ post ∧
      pre.length = x.start) :
    ∃ cs, readRowGroup R file paths (rowGroup g.codec g.entry) = some cs ∧
      batchColumns leaves g.batch = some cs := by
  have hlen : (rowGroup g.codec g.entry).columns.length = paths.length := by
    rw [g.columns, List.length_map, hpaths.length_eq, ← hg.leaves, List.length_map]
  have hrec : (rowGroup g.codec g.entry).numRows = g.batch.length := rfl
  have hchunks : ∃ cs : List TableColumn,
      (paths.zip (rowGroup g.codec g.entry).columns).mapM
        (fun (path, cc) => readChunk R file path cc) = some cs ∧
      leaves.mapM (leafColumn · g.batch) = some cs ∧
      ∀ c ∈ cs, (c.records.length : Int) = g.batch.length := by
    rw [g.columns]
    have hread : ∀ x ∈ g.chunks, ∀ path, PathOf path x.leaf → ∃ c,
        readChunk R file path (columnChunk g.codec x.entry) = some c ∧
          leafColumn x.leaf g.batch = some c ∧ (c.records.length : Int) = g.batch.length := by
      intro x hx path hpath
      have hleaf : x.leaf ∈ leaves := hg.leaves ▸ List.mem_map_of_mem hx
      obtain ⟨pre, post, hf, hpre⟩ := hfile x hx
      exact readChunk_group hR hbits hflat hg hx (harrays x.leaf hleaf) (hint x.leaf hleaf) hpath
        hf hpre
    rw [← hg.leaves] at hpaths ⊢
    clear hlen hrec hfile hflat harrays hint hg
    generalize g.chunks = xs at hread hpaths ⊢
    induction xs generalizing paths with
    | nil =>
      cases hpaths
      exact ⟨[], rfl, rfl, by simp⟩
    | cons x xs ih =>
      rw [List.map_cons] at hpaths
      cases hpaths with
      | @cons path _ ps _ hpath hrest =>
        obtain ⟨c, hc, hcol, hrows⟩ := hread x List.mem_cons_self path hpath
        obtain ⟨cs, hcs, hcols, hall⟩ :=
          ih (fun y hy => hread y (List.mem_cons_of_mem x hy)) hrest
        refine ⟨c :: cs, ?_, ?_, ?_⟩
        · rw [List.map_cons, List.zip_cons_cons, List.mapM_cons, hcs]
          dsimp only
          rw [hc]
          rfl
        · rw [List.map_cons, List.mapM_cons, hcol, hcols]
          rfl
        · intro c' hc'
          rcases List.mem_cons.mp hc' with rfl | hc'
          · exact hrows
          · exact hall c' hc'
  obtain ⟨cs, hcs, hcols, hall⟩ := hchunks
  refine ⟨cs, ?_, hcols⟩
  unfold readRowGroup
  rw [if_pos hlen, hcs, Option.bind_some, if_pos (by rw [hrec]; exact hall)]

end Groups

/-! ## The footer -/

/-- The leaves' paths, from the footer of a locked writer. -/
theorem leafPaths_locked {w : Writer} {columns : List ArrowSchema}
    (hflat : flattenColumns columns 0 ([], []) = .ok (w.schemaNodes, w.leaves))
    (htop : columns.length = w.topChildren) :
    ∃ paths, leafPaths (fileMetaData w).schema = some paths ∧
      List.Forall₂ PathOf paths w.leaves := by
  obtain ⟨ts, bs, hf⟩ := flattenColumns_spec columns 0 _ _ hflat
  have hleaves : w.leaves = bs.map Branch.column := by simpa using hf.leaves
  have htree := footerTree_of_flattened hf htop.symm
  refine ⟨_, by rw [leafPaths, htree.decode]; rfl, ?_⟩
  dsimp only
  rw [paths_rootTree, hf.paths, hleaves, List.map_map, List.forall₂_map_left_iff,
    List.forall₂_map_right_iff, List.forall₂_same]
  intro b hb
  have hmem : b.column ∈ w.leaves := by
    rw [hleaves]
    exact List.mem_map_of_mem hb
  exact (hf.ok b hb).pathOf (leafOf_of_flattenColumns hflat b.column hmem)

/-- A writer without a schema has no part of one. -/
def Blank (w : Writer) : Prop :=
  w.schemaLocked = false → w.schemaNodes = [] ∧ w.leaves = [] ∧ w.topChildren = 0

theorem blank_of_locked {w : Writer} (h : w.schemaLocked = true) : Blank w := by
  intro hl
  rw [h] at hl
  cases hl

theorem blank_apply {X : External} {w w' : Writer} {op : Op} {status : N2PStatus} (h : Blank w)
    (hop : op.apply X w = some (status, w')) : Blank w' := by
  cases op with
  | setCodec codec =>
    simp only [Op.apply, Option.some.injEq] at hop
    unfold n2pWriterSetCodec at hop
    split at hop
    · cases hop
      exact h
    split at hop <;> cases hop <;> exact h
  | setEncoding encoding =>
    simp only [Op.apply, Option.some.injEq] at hop
    unfold n2pWriterSetEncoding at hop
    split at hop <;> cases hop <;> exact h
  | writeBatch schema batch =>
    rcases writeBatch_cases hop with ⟨_, hok⟩ | ⟨_, ⟨e, t, msg, _, hf, rfl⟩ | ⟨_, msg, rfl⟩⟩
    · obtain ⟨sc, b, w1, xs, _, hlock, _, rfl, _⟩ := writeOneBatch_ok hok
      exact blank_of_locked hlock.locked
    · rcases hf with ⟨_, _⟩ | ⟨sc, b, w1, t, _, hlock, hleaves⟩ | ⟨sc, b, w1, xs, _, hlock, _, _⟩
      · exact h
      · obtain ⟨pieces, msg', rfl⟩ := ((onlyStreams_writeLeaves _ _ _ _).error hleaves).1
        exact blank_of_locked hlock.locked
      · exact blank_of_locked hlock.locked
    · exact h

theorem blank_run {X : External} {w w' : Writer} {ops : List Op} {statuses : List N2PStatus}
    (h : Blank w) (hrun : run X w ops = some (statuses, w')) : Blank w' := by
  induction ops generalizing w statuses with
  | nil =>
    cases hrun
    exact h
  | cons op ops ih =>
    obtain ⟨status, w1, rest, hop, hrest, _⟩ := run_cons.mp hrun
    exact ih (blank_apply h hop) hrest

/-- **The footer's schema gives every leaf its path**, whatever calls led to it. -/
theorem leafPaths_recorded {X : External} {w : Writer} {gs : List Group} (h : Recorded X w gs)
    (hblank : Blank w) :
    ∃ paths, leafPaths (fileMetaData w).schema = some paths ∧
      List.Forall₂ PathOf paths w.leaves := by
  cases hl : w.schemaLocked with
  | true =>
    obtain ⟨_, columns, hflat, htop⟩ := h.locked hl
    exact leafPaths_locked hflat htop
  | false =>
    obtain ⟨hnodes, hleaves, htop⟩ := hblank hl
    refine ⟨[], ?_, hleaves ▸ .nil⟩
    show leafPaths (rootElement w.topChildren :: w.schemaNodes.map schemaElement) = _
    rw [hnodes, htop]
    rfl

/-- **The footer is found from the end of the file.** -/
theorem readFooter_written (R : FileDecoders) {content footer : Bytes} (hmagic : kMagic <+: content)
    (hlen : footer.length ≤ UINT32_MAX) :
    readFooter R (content ++ (footer ++ leSize footer.length ++ kMagic)) =
      R.decodeFooter footer := by
  have h4 : (leSize footer.length).length = 4 := length_leBytes _
  have hm : kMagic.length = 4 := rfl
  have hlt : footer.length < 2 ^ 32 := by
    unfold UINT32_MAX at hlen
    omega
  obtain ⟨pages, rfl⟩ := hmagic
  have hn : (kMagic ++ pages ++ (footer ++ leSize footer.length ++ kMagic)).length =
      (kMagic ++ pages).length + footer.length + 8 := by
    simp only [List.length_append, h4, hm]
    omega
  have hlast : (kMagic ++ pages ++ (footer ++ leSize footer.length ++ kMagic)).drop
      ((kMagic ++ pages).length + footer.length + 8 - 4) = kMagic := by
    rw [← List.append_assoc]
    exact List.drop_left' (by simp only [List.length_append, h4]; omega)
  have hsize : ((kMagic ++ pages ++ (footer ++ leSize footer.length ++ kMagic)).drop
      ((kMagic ++ pages).length + footer.length + 8 - 8)).take 4 = leSize footer.length := by
    rw [List.append_assoc footer, ← List.append_assoc (kMagic ++ pages),
      List.drop_left' (by simp only [List.length_append]; omega), ← h4, List.take_left]
  unfold readFooter
  dsimp only
  rw [hn, hlast, hsize, ofLE_leSize hlt]
  have hfirst : (kMagic ++ pages ++ (footer ++ leSize footer.length ++ kMagic)).take 4 =
      kMagic := by
    rw [List.append_assoc kMagic, ← hm, List.take_left]
  rw [if_pos ⟨hfirst, rfl, by simp only [List.length_append, hm]; omega⟩]
  congr 1
  rw [List.append_assoc footer, List.drop_left' (by omega), List.take_left]

/-! ## The file -/

/-- Two readings of a list that agree, and go well, on every element. -/
theorem mapM_agree {α β : Type} {f g : α → Option β} {l : List α}
    (h : ∀ a ∈ l, ∃ b, f a = some b ∧ g a = some b) :
    ∃ bs, l.mapM f = some bs ∧ l.mapM g = some bs := by
  induction l with
  | nil => exact ⟨[], rfl, rfl⟩
  | cons a l ih =>
    obtain ⟨b, hf, hg⟩ := h a List.mem_cons_self
    obtain ⟨bs, hfs, hgs⟩ := ih fun a' ha' => h a' (List.mem_cons_of_mem a ha')
    exact ⟨b :: bs, by rw [List.mapM_cons, hf, hfs]; rfl, by rw [List.mapM_cons, hg, hgs]; rfl⟩

/-- A writer's pages, with its footer behind them, read back as its recorded groups' batches. -/
theorem readFile_layout {R : FileDecoders} {X : External} (hR : R.Inverts X)
    (hbits : BitmapLevels X) {w : Writer} {gs : List Group} (h : Layout X w gs) (hblank : Blank w)
    (hcodec : ∀ g ∈ gs, g.codec = w.codec)
    (hint : ∀ leaf ∈ w.leaves, leaf.maxDefLevel ≤ INT32_MAX)
    (harrays : ∀ g ∈ gs, ∀ leaf ∈ w.leaves, LeafArrays leaf g.batch)
    (hmagic : kMagic <+: w.out.content) {footer : Bytes} (hfooter : serializeFooter X w = .ok footer)
    (hlen : footer.length ≤ UINT32_MAX) :
    ∃ table, gs.mapM (fun g => batchColumns w.leaves g.batch) = some table ∧
      readFile R (w.out.content ++ (footer ++ leSize footer.length ++ kMagic)) = some table := by
  obtain ⟨paths, hpaths, hall⟩ := leafPaths_recorded h.recorded hblank
  have hencoded : X.encodeFooter (fileMetaData w) = .ok footer := by
    unfold serializeFooter at hfooter
    cases he : X.encodeFooter (fileMetaData w) with
    | error e => rw [he] at hfooter; cases hfooter
    | ok bs => rw [he] at hfooter; cases hfooter; rfl
  have hgroups : (fileMetaData w).rowGroups = gs.map fun g => rowGroup w.codec g.entry := by
    show w.rowGroups.map (rowGroup w.codec) = _
    rw [h.recorded.groups, List.map_map]
    rfl
  have hrows : ((fileMetaData w).rowGroups.map (·.numRows)).sum = (fileMetaData w).numRows := by
    show _ = w.totalRows
    rw [hgroups, h.recorded.rows, List.map_map]
    rfl
  generalize hfile : w.out.content ++ (footer ++ leSize footer.length ++ kMagic) = file
  have hread : ∀ g ∈ gs, ∃ cs, batchColumns w.leaves g.batch = some cs ∧
      readRowGroup R file paths (rowGroup w.codec g.entry) = some cs := by
    intro g hg
    have hlocked : w.schemaLocked = true := by
      cases hl : w.schemaLocked with
      | true => rfl
      | false =>
        rw [h.recorded.unlocked hl] at hg
        cases hg
    obtain ⟨_, columns, hflat, _⟩ := h.recorded.locked hlocked
    have hplaced : ∀ x ∈ g.chunks, ∃ pre post, file = pre ++ x.pages.bytes ++ post ∧
        pre.length = x.start := by
      intro x hx
      rw [← hfile]
      exact (h.placed.more _).mem (List.mem_flatMap.mpr ⟨g, hg, hx⟩)
    obtain ⟨cs, hcs, hcols⟩ := readRowGroup_written hR hbits hflat (h.recorded.of g hg)
      (harrays g hg) hint hall hplaced
    rw [hcodec g hg] at hcs
    exact ⟨cs, hcols, hcs⟩
  obtain ⟨table, hbatches, htable⟩ := mapM_agree hread
  refine ⟨table, hbatches, ?_⟩
  unfold readFile
  rw [← hfile, readFooter_written R hmagic hlen, hR.footer _ _ hencoded, Option.bind_some,
    if_pos hrows, hpaths, Option.bind_some, hgroups, List.mapM_map, hfile]
  exact htable

/-- What is known of a run whose close succeeded: `u` stands for the writer on a device without an
    end, and `gs` for the row groups it recorded. -/
structure ClosedRun (X : External) (w u : Writer) (gs : List Group) (file : Bytes) : Prop where
  layout : Layout X u gs
  blank : Blank u
  leaves : u.leaves = w.leaves
  codec : u.codec = w.codec
  closed : ∃ footer, serializeFooter X u = .ok footer ∧ footer.length ≤ UINT32_MAX ∧
    kMagic <+: u.out.content ∧ file = u.out.content ++ (footer ++ leSize footer.length ++ kMagic)

theorem closedRun_of_close {X : External} {capacity : Nat} {room : Option Nat} {path : String}
    {ops : List Op} {statuses : List N2PStatus} {w : Writer}
    (hrun : run X (n2pWriterOpen (openedStream capacity room true) path).2 ops = some (statuses, w))
    (hclose : (n2pWriterClose X w).1 = .ok) :
    ∃ u gs, ClosedRun X w u gs (n2pWriterClose X w).2.file ∧
      run X (n2pWriterOpen (openedStream 0 none true) path).2 ops = some (statuses, u) ∧
      gs.map (·.batch) = accepted ops statuses ∧
      gs.map (·.codec) =
        usedCodecs X (n2pWriterOpen (openedStream capacity room true) path).2 ops := by
  obtain ⟨u, hrun', htwins, footer, hfooter, hlen, hmagic, hfile⟩ := run_of_close hrun hclose
  have hused := twins_usedCodecs (X := X) (by simp [ByteSink.fresh]) (by simp [ByteSink.fresh])
    (deviceTwins_open capacity room path) ops
  obtain ⟨gs, hl, hbatches, hcodecs⟩ := layout_codecs_run
    (@layout_open X (openedStream 0 none true) ⟨rfl, rfl, rfl⟩ rfl path) hrun'
  rw [List.nil_append] at hl
  -- the twin is the writer, but for its stream
  obtain ⟨_, ps, msg, _, hu⟩ := htwins
  have hfooter' : serializeFooter X u = .ok footer := by
    rw [← hfooter, hu]
    rfl
  refine ⟨u, gs, ⟨hl, blank_run (fun _ => ⟨rfl, rfl, rfl⟩) hrun', by rw [hu], by rw [hu], footer,
    hfooter', hlen, hmagic, ?_⟩, hrun', hbatches, hcodecs.trans hused.symm⟩
  rw [hfile]
  simp only [List.append_assoc]

/-- The file of a run reads back as the batches of its row groups. -/
theorem ClosedRun.readFile {R : FileDecoders} {X : External} (hR : R.Inverts X)
    (hbits : BitmapLevels X) {w u : Writer} {gs : List Group} {file : Bytes}
    (h : ClosedRun X w u gs file) (hcodec : ∀ codec ∈ gs.map (·.codec), codec = w.codec)
    (hint : ∀ leaf ∈ w.leaves, leaf.maxDefLevel ≤ INT32_MAX)
    (harrays : ∀ batch ∈ gs.map (·.batch), ∀ leaf ∈ w.leaves, LeafArrays leaf batch) :
    ∃ table, (gs.map (·.batch)).mapM (batchColumns w.leaves) = some table ∧
      N2P.readFile R file = some table := by
  obtain ⟨footer, hfooter, hlen, hmagic, hfile⟩ := h.closed
  rw [← h.leaves] at hint harrays ⊢
  rw [← h.codec] at hcodec
  obtain ⟨table, htable, hread⟩ := readFile_layout hR hbits h.layout h.blank
    (fun g hg => hcodec _ (List.mem_map_of_mem hg)) hint
    (fun g hg => harrays _ (List.mem_map_of_mem hg)) hmagic hfooter hlen
  exact ⟨table, by rw [List.mapM_map]; exact htable, hfile ▸ hread⟩

end N2P
