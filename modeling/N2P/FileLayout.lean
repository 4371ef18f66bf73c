import N2P.Records
import N2P.Reference

/-!
# The layout of the file

The footer is built at close from what the writer recorded batch by batch.  `Layout` says that the
record and the bytes agree: the offset counts the bytes, every recorded row group is the row group
of a batch, and the pages of its chunks are in the file where its entries say.  It holds in every
reachable state, whichever calls failed and wherever they did.

* `layout_step`, `layout_run` — one call, and any run, keeps the layout.
* `footer_describes_file` — what a reader finds through the footer of a run's file.
-/

namespace N2P

open Outcome

/-! ## Chunks in the file -/

/-- The chunks' bytes are in `content` at their starts, one after the other from `lo` on. -/
def Placed (content : Bytes) : Nat → List Chunk → Prop
  | lo, [] => lo ≤ content.length
  | lo, x :: xs =>
    lo ≤ x.start ∧
      (∃ pre post, content = pre ++ x.pages.bytes ++ post ∧ pre.length = x.start) ∧
      Placed content (x.start + x.pages.bytes.length) xs

theorem Placed.more {content : Bytes} (more : Bytes) {lo : Nat} {xs : List Chunk}
    (h : Placed content lo xs) : Placed (content ++ more) lo xs := by
  induction xs generalizing lo with
  | nil =>
    unfold Placed at *
    rw [List.length_append]
    omega
  | cons x xs ih =>
    obtain ⟨h1, ⟨pre, post, hc, hp⟩, h2⟩ := h
    exact ⟨h1, ⟨pre, post ++ more, by rw [hc]; simp, hp⟩, ih h2⟩

/-- Chunks streamed after the content are placed after what was placed before. -/
theorem Placed.append {content : Bytes} {lo : Nat} {xs ys : List Chunk} (h : Placed content lo xs)
    (hys : Consecutive content.length ys) :
    Placed (content ++ ys.flatMap fun y => y.pages.bytes) lo (xs ++ ys) := by
  induction xs generalizing lo with
  | nil =>
    rw [List.nil_append]
    unfold Placed at h
    induction ys generalizing content lo with
    | nil => simpa [Placed] using h
    | cons y ys ih =>
      obtain ⟨hstart, hrest⟩ := hys
      refine ⟨by omega, ⟨content, ys.flatMap fun y => y.pages.bytes, by simp, hstart.symm⟩, ?_⟩
      have hmore := @ih (content ++ y.pages.bytes) (by rw [List.length_append]; exact hrest)
        (y.start + y.pages.bytes.length) (by rw [List.length_append]; omega)
      simpa using hmore
  | cons x xs ih =>
    obtain ⟨h1, h2, h3⟩ := h
    obtain ⟨pre, post, hc, hp⟩ := h2
    exact ⟨h1, ⟨pre, post ++ ys.flatMap fun y => y.pages.bytes, by rw [hc]; simp, hp⟩, ih h3⟩

/-! ## The invariant -/

/-- The writer's record of the groups `gs` and the bytes agree. -/
structure Layout (X : External) (w : Writer) (gs : List Group) : Prop where
  stream : w.out.Unbounded
  offset : w.offset = w.out.content.length
  recorded : Recorded X w gs
  placed : Placed w.out.content kMagic.length (gs.flatMap (·.chunks))
  footer : w.footerWritten = false

/-- A writer that only streamed keeps its layout. -/
theorem Layout.streams {X : External} {w w' : Writer} {gs : List Group} (h : Layout X w gs)
    (hs : Streams w w') : Layout X w' gs := by
  have hrec := h.recorded.streams hs
  obtain ⟨pieces, msg, rfl⟩ := hs
  obtain ⟨hun, hcontent⟩ := h.stream.writeAll pieces
  refine ⟨hun, ?_, hrec, ?_, h.footer⟩
  · show w.offset + pieces.flatten.length = (w.out.writeAll pieces).content.length
    rw [hcontent, h.offset, List.length_append]
  · show Placed (w.out.writeAll pieces).content _ _
    rw [hcontent]
    exact h.placed.more _

/-- Locking the schema keeps the layout. -/
theorem Layout.lock {X : External} {w w1 : Writer} {gs : List Group} {sc : ArrowSchema}
    (h : Layout X w gs) (hl : Locked sc w w1) : Layout X w1 gs := by
  have hrec := h.recorded.lock hl
  rcases hl with _ | _
  · exact h
  · exact ⟨h.stream, h.offset, hrec, h.placed, h.footer⟩

/-- A recorded batch adds its group. -/
theorem Layout.record {X : External} {w : Writer} {gs : List Group} {b : ArrowArray}
    {xs : List Chunk} (h : Layout X w gs) (hl : w.schemaLocked = true) (hxs : Chunks X w b xs)
    (hb : IsInt64 b.length) :
    Layout X (w.record b xs) (gs ++ [⟨b, w.codec, w.encoding, xs⟩]) := by
  obtain ⟨hun, hcontent⟩ := h.stream.writeAll (xs.flatMap (·.pages.pieces))
  have hflat : (xs.flatMap (·.pages.pieces)).flatten = xs.flatMap fun x => x.pages.bytes := by
    clear hxs hun hcontent
    induction xs with
    | nil => rfl
    | cons x xs ih => simp [ih]
  rw [hflat] at hcontent
  refine ⟨hun, ?_, h.recorded.record hl hxs hb, ?_, h.footer⟩
  · show w.offset + (xs.flatMap (·.pages.pieces)).flatten.length = (w.out.writeAll _).content.length
    rw [hcontent, h.offset, hflat, List.length_append]
  · show Placed (w.out.writeAll _).content _ _
    rw [hcontent, List.flatMap_append]
    have hcons := hxs.consecutive
    rw [h.offset] at hcons
    simpa using h.placed.append hcons

/-- On a stream that takes every byte, a failed batch has only streamed and perhaps locked. -/
theorem Layout.failure {X : External} {schema : Option ArrowSchema} {batch : Option ArrowArray}
    {w w' : Writer} {e : Exit} {gs : List Group} (h : Layout X w gs)
    (hf : BatchFailure X schema batch w e w') : Layout X w' gs := by
  rcases hf with ⟨msg, _⟩ | ⟨sc, b, w1, w', _, hlock, hleaves⟩ |
    ⟨sc, b, w1, xs, _, hlock, hxs, hbad⟩
  · exact h.streams ⟨[], msg, by rw [Writer.put_nil]⟩
  · exact (h.lock hlock).streams ((onlyStreams_writeLeaves _ _ _ _).error hleaves).1
  · have := ((h.lock hlock).stream.writeAll (xs.flatMap (·.pages.pieces))).1.good
    rw [show (w1.record b xs).out.good = true from this] at hbad
    cases hbad

/-- A failed batch records no row group that was not there, unless the stream failed. -/
theorem BatchFailure.rowGroups {X : External} {schema : Option ArrowSchema}
    {batch : Option ArrowArray} {w w' : Writer} {e : Exit} (hun : w.out.Unbounded)
    (h : BatchFailure X schema batch w e w') : w'.rowGroups = w.rowGroups := by
  rcases h with _ | ⟨sc, b, w1, w', _, hlock, hleaves⟩ | ⟨sc, b, w1, xs, _, hlock, hxs, hbad⟩
  · rfl
  · obtain ⟨pieces, msg, rfl⟩ := ((onlyStreams_writeLeaves _ _ _ _).error hleaves).1
    exact hlock.settings.2.2
  · have hout : w1.out = w.out := by rcases hlock with _ | _ <;> rfl
    have hgood := (hun.writeAll (xs.flatMap (·.pages.pieces))).1.good
    rw [← hout] at hgood
    rw [show (w1.record b xs).out.good = true from hgood] at hbad
    cases hbad

/-- **One call keeps the layout**, with one more group exactly when it is an accepted batch, written
    under the codec in force. -/
theorem layout_step {X : External} {w w' : Writer} {op : Op} {status : N2PStatus}
    {gs : List Group} (h : Layout X w gs) (hop : op.apply X w = some (status, w')) :
    ∃ new, Layout X w' (gs ++ new) ∧ new.map (·.batch) = accepted [op] [status] ∧
      new.map (·.codec) = usedCodec w w' := by
  have same : ∀ msg, Layout X { w with lastError := msg } gs := fun msg =>
    h.streams ⟨[], msg, by rw [Writer.put_nil]⟩
  cases op with
  | setCodec codec =>
    simp only [Op.apply, Option.some.injEq] at hop
    unfold n2pWriterSetCodec at hop
    refine ⟨[], ?_, rfl, ?_⟩
    · rw [List.append_nil]
      split at hop
      · cases hop
        exact ⟨h.stream, h.offset, h.recorded.of_eq rfl rfl ⟨rfl, rfl, rfl, rfl⟩, h.placed,
          h.footer⟩
      split at hop
      · cases hop
        exact ⟨h.stream, h.offset, h.recorded.of_eq rfl rfl ⟨rfl, rfl, rfl, rfl⟩, h.placed,
          h.footer⟩
      · cases hop
        exact same _
    · refine (usedCodec_none ?_).symm
      split at hop
      · cases hop
        rfl
      split at hop <;> cases hop <;> rfl
  | setEncoding encoding =>
    simp only [Op.apply, Option.some.injEq] at hop
    unfold n2pWriterSetEncoding at hop
    refine ⟨[], ?_, rfl, ?_⟩
    · rw [List.append_nil]
      split at hop
      · cases hop
        exact ⟨h.stream, h.offset, h.recorded.of_eq rfl rfl ⟨rfl, rfl, rfl, rfl⟩, h.placed,
          h.footer⟩
      · cases hop
        exact same _
    · refine (usedCodec_none ?_).symm
      split at hop <;> cases hop <;> rfl
  | writeBatch schema batch =>
    rcases writeBatch_cases hop with ⟨rfl, hok⟩ | ⟨hne, hfail⟩
    · obtain ⟨sc, b, w1, xs, hargs, hlock, hxs, rfl, _⟩ := writeOneBatch_ok hok
      obtain ⟨_, hbatch, _⟩ := checkArguments_eq_ok.mp hargs
      cases batch with
      | none => cases hbatch
      | some b' =>
        cases hbatch
        obtain ⟨hcodec, _, hgroups⟩ := hlock.settings
        refine ⟨_, (h.lock hlock).record hlock.locked hxs b'.int64, rfl, ?_⟩
        rw [usedCodec_record hgroups (Eq.refl (w1.record b'.array xs).rowGroups), ← hcodec]
        rfl
    · have hnone : accepted [.writeBatch schema batch] [status] = [] := by
        cases batch with
        | none => cases status <;> rfl
        | some b => cases status <;> first | exact absurd rfl hne | rfl
      refine ⟨[], ?_, hnone.symm, (usedCodec_none ?_).symm⟩
      · rw [List.append_nil]
        rcases hfail with ⟨e, t, msg, _, hf, rfl⟩ | ⟨_, msg, rfl⟩
        · exact (h.failure hf).streams ⟨[], msg, by rw [Writer.put_nil]⟩
        · exact same msg
      · rcases hfail with ⟨e, t, msg, _, hf, rfl⟩ | ⟨_, msg, rfl⟩
        · show t.rowGroups = w.rowGroups
          exact hf.rowGroups h.stream
        · rfl

theorem accepted_cons (op : Op) (ops : List Op) (status : N2PStatus) (statuses : List N2PStatus) :
    accepted (op :: ops) (status :: statuses) =
      accepted [op] [status] ++ accepted ops statuses := by
  cases op with
  | setCodec codec => cases status <;> rfl
  | setEncoding encoding => cases status <;> rfl
  | writeBatch schema batch =>
    cases batch with
    | none => cases status <;> rfl
    | some b => cases status <;> rfl

/-- **Every run keeps the layout**, with one group for each accepted batch, in order, and each
    written under the codec in force at its call. -/
theorem layout_codecs_run {X : External} {w w' : Writer} {ops : List Op}
    {statuses : List N2PStatus} {gs : List Group} (h : Layout X w gs)
    (hrun : run X w ops = some (statuses, w')) :
    ∃ new, Layout X w' (gs ++ new) ∧ new.map (·.batch) = accepted ops statuses ∧
      new.map (·.codec) = usedCodecs X w ops := by
  induction ops generalizing w statuses gs with
  | nil =>
    cases hrun
    exact ⟨[], by simpa using h, rfl, rfl⟩
  | cons op ops ih =>
    obtain ⟨status, w1, rest, hop, hrest, rfl⟩ := run_cons.mp hrun
    obtain ⟨new1, h1, hnew1, hcodec1⟩ := layout_step h hop
    obtain ⟨new2, h2, hnew2, hcodec2⟩ := ih h1 hrest
    refine ⟨new1 ++ new2, by rw [← List.append_assoc]; exact h2, ?_, ?_⟩
    · rw [accepted_cons, List.map_append, hnew1, hnew2]
    · rw [List.map_append, hcodec1, hcodec2, usedCodecs, hop]

theorem layout_run {X : External} {w w' : Writer} {ops : List Op} {statuses : List N2PStatus}
    {gs : List Group} (h : Layout X w gs) (hrun : run X w ops = some (statuses, w')) :
    ∃ new, Layout X w' (gs ++ new) ∧ new.map (·.batch) = accepted ops statuses := by
  obtain ⟨new, hl, hbatches, _⟩ := layout_codecs_run h hrun
  exact ⟨new, hl, hbatches⟩

theorem layout_open (X : External) {sink : ByteSink} (hs : sink.Unbounded)
    (hnew : sink.content = []) (path : String) : Layout X (n2pWriterOpen sink path).2 [] := by
  have hc : (sink.write kMagic).content = kMagic := by
    rw [ByteSink.content_write hs, hnew, List.nil_append]
  unfold n2pWriterOpen
  rw [if_pos hs.isOpen]
  refine ⟨hs.write _, ?_, ⟨rfl, rfl, by simp, fun _ => rfl, nofun⟩, ?_, rfl⟩
  · show kMagic.length = (sink.write kMagic).content.length
    rw [hc]
  · show kMagic.length ≤ (sink.write kMagic).content.length
    rw [hc]

/-! ## What a reader finds -/

/-- The encoding a page's header names. -/
def Page.encoding (p : Page) : Option Encoding :=
  match p.header.dataPageHeader, p.header.dictionaryPageHeader with
  | some h, _ => some h.encoding
  | none, some h => some h.encoding
  | none, none => none

/-- A footer entry describes a chunk's pages: an optional dictionary page, then a data page whose
    body is `levels` before `values`. -/
structure DescribesPages (file : Bytes) (leaf : LeafSpec) (cc : ColumnChunk) (dict : Option Page)
    (data : Page) (levels values : Bytes) : Prop where
  type : cc.metaData.type = leaf.col.type
  path : cc.metaData.pathInSchema = leaf.pathNames
  bytes : (file.drop cc.fileOffset).take cc.metaData.totalCompressedSize =
    dict.toList.flatMap Page.bytes ++ data.bytes
  compressed : cc.metaData.totalCompressedSize =
    (dict.toList.flatMap Page.bytes ++ data.bytes).length
  uncompressed : cc.metaData.totalUncompressedSize =
    ((dict.toList ++ [data]).map fun p => p.headerBytes.length + p.body.length).sum
  sizes : ∀ p ∈ dict.toList ++ [data], p.header.uncompressedPageSize = p.body.length ∧
    p.header.compressedPageSize = p.stored.length
  dictOffset : cc.metaData.dictionaryPageOffset = dict.map fun _ => cc.fileOffset
  dictHeader : ∀ p, dict = some p → p.header.type = .dictionaryPage
  dataOffset : cc.metaData.dataPageOffset =
    cc.fileOffset + (dict.toList.flatMap Page.bytes).length
  dataHeader : data.header.type = .dataPage ∧
    ∃ h, data.header.dataPageHeader = some h ∧ (h.numValues : Int) = cc.metaData.numValues
  body : data.body = levels ++ values
  carries : levels ≠ [] ↔ leaf.hasLevels = true
  encodings : (cc.metaData.encodings.map some) =
    (dict.toList ++ [data]).map Page.encoding ++ if levels = [] then [] else [some .rle]

/-- The entry describes the chunk the batch's leaf was written as. -/
def ChunkDescribed (X : External) (file : Bytes) (batch : ArrowArray) (leaf : LeafSpec)
    (cc : ColumnChunk) : Prop :=
  ∃ (codec : CompressionCodec) (encoding : Nat) (x : Chunk), x.leaf = leaf ∧
    x.Of X batch codec encoding ∧
    DescribesPages file leaf cc x.pages.dict x.pages.data x.inp.levels x.bodies.values

/-- The row group is the batch's. -/
structure GroupDescribed (X : External) (leaves : List LeafSpec) (file : Bytes)
    (batch : ArrowArray) (rg : RowGroup) : Prop where
  rows : rg.numRows = batch.length
  size : rg.totalByteSize = (rg.columns.map fun cc => cc.metaData.totalUncompressedSize).sum
  columns : List.Forall₂ (ChunkDescribed X file batch) leaves rg.columns

theorem withLengthPrefix_ne_nil {run bytes : Bytes} (h : withLengthPrefix run = .ok bytes) :
    bytes ≠ [] := by
  unfold withLengthPrefix at h
  split at h
  · cases h
  · cases h
    simp [leSize, leBytes]

/-- The chunk carries level bytes exactly when its leaf has levels. -/
theorem leafInputs_levels {X : External} {leaf : LeafSpec} {batch : ArrowArray} {inp : LeafInputs}
    (h : leafInputs X leaf batch = .ok inp) : inp.levels ≠ [] ↔ leaf.hasLevels = true := by
  unfold LeafSpec.hasLevels
  cases hl : leaf.hasList with
  | true =>
    obtain ⟨_, _, repBytes, _, _, hrep, _, rfl⟩ := leafInputs_list hl h
    have := withLengthPrefix_ne_nil hrep
    simp [this]
  | false =>
    obtain ⟨_, _, p, _, _, _, _, _, _, hf, rfl⟩ := leafInputs_flat hl h
    rcases flatLevels_ok hf with ⟨hD, fl, p', _, hp, h2⟩ | ⟨hD, h2⟩
    · cases h2
      have hne : p ≠ [] := by
        split at hp
        · exact withLengthPrefix_ne_nil hp
        · exact withLengthPrefix_ne_nil hp
      simp [hD, hne]
    · cases h2
      simp [hD]

/-- A leaf's value count is the count its level streams have. -/
theorem leafInputs_numValues {X : External} {leaf : LeafSpec} {batch : ArrowArray}
    {inp : LeafInputs} (hb : IsInt64 batch.length) (h : leafInputs X leaf batch = .ok inp)
    (hn : inp.numLevels ≤ INT32_MAX) : (inp.numLevels : Int) = inp.numValues := by
  cases hl : leaf.hasList with
  | true =>
    obtain ⟨_, _, _, _, _, _, _, rfl⟩ := leafInputs_list hl h
    rfl
  | false =>
    obtain ⟨_, _, _, _, _, _, _, _, _, _, rfl⟩ := leafInputs_flat hl h
    simp only [INT32_MAX, toSize] at hn ⊢
    unfold IsInt64 at hb
    omega

theorem Page.length_bytes (p : Page) : p.bytes.length = p.totals.onDisk := by
  simp [Page.bytes, Page.totals]

theorem dictPage_header {d : Option (Nat × Bytes)} {p : Option Page} (h : DictPage d p) :
    ∀ q, p = some q → q.header.type = .dictionaryPage ∧ q.encoding = some .plain ∧
      q.header.uncompressedPageSize = q.body.length ∧
      q.header.compressedPageSize = q.stored.length := by
  intro q hq
  cases h with
  | none => cases hq
  | some hb _ hh =>
    cases hq
    simp [Page.encoding, hh, dictionaryPage]

/-- **An entry describes its chunk's pages**, wherever they are in the file. -/
theorem Chunk.Of.described {X : External} {file pre post : Bytes} {batch : ArrowArray}
    {codec label : CompressionCodec} {encoding : Nat} {x : Chunk} (h : x.Of X batch codec encoding)
    (hb : IsInt64 batch.length) (hfile : file = pre ++ x.pages.bytes ++ post)
    (hpre : pre.length = x.start) :
    ChunkDescribed X file batch x.leaf (columnChunk label x.entry) := by
  refine ⟨codec, encoding, x, rfl, h, ?_⟩
  have hdict := dictPage_header h.built.dict
  have hcompressed : x.entry.totalCompressed = x.pages.bytes.length := by
    simp only [Chunk.entry, ChunkPages.entry, ChunkPages.bytes, List.length_flatMap]
    congr 1
    exact List.map_congr_left fun p _ => (Page.length_bytes p).symm
  have hbytes : x.pages.bytes = x.pages.dict.toList.flatMap Page.bytes ++ x.pages.data.bytes := by
    simp [ChunkPages.bytes, ChunkPages.pages]
  constructor
  · rfl
  · rfl
  · show (file.drop x.start).take x.entry.totalCompressed = _
    rw [hfile, hcompressed, ← hbytes, ← hpre, List.append_assoc, List.drop_left, List.take_left]
  · show x.entry.totalCompressed = _
    rw [hcompressed, hbytes]
  · rfl
  · intro p hp
    rcases List.mem_append.mp hp with hp | hp
    · exact (hdict p (Option.mem_toList.mp hp)).2.2
    · rw [List.mem_singleton.mp hp, h.built.header]
      exact ⟨rfl, rfl⟩
  · have hstart : (x.inp.start x.leaf x.start).fileOffset = x.start := rfl
    simp only [columnChunk, Chunk.entry, ChunkPages.entry, hstart]
    cases hd : x.pages.dict <;> simp
  · exact fun p hp => (hdict p hp).1
  · rfl
  · rw [h.built.header]
    exact ⟨rfl, _, rfl, leafInputs_numValues hb h.inputs h.built.count⟩
  · exact h.built.body
  · exact leafInputs_levels h.inputs
  · have hdata : x.pages.data.encoding = some x.bodies.encoding := by
      simp [Page.encoding, h.built.header, dataPage]
    have hlevels := leafInputs_levels h.inputs
    simp only [columnChunk, Chunk.entry, ChunkPages.entry, withLevels, List.map_append,
      List.map_cons, List.map_nil, hdata]
    have hd : x.pages.dict.toList.map Page.encoding =
        if x.pages.dict.isSome then [some .plain] else [] := by
      cases hp : x.pages.dict with
      | none => rfl
      | some p => simp [(hdict p hp).2.1]
    rw [hd]
    cases hl : x.leaf.hasLevels with
    | true =>
      rw [if_pos rfl, if_neg (hlevels.mpr hl)]
      cases x.pages.dict <;> rfl
    | false =>
      have hnil : x.inp.levels = [] := by
        by_contra hne
        rw [hlevels.mp hne] at hl
        cases hl
      rw [if_neg (by simp), if_pos hnil]
      cases x.pages.dict <;> rfl

/-- A chunk placed in the file is somewhere in it. -/
theorem Placed.mem {content : Bytes} {lo : Nat} {xs : List Chunk} (h : Placed content lo xs)
    {x : Chunk} (hx : x ∈ xs) :
    ∃ pre post, content = pre ++ x.pages.bytes ++ post ∧ pre.length = x.start := by
  induction xs generalizing lo with
  | nil => cases hx
  | cons y ys ih =>
    obtain ⟨_, hy, hrest⟩ := h
    rcases List.mem_cons.mp hx with rfl | hx
    · exact hy
    · exact ih hrest hx

/-- Placed chunks lie after `lo` and within the content. -/
theorem Placed.bounds {content : Bytes} {lo : Nat} {xs : List Chunk} (h : Placed content lo xs) :
    lo ≤ content.length ∧
      ∀ x ∈ xs, lo ≤ x.start ∧ x.start + x.pages.bytes.length ≤ content.length := by
  induction xs generalizing lo with
  | nil => exact ⟨h, by simp⟩
  | cons y ys ih =>
    obtain ⟨h1, _, hrest⟩ := h
    obtain ⟨h2, h3⟩ := ih hrest
    refine ⟨by omega, fun x hx => ?_⟩
    rcases List.mem_cons.mp hx with rfl | hx
    · exact ⟨h1, h2⟩
    · have := h3 x hx
      omega

/-- Placed chunks do not overlap. -/
theorem Placed.ordered {content : Bytes} {lo : Nat} {xs : List Chunk} (h : Placed content lo xs) :
    xs.Pairwise fun x y => x.start + x.pages.bytes.length ≤ y.start := by
  induction xs generalizing lo with
  | nil => exact .nil
  | cons y ys ih =>
    obtain ⟨_, _, hrest⟩ := h
    exact .cons (fun x hx => (hrest.bounds.2 x hx).1) (ih hrest)

/-- The bytes a footer entry covers. -/
def ColumnChunk.stop (cc : ColumnChunk) : Nat := cc.fileOffset + cc.metaData.totalCompressedSize

theorem Chunk.stop_entry (label : CompressionCodec) (x : Chunk) :
    (columnChunk label x.entry).stop = x.start + x.pages.bytes.length := by
  show x.start + x.entry.totalCompressed = _
  simp only [Chunk.entry, ChunkPages.entry, ChunkPages.bytes, List.length_flatMap]
  congr 2
  exact List.map_congr_left fun p _ => (Page.length_bytes p).symm

/-- The footer's chunks, row group by row group. -/
def FileMetaData.chunks (fm : FileMetaData) : List ColumnChunk := fm.rowGroups.flatMap (·.columns)

theorem Layout.chunks {X : External} {w : Writer} {gs : List Group} (h : Layout X w gs) :
    (fileMetaData w).chunks =
      (gs.flatMap (·.chunks)).map fun x => columnChunk w.codec x.entry := by
  simp [FileMetaData.chunks, fileMetaData, h.recorded.groups, rowGroup, Group.entry, batchGroup,
    RowGroupMeta.addAll, List.flatMap_map, List.map_flatMap, Function.comp_def]

/-- A recorded group is described by its row group in the footer, whatever follows its bytes. -/
theorem Layout.groupDescribed {X : External} {w : Writer} {gs : List Group} (h : Layout X w gs)
    {g : Group} (hg : g ∈ gs) (more : Bytes) :
    GroupDescribed X w.leaves (w.out.content ++ more) g.batch (rowGroup w.codec g.entry) := by
  have hof := h.recorded.of g hg
  refine ⟨rfl, ?_, ?_⟩
  · simp [rowGroup, Group.entry, batchGroup, RowGroupMeta.addAll, columnChunk, Function.comp_def]
  · rw [← hof.leaves]
    simp only [rowGroup, Group.entry, batchGroup, RowGroupMeta.addAll, List.nil_append,
      List.map_map, List.forall₂_map_left_iff, List.forall₂_map_right_iff]
    rw [List.forall₂_same]
    intro x hx
    obtain ⟨pre, post, hfile, hpre⟩ :=
      (h.placed.more more).mem (List.mem_flatMap.mpr ⟨g, hg, hx⟩)
    exact (hof.of x hx).described hof.int64 hfile hpre

/-- The footer's row groups are the recorded groups', whatever follows their bytes. -/
theorem Layout.described {X : External} {w : Writer} {gs : List Group} (h : Layout X w gs)
    (more : Bytes) :
    List.Forall₂ (GroupDescribed X w.leaves (w.out.content ++ more)) (gs.map (·.batch))
      (fileMetaData w).rowGroups := by
  show List.Forall₂ _ _ (w.rowGroups.map (rowGroup w.codec))
  rw [h.recorded.groups, List.map_map, List.forall₂_map_left_iff, List.forall₂_map_right_iff,
    List.forall₂_same]
  exact fun g hg => h.groupDescribed hg more

/-- Closing appends the footer, its length and the magic. -/
theorem Layout.close {X : External} {w : Writer} {gs : List Group} (h : Layout X w gs)
    {footer : Bytes} (hf : serializeFooter X w = .ok footer) (hlen : footer.length ≤ UINT32_MAX) :
    (n2pWriterClose X w).1 = .ok ∧
      (n2pWriterClose X w).2.file =
        w.out.content ++ (footer ++ leSize footer.length ++ kMagic) := by
  obtain ⟨hun, hcontent⟩ := h.stream.writeAll (footerTail footer)
  have hout : (footerTail footer).foldl ByteSink.write w.out =
      w.out.writeAll (footerTail footer) := rfl
  have hdrain := hun.drain
  have hflush : (w.out.writeAll (footerTail footer)).flush =
      (w.out.writeAll (footerTail footer)).drain := by
    unfold ByteSink.flush
    rw [if_pos hun.good]
  unfold n2pWriterClose
  rw [if_pos ⟨h.stream.isOpen, by rw [h.footer]; rfl⟩]
  simp only [hf, if_neg (Nat.not_lt.mpr hlen), hout]
  rw [hflush, if_pos hdrain.good]
  refine ⟨rfl, ?_⟩
  rw [ByteSink.file_close hdrain.room, ByteSink.content_drain hun.room, hcontent]
  simp [footerTail]

/-- **The footer describes exactly the bytes of the file.** -/
theorem footer_describes_file {X : External} {sink : ByteSink} {path : String} {ops : List Op}
    {statuses : List N2PStatus} {w : Writer} (hs : sink.Unbounded) (hnew : sink.content = [])
    (hrun : run X (n2pWriterOpen sink path).2 ops = some (statuses, w)) :
    w.offset = w.out.content.length ∧
    (fileMetaData w).numRows = ((accepted ops statuses).map (·.length)).sum ∧
    List.Forall₂ (GroupDescribed X w.leaves w.out.content) (accepted ops statuses)
      (fileMetaData w).rowGroups ∧
    (fileMetaData w).chunks.Pairwise (fun c c' => c.stop ≤ c'.fileOffset) ∧
    (∀ c ∈ (fileMetaData w).chunks, kMagic.length ≤ c.fileOffset ∧ c.stop ≤ w.out.content.length) ∧
    ∀ footer, serializeFooter X w = .ok footer → footer.length ≤ UINT32_MAX →
      (n2pWriterClose X w).1 = .ok ∧
      (n2pWriterClose X w).2.file =
        w.out.content ++ (footer ++ leSize footer.length ++ kMagic) ∧
      List.Forall₂ (GroupDescribed X w.leaves (n2pWriterClose X w).2.file)
        (accepted ops statuses) (fileMetaData w).rowGroups := by
  obtain ⟨gs, hl, hgs⟩ := layout_run (layout_open X hs hnew path) hrun
  rw [List.nil_append] at hl
  rw [← hgs]
  refine ⟨hl.offset, ?_, ?_, ?_, ?_, ?_⟩
  · show w.totalRows = _
    rw [hl.recorded.rows, List.map_map]
    rfl
  · have := hl.described []
    rwa [List.append_nil] at this
  · rw [hl.chunks, List.pairwise_map]
    exact hl.placed.ordered.imp fun {x y} hxy => by
      rw [Chunk.stop_entry]
      exact hxy
  · intro c hc
    rw [hl.chunks] at hc
    obtain ⟨x, hx, rfl⟩ := List.mem_map.mp hc
    rw [Chunk.stop_entry]
    exact hl.placed.bounds.2 x hx
  · intro footer hf hlen
    obtain ⟨hstatus, hfile⟩ := hl.close hf hlen
    refine ⟨hstatus, hfile, ?_⟩
    rw [hfile]
    exact hl.described _

/-- A column of strings and a REQUIRED `int32` column. -/
def nameAndNumber : ArrowSchema :=
  .nested "+s" "" false [.leaf "u" "name" false, .leaf "i" "n" false]

/-- Four rows, whose first number may be null. -/
def fourRows (null : Bool) : Batch where
  array := .struct 4 none 0
    [.strings [0, 1, 2, 3, 4] [0x61, 0x61, 0x61, 0x61] none 0,
      if null then .int32 [1, 2, 3, 4] (some [0b1110]) 1 else .int32 [1, 2, 3, 4] none 0]
  int64 := by show IsInt64 4; decide

/-- The third call streams the pages of its first column and is then refused for a null. -/
def refusedInBetween : List Op :=
  [.writeBatch (some nameAndNumber) (some (fourRows false)), .setEncoding 1,
    .writeBatch (some nameAndNumber) (some (fourRows true)),
    .writeBatch (some nameAndNumber) (some (fourRows false))]

theorem footer_describes_file_refused :
    ∃ w, run .reference freshWriter refusedInBetween =
        some ([.ok, .ok, .invalidArgument, .ok], w) ∧
      w.offset = w.out.content.length ∧ (fileMetaData w).numRows = 8 ∧
      List.Forall₂ (GroupDescribed .reference w.leaves w.out.content)
        [(fourRows false).array, (fourRows false).array] (fileMetaData w).rowGroups := by
  have hstatuses : (run .reference freshWriter refusedInBetween).map (·.1) =
      some [.ok, .ok, .invalidArgument, .ok] := by decide +kernel
  obtain ⟨⟨statuses, w⟩, hrun, hs⟩ := Option.map_eq_some_iff.mp hstatuses
  dsimp only at hs
  subst hs
  have h := @footer_describes_file .reference (.fresh 8191 none) "out.parquet" _ _ w
    ⟨rfl, rfl, rfl⟩ rfl hrun
  exact ⟨w, hrun, h.1, h.2.1, h.2.2.1⟩

end N2P
