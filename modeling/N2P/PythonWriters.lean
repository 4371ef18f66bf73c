import N2P.WriteFile

/-!
# The Python writers

`n2p_bindings.cpp` drives the C API three times: `write_batch` through `n2p_write_file`,
`write_table` batch by batch from a stream, and `ParquetWriter` one call at a time.

* `writeBatch`, `writeTable`, `ParquetWriter` — the three, down to the texts they raise.
* `streamOne` — one batch streamed under a codec, which all three come to: `writeBatch` under
  ZSTD, whatever codec it is given.
* `threePaths_iff` — when they agree on a batch and a codec.
-/

namespace N2P.Python

/-! ## The bindings -/

/-- How a call fails: an exception with its text, or undefined behaviour. -/
inductive Failure where
  | raised (what : Bytes)
  | undefined
  deriving DecidableEq, Repr

/-- `throw_n2p`. -/
def throwN2P {α : Type} (context : String) (code : N2PStatus) (err : Bytes) : Except Failure α :=
  let label :=
    match code with
    | .invalidArgument => "invalid argument"
    | .unsupportedType => "unsupported type"
    | .ioError => "I/O error"
    | .ok => "unknown error"
  let msg := utf8 (context ++ ": " ++ label)
  .error (.raised (if err = [] then msg else msg ++ utf8 " (" ++ err ++ utf8 ")"))

/-- `parse_codec`: the enumerators are 0 and 1. -/
def parseCodec (codec : String) : Except Failure Int :=
  if codec = "zstd" ∨ codec = "ZSTD" then .ok 0
  else if codec = "uncompressed" ∨ codec = "none" ∨ codec = "UNCOMPRESSED" then .ok 1
  else .error (.raised (utf8 "codec must be 'zstd' or 'uncompressed'"))

/-- A file that was closed with success, and the metadata its footer encodes. -/
structure ParquetFile where
  bytes : Bytes
  footer : FileMetaData

/-- `n2p_writer_close`, and what `write_batches` and `ParquetWriter` make of it. -/
def closeFile (X : External) (w : Writer) : Except Failure ParquetFile :=
  let (rc, out) := n2pWriterClose X w
  if rc ≠ .ok then throwN2P "n2p_writer_close" rc []
  else .ok { bytes := out.file, footer := fileMetaData w }

/-- `n2p_writer_write_batch`, likewise. -/
def writeNext (X : External) (w : Writer) (schema : ArrowSchema) (batch : ArrowArray) :
    Except Failure Writer :=
  match n2pWriterWriteBatch X w (some schema) (some batch) with
  | none => .error .undefined
  | some (rc, w) =>
    if rc ≠ .ok then throwN2P "n2p_writer_write_batch" rc (cBytes w.lastError) else .ok w

/-- The first round of `write_batches`, up to the batch. -/
def openFirst (sink : ByteSink) (path : String) (codec : Int) : Except Failure Writer :=
  let (rc, w) := n2pWriterOpen sink path
  if rc ≠ .ok then throwN2P "n2p_writer_open" rc (cBytes w.lastError)
  else
    let (rc, w) := n2pWriterSetCodec w codec
    if rc ≠ .ok then throwN2P "n2p_writer_set_codec" rc (cBytes w.lastError) else .ok w

/-- The loop of `write_batches`, from the writer that is open, if one is. -/
def writeBatchesFrom (X : External) (sink : ByteSink) (path : String) (codec : Int)
    (schema : ArrowSchema) : Option Writer → List ArrowArray → Except Failure ParquetFile
  | none, [] =>
    .error (.raised (utf8 "cannot write empty table with no record batches"))
  | some w, [] => closeFile X w
  | writer, batch :: rest => do
    let w ←
      match writer with
      | none => openFirst sink path codec
      | some w => pure w
    let w ← writeNext X w schema batch
    writeBatchesFrom X sink path codec schema (some w) rest

/-- `write_table`, on the batches of a stream. -/
def writeTable (X : External) (sink : ByteSink) (path : String) (schema : ArrowSchema)
    (batches : List ArrowArray) (codec : String) : Except Failure ParquetFile := do
  let codec ← parseCodec codec
  writeBatchesFrom X sink path codec schema none batches

/-- `write_batch`.  The codec is never looked at. -/
def writeBatch (X : External) (sink : ByteSink) (path : String) (schema : ArrowSchema)
    (batch : ArrowArray) (_codec : String) : Except Failure ParquetFile :=
  match n2pWriteFile X sink (some path) (some schema) (some batch) (some 512) with
  | none => .error .undefined
  | some r =>
    if r.status ≠ .ok then throwN2P "n2p_write_file" r.status (r.message.getD [])
    else
      match r.closed with
      | none => .error .undefined -- only a null path has no writer
      | some (w, out) => .ok { bytes := out.file, footer := fileMetaData w }

structure ParquetWriter where
  writer : Option Writer
  rowGroups : Int := 0
  numRows : Int := 0

/-- `__init__`.  A codec that is refused is reported from the freed writer. -/
def ParquetWriter.init (sink : ByteSink) (path : String) (codec : String) :
    Except Failure ParquetWriter := do
  let codec ← parseCodec codec
  let (rc, w) := n2pWriterOpen sink path
  if rc ≠ .ok then throwN2P "n2p_writer_open" rc (cBytes w.lastError)
  else
    let (rc, w) := n2pWriterSetCodec w codec
    if rc ≠ .ok then .error .undefined else .ok { writer := some w }

def ParquetWriter.writeBatch (X : External) (self : ParquetWriter) (schema : ArrowSchema)
    (batch : ArrowArray) : Except Failure ParquetWriter :=
  match self.writer with
  | none => .error (.raised (utf8 "ParquetWriter is closed"))
  | some w => do
    let w ← writeNext X w schema batch
    pure { writer := some w, rowGroups := self.rowGroups + 1,
           numRows := self.numRows + batch.length }

/-- `close`: the file, unless it was closed before. -/
def ParquetWriter.close (X : External) (self : ParquetWriter) :
    Except Failure (Option ParquetFile) :=
  match self.writer with
  | none => .ok none
  | some w =>
    if self.rowGroups = 0 then
      .error (.raised (utf8 "cannot close ParquetWriter without writing at least one batch"))
    else (closeFile X w).map some

/-- `ParquetWriter(path, codec)`, one `write_batch`, `close`. -/
def writeOnce (X : External) (sink : ByteSink) (path : String) (schema : ArrowSchema)
    (batch : ArrowArray) (codec : String) : Except Failure (Option ParquetFile) := do
  let self ← ParquetWriter.init sink path codec
  let self ← self.writeBatch X schema batch
  self.close X

/-! ## One batch -/

theorem ok_bind {α β : Type} (a : α) (f : α → Except Failure β) :
    ((.ok a : Except Failure α) >>= f) = f a := rfl

theorem error_bind {α β : Type} (e : Failure) (f : α → Except Failure β) :
    ((.error e : Except Failure α) >>= f) = .error e := rfl

/-- The enumerators of the codecs in the C header. -/
def enumerator : CompressionCodec → Int
  | .zstd => 0
  | .uncompressed => 1

/-- One batch under a codec: open, set, write, close. -/
def streamOne (X : External) (sink : ByteSink) (path : String) (codec : Int)
    (schema : ArrowSchema) (batch : ArrowArray) : Except Failure ParquetFile := do
  let w ← openFirst sink path codec
  let w ← writeNext X w schema batch
  closeFile X w

/-- What `n2p_writer_open`, `n2p_writer_write_batch` and `n2p_writer_close` report of one batch
    under a codec, unless the batch sends them out of bounds. -/
def reported (X : External) (sink : ByteSink) (path : String) (codec : CompressionCodec)
    (schema : ArrowSchema) (batch : ArrowArray) : Option N2PStatus :=
  let (rc, w) := n2pWriterOpen sink path
  if rc ≠ .ok then some rc
  else
    match n2pWriterWriteBatch X { w with codec } (some schema) (some batch) with
    | none => none
    | some (rc, w) => if rc ≠ .ok then some rc else some (n2pWriterClose X w).1

/-- The call raises an exception. -/
def Raises {α : Type} (x : Except Failure α) : Prop := ∃ what, x = .error (.raised what)

/-- The codecs a footer names, one a column chunk. -/
def ParquetFile.codecs (f : ParquetFile) : List CompressionCodec :=
  f.footer.rowGroups.flatMap fun rg => rg.columns.map (·.metaData.codec)

/-- The three calls all raise, or all write the same bytes with the same codecs. -/
def ThreePathsAgree (one table : Except Failure ParquetFile)
    (writer : Except Failure (Option ParquetFile)) : Prop :=
  (Raises one ∧ Raises table ∧ Raises writer) ∨
  ∃ f g h, one = .ok f ∧ table = .ok g ∧ writer = .ok (some h) ∧
    f.bytes = g.bytes ∧ g.bytes = h.bytes ∧ f.codecs = g.codecs ∧ g.codecs = h.codecs

section Paths

variable {X : External} {sink : ByteSink} {path : String} {schema : ArrowSchema}
  {batch : ArrowArray} {codec : String}

/-- `parse_codec` knows two codecs. -/
theorem parseCodec_cases (codec : String) :
    (codec = "zstd" ∨ codec = "ZSTD") ∧ parseCodec codec = .ok (enumerator .zstd) ∨
      ¬(codec = "zstd" ∨ codec = "ZSTD") ∧
        ((codec = "uncompressed" ∨ codec = "none" ∨ codec = "UNCOMPRESSED") ∧
            parseCodec codec = .ok (enumerator .uncompressed) ∨
          ¬(codec = "uncompressed" ∨ codec = "none" ∨ codec = "UNCOMPRESSED") ∧
            Raises (parseCodec codec)) := by
  unfold parseCodec
  by_cases hz : codec = "zstd" ∨ codec = "ZSTD"
  · rw [if_pos hz]
    exact .inl ⟨hz, rfl⟩
  · rw [if_neg hz]
    refine .inr ⟨hz, ?_⟩
    by_cases hu : codec = "uncompressed" ∨ codec = "none" ∨ codec = "UNCOMPRESSED"
    · rw [if_pos hu]
      exact .inl ⟨hu, rfl⟩
    · rw [if_neg hu]
      exact .inr ⟨hu, _, rfl⟩

/-- Setting a codec that exists only sets it. -/
theorem setCodec_enumerator (codec : CompressionCodec) (w : Writer) :
    n2pWriterSetCodec w (enumerator codec) = (.ok, { w with codec }) := by
  cases codec with
  | zstd => rfl
  | uncompressed => rfl

theorem writeTable_one :
    writeTable X sink path schema [batch] codec =
      parseCodec codec >>= fun codec => streamOne X sink path codec schema batch := by
  rfl

theorem writeOnce_one :
    writeOnce X sink path schema batch codec =
      (parseCodec codec >>= fun codec => streamOne X sink path codec schema batch).map some := by
  have known : ∀ c, parseCodec codec = .ok c → ∃ k, c = enumerator k := by
    intro c hc
    rcases parseCodec_cases codec with ⟨_, h⟩ | ⟨_, ⟨_, h⟩ | ⟨_, what, h⟩⟩
    · rw [h] at hc
      exact ⟨.zstd, (Except.ok.inj hc).symm⟩
    · rw [h] at hc
      exact ⟨.uncompressed, (Except.ok.inj hc).symm⟩
    · rw [h] at hc
      cases hc
  unfold writeOnce ParquetWriter.init
  cases hc : parseCodec codec with
  | error e => rfl
  | ok c =>
    obtain ⟨k, rfl⟩ := known c hc
    show _ = (streamOne X sink path (enumerator k) schema batch).map some
    unfold streamOne openFirst
    have hset := setCodec_enumerator k
    obtain ⟨rc, w⟩ := n2pWriterOpen sink path
    by_cases hrc : rc = .ok
    · subst hrc
      simp only [ok_bind, ne_eq, not_true_eq_false, if_false, hset]
      generalize ({ w with codec := k } : Writer) = w
      unfold ParquetWriter.writeBatch
      dsimp only
      cases writeNext X w schema batch with
      | error e => rfl
      | ok w => rfl
    · simp only [ne_eq, hrc, not_false_eq_true, if_true]
      rfl

/-- **`write_batch` streams the batch under ZSTD**, up to the text of an exception. -/
theorem writeBatch_eq (X : External) (sink : ByteSink) (path : String) (schema : ArrowSchema)
    (batch : ArrowArray) (codec : String) :
    (Raises (writeBatch X sink path schema batch codec) ↔
        Raises (streamOne X sink path (enumerator .zstd) schema batch)) ∧
      ∀ f, writeBatch X sink path schema batch codec = .ok f ↔
        streamOne X sink path (enumerator .zstd) schema batch = .ok f := by
  have raised : ∀ {x y : Except Failure ParquetFile}, Raises x → Raises y →
      (Raises x ↔ Raises y) ∧ ∀ f, x = .ok f ↔ y = .ok f := by
    rintro x y ⟨e, rfl⟩ ⟨e', rfl⟩
    exact ⟨iff_of_true ⟨e, rfl⟩ ⟨e', rfl⟩, fun f => iff_of_false nofun nofun⟩
  have hcodec : n2pWriterSetCodec (n2pWriterOpen sink path).2 (enumerator .zstd) =
      (.ok, (n2pWriterOpen sink path).2) := by
    unfold n2pWriterOpen
    split <;> rfl
  unfold writeBatch n2pWriteFile streamOne openFirst
  dsimp only
  generalize n2pWriterOpen sink path = r at hcodec ⊢
  obtain ⟨rc, w⟩ := r
  change n2pWriterSetCodec w (enumerator .zstd) = (.ok, w) at hcodec
  by_cases hrc : rc = .ok
  · subst hrc
    simp only [ok_bind, ne_eq, not_true_eq_false, if_false, hcodec]
    unfold writeNext
    cases n2pWriterWriteBatch X w (some schema) (some batch) with
    | none => exact ⟨Iff.rfl, fun f => Iff.rfl⟩
    | some r =>
      obtain ⟨status, w⟩ := r
      by_cases hs : status = .ok
      · subst hs
        simp only [ne_eq, not_true_eq_false, if_false, ok_bind]
        unfold closeFile
        generalize n2pWriterClose X w = closed
        obtain ⟨rc, out⟩ := closed
        by_cases hrc : rc = .ok
        · subst hrc
          exact ⟨Iff.rfl, fun f => Iff.rfl⟩
        · simp only [ne_eq, hrc, not_false_eq_true, if_true]
          exact raised ⟨_, rfl⟩ ⟨_, rfl⟩
      · simp only [ne_eq, hs, not_false_eq_true, if_true]
        exact raised ⟨_, rfl⟩ ⟨_, rfl⟩
  · simp only [ne_eq, hrc, not_false_eq_true, if_true]
    exact raised ⟨_, rfl⟩ ⟨_, rfl⟩

/-- **Every chunk of a batch streamed under a codec is labelled with it**, and there is one. -/
theorem codecs_streamOne {k : CompressionCodec} {f : ParquetFile}
    (h : streamOne X sink path (enumerator k) schema batch = .ok f) :
    f.codecs ≠ [] ∧ ∀ label ∈ f.codecs, label = k := by
  unfold streamOne openFirst at h
  have hset := setCodec_enumerator k
  have hfresh : (n2pWriterOpen sink path).2.schemaLocked = false ∧
      (n2pWriterOpen sink path).2.rowGroups = [] := by
    unfold n2pWriterOpen
    split <;> exact ⟨rfl, rfl⟩
  generalize n2pWriterOpen sink path = r at h hfresh
  obtain ⟨rc, w⟩ := r
  by_cases hrc : rc = .ok
  · subst hrc
    simp only [ok_bind, ne_eq, not_true_eq_false, if_false, hset] at h
    unfold writeNext at h
    split at h
    · cases h
    · rename_i status w' hbatch
      by_cases hs : status = .ok
      · subst hs
        simp only [ne_eq, not_true_eq_false, if_false, ok_bind] at h
        rcases writeBatch_cases hbatch with ⟨_, hok⟩ | ⟨hne, _⟩
        · obtain ⟨sc, b, w1, xs, _, hlock, hxs, rfl, _⟩ := writeOneBatch_ok hok
          obtain ⟨hw1, _, hgroups⟩ := hlock.settings
          have hleaves : xs ≠ [] := by
            rintro rfl
            have hnone : w1.leaves = [] := hxs.leaves.symm
            rcases hlock with ⟨hl, _⟩ | ⟨_, _, _, _, hne⟩
            · rw [hfresh.1] at hl
              cases hl
            · exact hne hnone
          have hf : f.codecs = xs.map fun _ => k := by
            unfold closeFile at h
            dsimp only at h
            split at h
            · cases h
            · cases h
              have hnone : w.rowGroups = [] := hfresh.2
              simp only [ParquetFile.codecs, fileMetaData, Writer.record, hgroups, hnone]
              simp [rowGroup, columnChunk, batchGroup, RowGroupMeta.addAll, Writer.put, hw1,
                Function.comp_def]
          rw [hf]
          refine ⟨by simpa using hleaves, fun label hlabel => ?_⟩
          obtain ⟨_, _, rfl⟩ := List.mem_map.mp hlabel
          rfl
        · exact absurd rfl hne
      · simp only [ne_eq, hs, not_false_eq_true, if_true] at h
        cases h
  · simp only [ne_eq, hrc, not_false_eq_true, if_true] at h
    cases h

/-- A stream has a result, an exception or no defined end, as the C API reports. -/
theorem streamOne_cases (X : External) (sink : ByteSink) (path : String) (schema : ArrowSchema)
    (batch : ArrowArray) (codec : CompressionCodec) :
    (reported X sink path codec schema batch = some .ok ∧
        ∃ f, streamOne X sink path (enumerator codec) schema batch = .ok f) ∨
      (∃ rc, rc ≠ .ok ∧ reported X sink path codec schema batch = some rc ∧
        Raises (streamOne X sink path (enumerator codec) schema batch)) ∨
      reported X sink path codec schema batch = none ∧
        streamOne X sink path (enumerator codec) schema batch = .error .undefined := by
  unfold reported streamOne openFirst
  have hset := setCodec_enumerator codec
  obtain ⟨rc, w⟩ := n2pWriterOpen sink path
  by_cases hrc : rc = .ok
  · subst hrc
    simp only [ok_bind, ne_eq, not_true_eq_false, if_false, hset]
    change (match n2pWriterWriteBatch X { w with codec } _ _ with
      | none => none | some (rc, w) => _) = _ ∧ _ ∨ _
    unfold writeNext
    cases n2pWriterWriteBatch X { w with codec } (some schema) (some batch) with
    | none => exact .inr (.inr ⟨rfl, rfl⟩)
    | some r =>
      obtain ⟨status, w⟩ := r
      by_cases hs : status = .ok
      · subst hs
        simp only [ne_eq, not_true_eq_false, if_false, ok_bind]
        unfold closeFile
        generalize n2pWriterClose X w = closed
        obtain ⟨rc, out⟩ := closed
        by_cases hrc : rc = .ok
        · subst hrc
          exact .inl ⟨rfl, _, rfl⟩
        · simp only [ne_eq, hrc, not_false_eq_true, if_true]
          exact .inr (.inl ⟨rc, hrc, rfl, _, rfl⟩)
      · simp only [ne_eq, hs, not_false_eq_true, if_true]
        exact .inr (.inl ⟨status, hs, rfl, _, rfl⟩)
  · simp only [ne_eq, hrc, not_false_eq_true, if_true]
    exact .inr (.inl ⟨rc, hrc, rfl, _, rfl⟩)

theorem raises_streamOne (X : External) (sink : ByteSink) (path : String) (schema : ArrowSchema)
    (batch : ArrowArray) (codec : CompressionCodec) :
    Raises (streamOne X sink path (enumerator codec) schema batch) ↔
      ∃ rc, rc ≠ .ok ∧ reported X sink path codec schema batch = some rc := by
  rcases streamOne_cases X sink path schema batch codec with
    ⟨hr, f, hf⟩ | ⟨rc, hrc, hr, hraise⟩ | ⟨hr, hundef⟩
  · rw [hf, hr]
    exact iff_of_false nofun fun ⟨rc, hrc, h⟩ => hrc (Option.some.inj h).symm
  · exact iff_of_true hraise ⟨rc, hrc, hr⟩
  · rw [hundef, hr]
    exact iff_of_false nofun nofun

/-- `ParquetWriter` does what `write_table` does on one batch: two results are left to compare. -/
theorem threePathsAgree_map {one table : Except Failure ParquetFile} :
    ThreePathsAgree one table (table.map some) ↔
      (Raises one ∧ Raises table) ∨
      ∃ f g, one = .ok f ∧ table = .ok g ∧ f.bytes = g.bytes ∧ f.codecs = g.codecs := by
  have hraises : Raises (table.map some) ↔ Raises table := by
    unfold Raises
    simp only [Outcome.map_eq_error]
  unfold ThreePathsAgree
  rw [hraises, and_self]
  constructor
  · rintro (h | ⟨f, g, _, hone, htable, _, hbytes, _, hcodecs, _⟩)
    · exact .inl h
    · exact .inr ⟨f, g, hone, htable, hbytes, hcodecs⟩
  · rintro (h | ⟨f, g, hone, htable, hbytes, hcodecs⟩)
    · exact .inl h
    · refine .inr ⟨f, g, g, hone, htable, ?_, hbytes, rfl, hcodecs, rfl⟩
      rw [htable]
      rfl

/-- A file streamed under ZSTD and one streamed uncompressed label their chunks differently. -/
theorem codecs_ne {f g : ParquetFile}
    (hf : streamOne X sink path (enumerator .zstd) schema batch = .ok f)
    (hg : streamOne X sink path (enumerator .uncompressed) schema batch = .ok g) :
    f.codecs ≠ g.codecs := by
  intro heq
  obtain ⟨hne, hzstd⟩ := codecs_streamOne hf
  obtain ⟨_, hplain⟩ := codecs_streamOne hg
  obtain ⟨k, hk⟩ := List.exists_mem_of_ne_nil _ hne
  have := (hzstd k hk).symm.trans (hplain k (heq ▸ hk))
  cases this

/-- **The three paths agree** exactly when the codec is ZSTD and the batch does not send the writer
    out of bounds, or the writer refuses the batch under ZSTD and the codec is unknown or refused
    too. -/
theorem threePaths_iff (X : External) (sink : ByteSink) (path : String) (schema : ArrowSchema)
    (batch : ArrowArray) (codec : String) :
    ThreePathsAgree (writeBatch X sink path schema batch codec)
        (writeTable X sink path schema [batch] codec)
        (writeOnce X sink path schema batch codec) ↔
      if codec = "zstd" ∨ codec = "ZSTD" then
        reported X sink path .zstd schema batch ≠ none
      else
        (∃ rc, rc ≠ .ok ∧ reported X sink path .zstd schema batch = some rc) ∧
          (codec = "uncompressed" ∨ codec = "none" ∨ codec = "UNCOMPRESSED" →
            ∃ rc, rc ≠ .ok ∧ reported X sink path .uncompressed schema batch = some rc) := by
  obtain ⟨hraise, hok⟩ := writeBatch_eq X sink path schema batch codec
  rw [writeTable_one, writeOnce_one, threePathsAgree_map]
  simp only [hraise, hok]
  rw [← raises_streamOne X sink path schema batch .zstd,
    ← raises_streamOne X sink path schema batch .uncompressed]
  rcases parseCodec_cases codec with ⟨hz, hp⟩ | ⟨hz, ⟨hu, hp⟩ | ⟨hu, what, hp⟩⟩
  · -- ZSTD: one result, compared with itself
    rw [if_pos hz, hp]
    simp only [ok_bind]
    rcases streamOne_cases X sink path schema batch .zstd with
      ⟨hr, f, hf⟩ | ⟨rc, _, hr, hraise⟩ | ⟨hr, hundef⟩
    · rw [hr]
      exact iff_of_true (.inr ⟨f, f, hf, hf, rfl, rfl⟩) nofun
    · rw [hr]
      exact iff_of_true (.inl ⟨hraise, hraise⟩) nofun
    · rw [hr, hundef]
      refine iff_of_false ?_ fun h => h rfl
      rintro (⟨⟨what, hone⟩, _⟩ | ⟨f, _, hone, _⟩)
      · cases hone
      · cases hone
  · -- uncompressed: only two exceptions are equal
    rw [if_neg hz, hp]
    simp only [ok_bind]
    constructor
    · rintro (⟨hone, htable⟩ | ⟨f, g, hone, htable, _, hcodecs⟩)
      · exact ⟨hone, fun _ => htable⟩
      · exact absurd hcodecs (codecs_ne hone htable)
    · rintro ⟨hone, htable⟩
      exact .inl ⟨hone, htable hu⟩
  · -- an unknown codec raises before the batch is looked at
    rw [if_neg hz, hp]
    simp only [error_bind]
    constructor
    · rintro (⟨hone, _⟩ | ⟨_, _, _, htable, _⟩)
      · exact ⟨hone, fun hknown => absurd hknown hu⟩
      · cases htable
    · rintro ⟨hone, _⟩
      exact .inl ⟨hone, what, rfl⟩

end Paths

/-- **Two plain integers, uncompressed and under an unknown codec**: `write_batch` writes ZSTD both
    times, and the others an uncompressed file and nothing. -/
theorem not_threePathsAgree_plain :
    ¬ThreePathsAgree
        (writeBatch External.reference (openedStream 8191 none true) "t.parquet" (oneColumn "i")
          twoRows "uncompressed")
        (writeTable External.reference (openedStream 8191 none true) "t.parquet" (oneColumn "i")
          [twoRows] "uncompressed")
        (writeOnce External.reference (openedStream 8191 none true) "t.parquet" (oneColumn "i")
          twoRows "uncompressed") ∧
      ¬ThreePathsAgree
        (writeBatch External.reference (openedStream 8191 none true) "t.parquet" (oneColumn "i")
          twoRows "lz4")
        (writeTable External.reference (openedStream 8191 none true) "t.parquet" (oneColumn "i")
          [twoRows] "lz4")
        (writeOnce External.reference (openedStream 8191 none true) "t.parquet" (oneColumn "i")
          twoRows "lz4") := by
  have hone : ∀ codec, (writeBatch External.reference (openedStream 8191 none true) "t.parquet"
      (oneColumn "i") twoRows codec).toOption.map ParquetFile.codecs = some [.zstd] := by
    intro codec
    change (writeBatch External.reference (openedStream 8191 none true) "t.parquet"
      (oneColumn "i") twoRows "").toOption.map ParquetFile.codecs = some [.zstd]
    decide +kernel
  have htable : (writeTable External.reference (openedStream 8191 none true) "t.parquet"
      (oneColumn "i") [twoRows] "uncompressed").toOption.map ParquetFile.codecs =
      some [.uncompressed] := by decide +kernel
  constructor
  · rintro (⟨⟨what, hraise⟩, _⟩ | ⟨f, g, _, hf, hg, _, _, _, hcodecs, _⟩)
    · have := hone "uncompressed"
      rw [hraise] at this
      cases this
    · have hzstd := hone "uncompressed"
      rw [hf] at hzstd
      rw [hg] at htable
      have := (Option.some.inj hzstd).symm.trans (hcodecs.trans (Option.some.inj htable))
      cases this
  · rintro (⟨⟨what, hraise⟩, _⟩ | ⟨f, g, _, _, hg, _⟩)
    · have := hone "lz4"
      rw [hraise] at this
      cases this
    · cases hg

end N2P.Python
