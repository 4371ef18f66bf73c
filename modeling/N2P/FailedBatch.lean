import N2P.Builds
import N2P.LockedSchema
import N2P.Lockstep

/-!
# Failed batches

`write_one_batch` builds the flattened schema and the row group in locals and stores them when
they are complete, but it stores the schema before it looks at any leaf and the row group before
it looks at the stream.

* `lockstep_alike`, `alike_run` — two writers that differ by placement only stay so through any
  run, with one status for each call.
* `failedBatch_effect` — when a failed call leaves the record as it was, and that leaving such a
  call out of a run changes nothing.
* `failedBatch_leaves_traces` — the two kinds of failed call that do leave something.
-/

namespace N2P

open Outcome

/-! ## Records that differ by placement only -/

/-- A chunk's entry without its place in the file. -/
def ColumnChunkMeta.unplaced (c : ColumnChunkMeta) : ColumnChunkMeta :=
  { c with fileOffset := 0, dataPageOffset := 0, dictionaryPageOffset := 0 }

/-- A row group without its place in the file. -/
def RowGroupMeta.unplaced (rg : RowGroupMeta) : RowGroupMeta :=
  { rg with columns := rg.columns.map ColumnChunkMeta.unplaced }

/-- Two writers with one record up to placement, one set of settings, and streams that take every
    byte. -/
structure Alike (w w' : Writer) : Prop where
  schema : SameSchema w w'
  groups : w'.rowGroups.map RowGroupMeta.unplaced = w.rowGroups.map RowGroupMeta.unplaced
  rows : w'.totalRows = w.totalRows
  codec : w'.codec = w.codec
  encoding : w'.encoding = w.encoding
  stream : w.out.Unbounded ∧ w'.out.Unbounded

section Alike

variable {w w' : Writer}

theorem Alike.lastError (h : Alike w w') (msg msg' : String) :
    Alike { w with lastError := msg } { w' with lastError := msg' } :=
  ⟨⟨h.schema.locked, h.schema.nodes, h.schema.leaves, h.schema.topChildren⟩, h.groups, h.rows,
    h.codec, h.encoding, h.stream⟩

theorem unplaced_addAll (batch : ArrowArray) (start start' : Nat) (xs : List Chunk) :
    (batchGroup batch (placed start' xs)).unplaced =
      (batchGroup batch (placed start xs)).unplaced := by
  have hentry : ∀ start, (placed start xs).map (fun x => x.entry.unplaced) =
      xs.map fun x => x.entry.unplaced := fun start => map_placed _ (fun x start => rfl) start xs
  have hsize : ∀ start, (placed start xs).map (fun x => x.entry.totalUncompressed) =
      xs.map fun x => x.entry.totalUncompressed :=
    fun start => map_placed _ (fun x start => rfl) start xs
  simp only [batchGroup, RowGroupMeta.addAll, RowGroupMeta.unplaced, List.nil_append, List.map_map,
    Function.comp_def, hentry, hsize]

/-- **They stay in lockstep.** -/
theorem lockstep_alike : Lockstep Alike where
  schema h := h.schema
  settings h := ⟨h.codec, h.encoding⟩
  isOpen h := by rw [h.stream.1.isOpen, h.stream.2.isOpen]
  lastError h := h.lastError
  setCodec h codec := { h with
    schema := ⟨h.schema.locked, h.schema.nodes, h.schema.leaves, h.schema.topChildren⟩
    codec := rfl }
  setEncoding h encoding := { h with
    schema := ⟨h.schema.locked, h.schema.nodes, h.schema.leaves, h.schema.topChildren⟩
    encoding := rfl }
  put h pieces := { h with
    schema := ⟨h.schema.locked, h.schema.nodes, h.schema.leaves, h.schema.topChildren⟩
    stream := ⟨(h.stream.1.writeAll pieces).1, (h.stream.2.writeAll pieces).1⟩ }
  lock h sc nodes leaves := { h with schema := ⟨rfl, rfl, rfl, rfl⟩ }
  record {w u} h batch xs :=
    { schema := ⟨h.schema.locked, h.schema.nodes, h.schema.leaves, h.schema.topChildren⟩
      groups := by
        show (u.rowGroups ++ [batchGroup batch (placed u.offset xs)]).map _ =
          (w.rowGroups ++ [batchGroup batch (placed w.offset xs)]).map _
        rw [List.map_append, List.map_append, h.groups, List.map_singleton, List.map_singleton,
          unplaced_addAll]
      rows := by
        show u.totalRows + _ = w.totalRows + _
        rw [h.rows]
      codec := h.codec
      encoding := h.encoding
      stream := ⟨(h.stream.1.writeAll _).1, (h.stream.2.writeAll _).1⟩ }

/-- **Any run does the same to them**: the same statuses, and records that differ by placement
    only. -/
theorem alike_run (X : External) (ops : List Op) (h : Alike w w') :
    Option.Rel (fun r r' => r.1 = r'.1 ∧ Alike r.2 r'.2) (run X w ops) (run X w' ops) := by
  have hcommit : ∀ {w u : Writer}, Alike w u → w.commitStatus = u.commitStatus := by
    intro w u h
    unfold Writer.commitStatus
    rw [h.stream.1.good, h.stream.2.good]
  have hrun := lockstep_run lockstep_alike (fun _ => rfl) hcommit X ops h
  simpa only [List.forall₂_eq_eq_eq] using hrun

end Alike

/-! ## What a failed call leaves behind -/

/-- One schema, one list of row groups, one row count. -/
structure SameRecord (w w' : Writer) : Prop extends SameSchema w w' where
  groups : w'.rowGroups = w.rowGroups
  rows : w'.totalRows = w.totalRows

/-- The call reaches the lock of an unlocked writer, and its schema flattens to some leaf. -/
def FixesSchema (w : Writer) (schema : Option ArrowSchema) (batch : Option ArrowArray) : Prop :=
  w.out.isOpen = true ∧ w.schemaLocked = false ∧
    ∃ sc b nodes leaves, checkArguments schema batch = .ok (sc, b) ∧
      flattenColumns sc.children 0 ([], []) = .ok (nodes, leaves) ∧ leaves ≠ []

/-- The batch is laid out by the locked leaves, or by the ones its schema locks, and every one of
    them builds: only the stream can still fail the call. -/
def LeavesBuild (X : External) (w : Writer) (schema : Option ArrowSchema)
    (batch : Option ArrowArray) : Prop :=
  w.out.isOpen = true ∧
    ∃ sc b w1, checkArguments schema batch = .ok (sc, b) ∧ Locked sc w w1 ∧
      ∀ leaf ∈ w1.leaves, LeafBuilds X b w.codec w.encoding leaf

theorem FixesSchema.locked {w : Writer} {schema : Option ArrowSchema} {batch : Option ArrowArray}
    (h : FixesSchema w schema batch) :
    w.schemaLocked = false ∧
      ∃ sc b w1, checkArguments schema batch = .ok (sc, b) ∧ Locked sc w w1 := by
  obtain ⟨_, hl, sc, b, nodes, leaves, hargs, hf, hne⟩ := h
  exact ⟨hl, sc, b, _, hargs, .now nodes leaves hl hf hne⟩

/-- After the lock, a leaf builds under the settings of the call. -/
theorem Locked.leavesBuild {X : External} {sc : ArrowSchema} {w w1 : Writer} (h : Locked sc w w1)
    {b : ArrowArray} {rg : RowGroupMeta} :
    (∀ leaf ∈ w1.leaves, LeafBuilds X b w.codec w.encoding leaf) ↔
      ∃ rg' t, writeLeaves X w1.leaves b rg w1 = .ok rg' t := by
  rw [← h.settings.1, ← h.settings.2.1]
  exact writeLeaves_passes.symm

section

variable {X : External} {w w' : Writer} {schema : Option ArrowSchema} {batch : Option ArrowArray}

/-- A failed batch keeps the record unless it set the lock or got as far as the stream's check. -/
theorem BatchFailure.sameRecord_iff {e : Exit} (hopen : w.out.isOpen = true)
    (h : BatchFailure X schema batch w e w') :
    SameRecord w w' ↔ ¬ FixesSchema w schema batch ∧ ¬ LeavesBuild X w schema batch := by
  rcases h with ⟨msg, _, hstop⟩ | ⟨sc, b, w1, w', hargs, hlock, hleaves⟩ |
    ⟨sc, b, w1, xs, hargs, hlock, hxs, hbad, rg, w2, hleaves⟩
  · refine iff_of_true ⟨⟨rfl, rfl, rfl, rfl⟩, rfl, rfl⟩ ⟨fun hf => ?_, ?_⟩
    · obtain ⟨_, sc, b, w1, hargs, hlock⟩ := hf.locked
      exact hstop sc b w1 hargs hlock
    · rintro ⟨_, sc, b, w1, hargs, hlock, _⟩
      exact hstop sc b w1 hargs hlock
  · obtain ⟨pieces, msg, rfl⟩ := ((onlyStreams_writeLeaves _ _ _ _).error hleaves).1
    have hnot : ¬ LeavesBuild X w schema batch := by
      rintro ⟨_, sc', b', w1', hargs', hlock', hbuild⟩
      rw [hargs] at hargs'
      cases hargs'
      obtain ⟨rg, t, hleaves'⟩ := hlock'.leavesBuild.mp hbuild
      rw [← hlock.unique hlock', hleaves] at hleaves'
      cases hleaves'
    cases hl : w.schemaLocked with
    | true =>
      obtain ⟨rfl, _⟩ := hlock.count hl
      refine iff_of_true ⟨⟨rfl, rfl, rfl, rfl⟩, rfl, rfl⟩ ⟨fun hf => ?_, hnot⟩
      rw [hf.2.1] at hl
      cases hl
    | false =>
      have hw1 := hlock.locked
      refine iff_of_false (fun hs => ?_) fun hn => hn.1 ?_
      · have := hs.locked
        rw [show ({ w1.put pieces with lastError := msg } : Writer).schemaLocked = true from hw1,
          hl] at this
        cases this
      · rcases hlock with ⟨h, _⟩ | ⟨nodes, leaves, _, hf, hne⟩
        · rw [hl] at h
          cases h
        · exact ⟨hopen, hl, sc, b, nodes, leaves, hargs, hf, hne⟩
  · refine iff_of_false (fun hs => ?_) fun hn =>
      hn.2 ⟨hopen, sc, b, w1, hargs, hlock, hlock.leavesBuild.mpr ⟨rg, w2, hleaves⟩⟩
    have hgroups : w1.rowGroups ++ [batchGroup b xs] = w.rowGroups := hs.groups
    rw [hlock.settings.2.2] at hgroups
    exact absurd hgroups (by simp)

/-- A call that kept the record has only streamed. -/
theorem BatchFailure.alike {e : Exit} (h : BatchFailure X schema batch w e w')
    (hs : SameRecord w w') (hu : w.out.Unbounded) (msg : String) :
    Alike w { w' with lastError := msg } := by
  have hstream : ∃ t, Streams w t ∧ w'.codec = t.codec ∧ w'.encoding = t.encoding ∧
      w'.out = t.out := by
    rcases h with ⟨msg, _, _⟩ | ⟨sc, b, w1, w', hargs, hlock, hleaves⟩ |
      ⟨sc, b, w1, xs, hargs, hlock, hxs, hbad, rg, w2, hleaves⟩
    · exact ⟨w, Streams.refl w, rfl, rfl, rfl⟩
    · obtain ⟨pieces, msg, rfl⟩ := ((onlyStreams_writeLeaves _ _ _ _).error hleaves).1
      have hout : w1.out = w.out := by rcases hlock with _ | _ <;> rfl
      refine ⟨_, Streams.put w pieces, hlock.settings.1, hlock.settings.2.1, ?_⟩
      show w1.out.writeAll pieces = w.out.writeAll pieces
      rw [hout]
    · have hgroups : w1.rowGroups ++ [batchGroup b xs] = w.rowGroups := hs.groups
      rw [hlock.settings.2.2] at hgroups
      exact absurd hgroups (by simp)
  obtain ⟨t, ⟨pieces, m, rfl⟩, hcodec, hencoding, hout⟩ := hstream
  have hgroups : w'.rowGroups.map RowGroupMeta.unplaced =
      w.rowGroups.map RowGroupMeta.unplaced := by rw [hs.groups]
  refine ⟨⟨hs.locked, hs.nodes, hs.leaves, hs.topChildren⟩, hgroups, hs.rows, hcodec, hencoding,
    hu, ?_⟩
  show w'.out.Unbounded
  rw [hout]
  exact (hu.writeAll pieces).1

end

/-- The footer describes one schema and the same rows, wherever their pages lie. -/
theorem Alike.footer {w w' : Writer} (h : Alike w w') :
    (fileMetaData w').schema = (fileMetaData w).schema ∧
      (fileMetaData w').numRows = (fileMetaData w).numRows ∧
      w'.rowGroups.map RowGroupMeta.unplaced = w.rowGroups.map RowGroupMeta.unplaced := by
  refine ⟨?_, h.rows, h.groups⟩
  show rootElement _ :: _ = rootElement _ :: _
  rw [h.schema.topChildren, h.schema.nodes]

theorem SameRecord.lastError_iff {w t : Writer} {msg : String} :
    SameRecord w { t with lastError := msg } ↔ SameRecord w t :=
  ⟨fun h => ⟨⟨h.locked, h.nodes, h.leaves, h.topChildren⟩, h.groups, h.rows⟩,
    fun h => ⟨⟨h.locked, h.nodes, h.leaves, h.topChildren⟩, h.groups, h.rows⟩⟩

/-- A failed call keeps the record exactly when it neither fixes a schema nor builds every leaf,
    and then it has only streamed. -/
theorem failedBatch_record {X : External} {w w' : Writer} {schema : Option ArrowSchema}
    {batch : Option ArrowArray} {status : N2PStatus}
    (hcall : n2pWriterWriteBatch X w schema batch = some (status, w')) (hfail : status ≠ .ok) :
    (SameRecord w w' ↔ ¬ FixesSchema w schema batch ∧ ¬ LeavesBuild X w schema batch) ∧
      (SameRecord w w' → w.out.Unbounded → Alike w w') := by
  rcases writeBatch_cases hcall with ⟨hok, _⟩ | ⟨_, ⟨e, t, msg, hopen, hf, rfl⟩ | ⟨hopen, msg, rfl⟩⟩
  · exact absurd hok hfail
  · rw [SameRecord.lastError_iff]
    exact ⟨hf.sameRecord_iff hopen, fun hs hu => hf.alike hs hu msg⟩
  · have hclosed : ¬ w.out.isOpen = true := by rw [hopen]; simp
    refine ⟨iff_of_true ⟨⟨rfl, rfl, rfl, rfl⟩, rfl, rfl⟩ ⟨?_, ?_⟩, fun _ hu => ?_⟩
    · intro h
      exact hclosed h.1
    · intro h
      exact hclosed h.1
    · exact absurd hu.isOpen hclosed

/-- **What a failed batch leaves behind.**  The record stays as it was exactly when the call did
    not fix the schema of an unlocked writer and some leaf of the batch does not build.  Then, over
    a stream that takes every byte, leaving the call out changes no later status, and the footer's
    schema and rows only by where the pages lie. -/
theorem failedBatch_effect {X : External} {w w' : Writer} {schema : Option ArrowSchema}
    {batch : Option ArrowArray} {status : N2PStatus}
    (hcall : n2pWriterWriteBatch X w schema batch = some (status, w')) (hfail : status ≠ .ok) :
    (SameRecord w w' ↔ ¬ FixesSchema w schema batch ∧ ¬ LeavesBuild X w schema batch) ∧
    (SameRecord w w' → w.out.Unbounded → ∀ ops : List Op,
      match run X w ops, run X w' ops with
      | some (statuses, t), some (statuses', t') => statuses = statuses' ∧
          (fileMetaData t').schema = (fileMetaData t).schema ∧
          (fileMetaData t').numRows = (fileMetaData t).numRows ∧
          t'.rowGroups.map RowGroupMeta.unplaced = t.rowGroups.map RowGroupMeta.unplaced
      | none, none => True
      | _, _ => False) := by
  obtain ⟨hiff, halike⟩ := failedBatch_record hcall hfail
  refine ⟨hiff, fun hs hu ops => ?_⟩
  have hrun := alike_run X ops (halike hs hu)
  generalize run X w ops = r at hrun
  generalize run X w' ops = r' at hrun
  cases hrun with
  | none => trivial
  | some h => exact ⟨h.1, h.2.footer⟩

/-! ## Failed calls that leave something behind -/

/-- A writer of uncompressed pages, on a device with room for the magic only. -/
def fullDevice : Writer :=
  (n2pWriterSetCodec (n2pWriterOpen (.fresh 8191 (some 4)) "out.parquet").2 1).2

/-- More rows than the stream's buffer holds. -/
def manyRows : ArrowArray := .struct 2100 none 0 [.int32 (List.replicate 2100 7) none 0]

/-- A refused first batch has locked its schema, so that a batch of another schema is refused
    after it; and a batch the stream fails on is recorded all the same. -/
theorem failedBatch_leaves_traces :
    (∃ w', n2pWriterWriteBatch .reference freshWriter (some nameAndNumber)
        (some (fourRows true).array) = some (.invalidArgument, w') ∧ w'.schemaLocked = true ∧
      (n2pWriterWriteBatch .reference w' (some (oneColumn "i")) (some twoRows)).map (·.1) =
        some .invalidArgument ∧
      (n2pWriterWriteBatch .reference freshWriter (some (oneColumn "i")) (some twoRows)).map (·.1) =
        some .ok) ∧
    ∃ w', n2pWriterWriteBatch .reference fullDevice (some (oneColumn "i")) (some manyRows) =
        some (.ioError, w') ∧ w'.rowGroups.length = 1 ∧ w'.totalRows = 2100 := by
  refine ⟨?_, ?_⟩
  · have hfacts : ((n2pWriterWriteBatch .reference freshWriter (some nameAndNumber)
        (some (fourRows true).array)).bind fun r =>
        (n2pWriterWriteBatch .reference r.2 (some (oneColumn "i")) (some twoRows)).map fun r' =>
          (r.1, r.2.schemaLocked, r'.1)) =
        some (.invalidArgument, true, .invalidArgument) := by decide +kernel
    obtain ⟨⟨status, w'⟩, hcall, h⟩ := Option.bind_eq_some_iff.mp hfacts
    obtain ⟨⟨status', t⟩, hlater, heq⟩ := Option.map_eq_some_iff.mp h
    simp only [Prod.mk.injEq] at heq
    obtain ⟨rfl, hlocked, rfl⟩ := heq
    exact ⟨w', hcall, hlocked, by rw [hlater]; rfl, by decide +kernel⟩
  · have hfacts : (n2pWriterWriteBatch .reference fullDevice (some (oneColumn "i"))
        (some manyRows)).map (fun r => (r.1, r.2.rowGroups.length, r.2.totalRows)) =
        some (.ioError, 1, 2100) := by decide +kernel
    obtain ⟨⟨status, w'⟩, hcall, heq⟩ := Option.map_eq_some_iff.mp hfacts
    simp only [Prod.mk.injEq] at heq
    obtain ⟨rfl, hgroups, hrows⟩ := heq
    exact ⟨w', hcall, hgroups, hrows⟩

/-- A refused batch on a locked writer leaves no trace. -/
theorem failedBatch_effect_locked :
    ∃ w w', int32Locked = some w ∧
      n2pWriterWriteBatch .reference w (some nameAndNumber) (some (fourRows false).array) =
        some (.invalidArgument, w') ∧
      SameRecord w w' := by
  obtain ⟨w, w', hw, hlocked, hne, hcall⟩ := int32Locked_refuses
  refine ⟨w, w', hw, hcall, (failedBatch_effect hcall (by simp)).1.mpr ⟨fun hf => ?_, ?_⟩⟩
  · rw [hf.2.1] at hlocked
    cases hlocked
  · rintro ⟨_, sc, b, w1, hargs, hlock, _⟩
    have hsc : some nameAndNumber = some sc := (checkArguments_eq_ok.mp hargs).1
    cases hsc
    exact hne (hlock.count hlocked).2

end N2P
