import N2P.Chunks

/-!
# Batches and runs

How one call of `write_one_batch` can end, and the calls on a writer between open and close.

* `lockSchema_ok` — the lock is set once, and afterwards only the column count is compared.
* `writeOneBatch_ok` — a successful batch streams its chunks and records one row group.
* `writeOneBatch_error` — a failed batch stopped before the lock, in its leaves, or at the final
  look at the stream.
* `Op`, `run` — any sequence of calls, with the status of each.
-/

namespace N2P

open Outcome

/-! ## The schema lock -/

/-- The writer locked to a flattened schema. -/
def Writer.lock (w : Writer) (schema : ArrowSchema) (nodes : List SchemaNode)
    (leaves : List LeafSpec) : Writer :=
  { w with schemaNodes := nodes, leaves := leaves, topChildren := schema.children.length,
           schemaLocked := true }

/-- How the lock step goes well. -/
inductive Locked (schema : ArrowSchema) (w : Writer) : Writer → Prop where
  | before (hl : w.schemaLocked = true) (hn : schema.children.length = w.topChildren) :
      Locked schema w w
  | now (nodes : List SchemaNode) (leaves : List LeafSpec) (hl : w.schemaLocked = false)
      (hf : flattenColumns schema.children 0 ([], []) = .ok (nodes, leaves)) (hne : leaves ≠ []) :
      Locked schema w (w.lock schema nodes leaves)

/-- Two writers with one locked schema. -/
structure SameSchema (w w' : Writer) : Prop where
  locked : w'.schemaLocked = w.schemaLocked
  nodes : w'.schemaNodes = w.schemaNodes
  leaves : w'.leaves = w.leaves
  topChildren : w'.topChildren = w.topChildren

theorem refuse_eq {α : Type} (status : N2PStatus) (why : Refusal) (w : Writer) :
    (refuse status why : WriterM α) w =
      .error (.refused status why) { w with lastError := why.text } := rfl

theorem lockSchema_ok {schema : ArrowSchema} {w w' : Writer} :
    lockSchema schema w = .ok () w' ↔ Locked schema w w' := by
  unfold lockSchema
  rw [get_bind]
  cases hl : w.schemaLocked with
  | true =>
    rw [if_neg (by simp)]
    by_cases hn : schema.children.length = w.topChildren
    · rw [if_neg (not_not.mpr hn), pure_eq_ok]
      constructor
      · rintro ⟨_, rfl⟩
        exact .before hl hn
      · rintro (⟨_, _⟩ | ⟨_, _, h, _⟩)
        · exact ⟨rfl, rfl⟩
        · rw [hl] at h; cases h
    · rw [if_pos hn, refuse_eq]
      refine iff_of_false nofun ?_
      rintro (⟨_, h⟩ | ⟨_, _, h, _⟩)
      · exact hn h
      · rw [hl] at h; cases h
  | false =>
    rw [if_pos (by simp)]
    rcases hf : flattenColumns schema.children 0 ([], []) with f | ⟨nodes, leaves⟩
    · have hno : ¬ Locked schema w w' := by
        rintro (⟨h, _⟩ | ⟨_, _, _, hf', _⟩)
        · rw [hl] at h; cases h
        · rw [hf] at hf'; cases hf'
      cases f <;> exact iff_of_false nofun hno
    · dsimp only
      by_cases he : leaves = []
      · rw [if_pos (List.isEmpty_iff.mpr he), refuse_eq]
        refine iff_of_false nofun ?_
        rintro (⟨h, _⟩ | ⟨_, _, _, hf', hne⟩)
        · rw [hl] at h; cases h
        · rw [hf] at hf'
          cases hf'
          exact hne he
      · rw [if_neg (fun h => he (List.isEmpty_iff.mp h)), modify_eq_ok]
        constructor
        · rintro rfl
          exact .now nodes leaves hl hf he
        · rintro (⟨h, _⟩ | ⟨_, _, _, hf', hne⟩)
          · rw [hl] at h; cases h
          · rw [hf] at hf'
            cases hf'
            rfl

theorem Locked.unique {sc : ArrowSchema} {w w1 w2 : Writer} (h : Locked sc w w1)
    (h' : Locked sc w w2) : w1 = w2 := by
  have := (lockSchema_ok.mpr h).symm.trans (lockSchema_ok.mpr h')
  cases this
  rfl

theorem Locked.settings {sc : ArrowSchema} {w w1 : Writer} (h : Locked sc w w1) :
    w1.codec = w.codec ∧ w1.encoding = w.encoding ∧ w1.rowGroups = w.rowGroups := by
  rcases h with _ | _
  · exact ⟨rfl, rfl, rfl⟩
  · exact ⟨rfl, rfl, rfl⟩

theorem Locked.out {sc : ArrowSchema} {w w1 : Writer} (h : Locked sc w w1) : w1.out = w.out := by
  rcases h with _ | _
  · rfl
  · rfl

/-- A lock that fails has only set the last error. -/
theorem lockSchema_error {schema : ArrowSchema} {w w' : Writer} {e : Exit}
    (h : lockSchema schema w = .error e w') :
    (∃ msg, w' = { w with lastError := msg }) ∧ e.Fails := by
  have refused : ∀ {status why}, status ≠ .ok →
      (refuse status why : WriterM Unit) w = .error e w' →
        (∃ msg, w' = { w with lastError := msg }) ∧ e.Fails := by
    intro status why hne h
    rw [refuse_eq] at h
    cases h
    refine ⟨⟨_, rfl⟩, fun st why' he => ?_⟩
    cases he
    exact hne
  unfold lockSchema at h
  rw [get_bind] at h
  split at h
  · rcases hf : flattenColumns schema.children 0 ([], []) with f | ⟨nodes, leaves⟩
    · rw [hf] at h
      cases f with
      | refused why => exact refused (by simp) h
      | thrown what => cases h; exact ⟨⟨w.lastError, rfl⟩, fun _ _ he => by cases he⟩
      | undefined => cases h; exact ⟨⟨w.lastError, rfl⟩, fun _ _ he => by cases he⟩
    · rw [hf] at h
      dsimp only at h
      split at h
      · exact refused (by simp) h
      · exact absurd h modify_ne_error
  · split at h
    · exact refused (by simp) h
    · exact absurd h pure_ne_error

/-! ## One batch -/

/-- The row group a batch records. -/
def batchGroup (batch : ArrowArray) (xs : List Chunk) : RowGroupMeta :=
  ({ numRows := batch.length } : RowGroupMeta).addAll xs

/-- The writer after a batch streamed its chunks and recorded their row group. -/
def Writer.record (w : Writer) (batch : ArrowArray) (xs : List Chunk) : Writer :=
  { w.put (xs.flatMap (·.pages.pieces)) with
    rowGroups := w.rowGroups ++ [batchGroup batch xs]
    totalRows := w.totalRows + batch.length }

/-- The chunks of a batch's leaves, written one after the other from the writer's offset. -/
structure Chunks (X : External) (w : Writer) (batch : ArrowArray) (xs : List Chunk) : Prop where
  leaves : xs.map (·.leaf) = w.leaves
  of : ∀ x ∈ xs, x.Of X batch w.codec w.encoding
  consecutive : Consecutive w.offset xs

/-- The checks of the arguments refuse with one of four errors. -/
theorem checkArguments_error {schema : Option ArrowSchema} {batch : Option ArrowArray} {f : Fault}
    (h : checkArguments schema batch = .error f) :
    f = .refused .notAStruct ∨ f = .refused .noColumns ∨ f = .refused .childCount ∨
      f = .refused .nullArguments := by
  unfold checkArguments at h
  split at h
  · split at h
    · exact .inl (Except.error.inj h).symm
    split at h
    · exact .inr (.inl (Except.error.inj h).symm)
    split at h
    · exact .inr (.inr (.inl (Except.error.inj h).symm))
    · cases h
  · exact .inr (.inr (.inr (Except.error.inj h).symm))

theorem checkArguments_eq_ok {schema : Option ArrowSchema} {batch : Option ArrowArray}
    {sc : ArrowSchema} {b : ArrowArray} :
    checkArguments schema batch = .ok (sc, b) ↔
      schema = some sc ∧ batch = some b ∧ sc.format = some "+s" ∧ sc.children.length ≠ 0 ∧
        b.nChildren = sc.children.length := by
  unfold checkArguments
  cases schema with
  | none => exact iff_of_false nofun fun h => by cases h.1
  | some schema =>
  cases batch with
  | none => exact iff_of_false nofun fun h => by cases h.2.1
  | some batch =>
  simp only [Option.some.injEq]
  constructor
  · intro h
    split at h
    · cases h
    rename_i h1
    split at h
    · cases h
    rename_i h2
    split at h
    · cases h
    rename_i h3
    cases h
    exact ⟨rfl, rfl, not_not.mp h1, h2, not_not.mp h3⟩
  · rintro ⟨rfl, rfl, h1, h2, h3⟩
    rw [if_neg (not_not.mpr h1), if_neg h2, if_neg (not_not.mpr h3)]

/-- Only the flattening of a schema is ever undefined. -/
theorem lockSchema_undefined {schema : ArrowSchema} {w : Writer} :
    (∃ w', lockSchema schema w = .error .undefined w') ↔ w.schemaLocked = false ∧
      flattenColumns schema.children 0 ([], []) = .error .undefined := by
  unfold lockSchema
  rw [get_bind]
  constructor
  swap
  · rintro ⟨hl, hf⟩
    rw [if_pos (by simpa using hl), hf]
    exact ⟨w, rfl⟩
  rintro ⟨w', h⟩
  split at h
  · rename_i hl
    refine ⟨by simpa using hl, ?_⟩
    rcases hf : flattenColumns schema.children 0 ([], []) with f | ⟨nodes, leaves⟩
    · rw [hf] at h
      cases f with
      | refused why => cases h
      | thrown what => cases h
      | undefined => rfl
    · rw [hf] at h
      dsimp only at h
      split at h
      · cases h
      · exact absurd h modify_ne_error
  · split at h
    · cases h
    · exact absurd h pure_ne_error

/-- What the commit returns: the look at the stream. -/
def Writer.report (w : Writer) : EStateM.Result Exit Writer Unit :=
  if w.out.good then .ok () w
  else .error (.refused .ioError .ioError) { w with lastError := Refusal.ioError.text }

/-- The status the commit returns. -/
def Writer.commitStatus (w : Writer) : N2PStatus := if w.out.good then .ok else .ioError

/-- The commit records the row group, and reports what the stream says. -/
theorem commit_eq (batch : ArrowArray) (rg : RowGroupMeta) (w : Writer) :
    commit batch rg w = Writer.report
      { w with rowGroups := w.rowGroups ++ [rg], totalRows := w.totalRows + batch.length } := by
  unfold commit Writer.report
  by_cases hgood : w.out.good = true
  · rw [if_pos hgood]
    show (if w.out.good then pure () else refuse _ _ : WriterM Unit) _ = _
    rw [if_pos hgood]
    rfl
  · rw [if_neg hgood]
    show (if w.out.good then pure () else refuse _ _ : WriterM Unit) _ = _
    rw [if_neg hgood]
    rfl

/-- Past its checks a call is the leaf loop, then the commit. -/
theorem writeOneBatch_eq {X : External} {schema : Option ArrowSchema} {batch : Option ArrowArray}
    {w w1 : Writer} {sc : ArrowSchema} {b : ArrowArray}
    (hargs : checkArguments schema batch = .ok (sc, b)) (hlock : Locked sc w w1) :
    writeOneBatch X schema batch w =
      (writeLeaves X w1.leaves b { numRows := b.length } >>= commit b) w1 := by
  unfold writeOneBatch
  rw [hargs, raise_ok_bind]
  dsimp only
  have hlock := lockSchema_ok.mpr hlock
  simp only [bind, EStateM.bind, hlock]
  rfl

/-- **A successful batch.** -/
theorem writeOneBatch_ok {X : External} {schema : Option ArrowSchema} {batch : Option ArrowArray}
    {w w' : Writer} (h : writeOneBatch X schema batch w = .ok () w') :
    ∃ sc b w1 xs, checkArguments schema batch = .ok (sc, b) ∧ Locked sc w w1 ∧ Chunks X w1 b xs ∧
      w' = w1.record b xs ∧ w'.out.good = true := by
  unfold writeOneBatch at h
  obtain ⟨⟨sc, b⟩, hargs, h1⟩ := raise_bind_ok.mp h
  obtain ⟨_, w1, hlock, h2⟩ := seq_eq_ok.mp h1
  rw [get_bind] at h2
  obtain ⟨rg, w2, hleaves, h3⟩ := seq_eq_ok.mp h2
  obtain ⟨xs, hxs, hof, hcons, rfl, rfl⟩ := writeLeaves_ok hleaves
  unfold commit at h3
  obtain ⟨_, w3, hm, h4⟩ := seq_eq_ok.mp h3
  rw [modify_eq_ok] at hm
  subst hm
  rw [get_bind] at h4
  split at h4
  · rename_i hgood
    obtain ⟨_, rfl⟩ := pure_eq_ok.mp h4
    exact ⟨sc, b, w1, xs, hargs, lockSchema_ok.mp hlock, ⟨hxs, hof, hcons⟩, rfl, hgood⟩
  · cases h4

/-- How a batch fails. -/
inductive BatchFailure (X : External) (schema : Option ArrowSchema) (batch : Option ArrowArray)
    (w : Writer) : Exit → Writer → Prop where
  /-- Before or in the schema lock. -/
  | early {e : Exit} (msg : String) (he : e.Fails)
      (hstop : ∀ sc b w1, checkArguments schema batch = .ok (sc, b) → ¬ Locked sc w w1) :
      BatchFailure X schema batch w e { w with lastError := msg }
  /-- In a leaf, after the lock. -/
  | leaf {e : Exit} (sc : ArrowSchema) (b : ArrowArray) (w1 w' : Writer)
      (hargs : checkArguments schema batch = .ok (sc, b)) (hlock : Locked sc w w1)
      (hleaves : writeLeaves X w1.leaves b { numRows := b.length } w1 = .error e w') :
      BatchFailure X schema batch w e w'
  /-- At the final look at the stream, with the row group recorded. -/
  | stream (sc : ArrowSchema) (b : ArrowArray) (w1 : Writer) (xs : List Chunk)
      (hargs : checkArguments schema batch = .ok (sc, b)) (hlock : Locked sc w w1)
      (hxs : Chunks X w1 b xs) (hbad : (w1.record b xs).out.good = false) (rg : RowGroupMeta)
      (w2 : Writer) (hleaves : writeLeaves X w1.leaves b { numRows := b.length } w1 = .ok rg w2) :
      BatchFailure X schema batch w (.refused .ioError .ioError)
        { w1.record b xs with lastError := Refusal.ioError.text }

/-- **A failed batch.** -/
theorem writeOneBatch_error {X : External} {schema : Option ArrowSchema}
    {batch : Option ArrowArray} {w w' : Writer} {e : Exit}
    (h : writeOneBatch X schema batch w = .error e w') : BatchFailure X schema batch w e w' := by
  unfold writeOneBatch at h
  rcases raise_bind_error.mp h with h1 | ⟨⟨sc, b⟩, hargs, h1⟩
  · obtain ⟨⟨msg, rfl⟩, he⟩ := raise_error_fails h1
    refine .early msg he fun sc b w1 hargs _ => ?_
    rw [hargs] at h1
    exact absurd h1 pure_ne_error
  rcases seq_eq_error.mp h1 with h2 | ⟨_, w1, hlock, h2⟩
  · obtain ⟨⟨msg, rfl⟩, he⟩ := lockSchema_error h2
    refine .early msg he fun sc' b' w1 hargs' hlock => ?_
    rw [hargs] at hargs'
    cases hargs'
    rw [lockSchema_ok.mpr hlock] at h2
    cases h2
  rw [get_bind] at h2
  have hlocked := lockSchema_ok.mp hlock
  rcases seq_eq_error.mp h2 with h3 | ⟨rg, w2, hleaves, h3⟩
  · exact .leaf sc b w1 w' hargs hlocked h3
  obtain ⟨xs, hxs, hof, hcons, rfl, rfl⟩ := writeLeaves_ok hleaves
  unfold commit at h3
  rcases seq_eq_error.mp h3 with h4 | ⟨_, w3, hm, h4⟩
  · exact absurd h4 modify_ne_error
  rw [modify_eq_ok] at hm
  subst hm
  rw [get_bind] at h4
  split at h4
  · exact absurd h4 pure_ne_error
  · rename_i hbad
    rw [refuse_eq] at h4
    cases h4
    exact .stream sc b w1 xs hargs hlocked ⟨hxs, hof, hcons⟩ (Bool.not_eq_true _ ▸ hbad) _ _ hleaves

/-- A failed batch is reported as one. -/
theorem BatchFailure.fails {X : External} {schema : Option ArrowSchema}
    {batch : Option ArrowArray} {w w' : Writer} {e : Exit}
    (h : BatchFailure X schema batch w e w') : e.Fails := by
  rcases h with ⟨_, he, _⟩ | ⟨_, _, _, _, _, _, hleaves⟩ | _
  · exact he
  · exact ((onlyStreams_writeLeaves _ _ _ _).error hleaves).2
  · intro status why he
    cases he
    simp

/-! ## How far a batch gets -/

/-- The batch stops before its commit, by a fault that is reported, on this writer and with these
    pieces streamed: at its arguments, at its schema, or at the first leaf that has no chunk. -/
inductive StopsBatch (X : External) (schema : Option ArrowSchema) (batch : Option ArrowArray)
    (w : Writer) : Writer → List Bytes → Prop where
  | arguments {f : Fault} (hargs : checkArguments schema batch = .error f) :
      StopsBatch X schema batch w w []
  | schema {sc : ArrowSchema} {b : ArrowArray} (hargs : checkArguments schema batch = .ok (sc, b))
      (hlock : ∀ w1, ¬Locked sc w w1)
      (hf : w.schemaLocked = true ∨
        flattenColumns sc.children 0 ([], []) ≠ .error .undefined) :
      StopsBatch X schema batch w w []
  | leaf {sc : ArrowSchema} {b : ArrowArray} {w1 : Writer} {f : Fault}
      (hargs : checkArguments schema batch = .ok (sc, b)) (hlock : Locked sc w w1)
      (hm : (leavesEmission X b w1.codec w1.encoding w1.leaves).result = .error f)
      (hf : f ≠ .undefined) :
      StopsBatch X schema batch w w1 (leavesEmission X b w1.codec w1.encoding w1.leaves).output

/-- The batch gets to its commit: every leaf has its chunk. -/
inductive BuildsBatch (X : External) (schema : Option ArrowSchema) (batch : Option ArrowArray)
    (w : Writer) : Writer → List Bytes → Prop where
  | intro {sc : ArrowSchema} {b : ArrowArray} {w1 : Writer} {xs : List Chunk}
      (hargs : checkArguments schema batch = .ok (sc, b)) (hlock : Locked sc w w1)
      (hm : (leavesEmission X b w1.codec w1.encoding w1.leaves).result = .ok xs) :
      BuildsBatch X schema batch w (w1.record b (placed w1.offset xs))
        (leavesEmission X b w1.codec w1.encoding w1.leaves).output

section Courses

variable {X : External} {schema : Option ArrowSchema} {batch : Option ArrowArray} {w t t' : Writer}
  {ps ps' : List Bytes}

theorem StopsBatch.unique (h : StopsBatch X schema batch w t ps)
    (h' : StopsBatch X schema batch w t' ps') : t = t' ∧ ps = ps' := by
  rcases h with hargs | ⟨hargs, hlock, _⟩ | ⟨hargs, hlock, _, _⟩ <;>
    rcases h' with hargs' | ⟨hargs', hlock', _⟩ | ⟨hargs', hlock', _, _⟩ <;>
    rw [hargs] at hargs' <;> cases hargs'
  · exact ⟨rfl, rfl⟩
  · exact ⟨rfl, rfl⟩
  · exact absurd hlock' (hlock _)
  · exact absurd hlock (hlock' _)
  · cases hlock.unique hlock'
    exact ⟨rfl, rfl⟩

theorem BuildsBatch.unique (h : BuildsBatch X schema batch w t ps)
    (h' : BuildsBatch X schema batch w t' ps') : t = t' ∧ ps = ps' := by
  rcases h with ⟨hargs, hlock, hm⟩
  rcases h' with ⟨hargs', hlock', hm'⟩
  rw [hargs] at hargs'
  cases hargs'
  cases hlock.unique hlock'
  rw [hm] at hm'
  cases hm'
  exact ⟨rfl, rfl⟩

theorem BuildsBatch.not_stops (h : BuildsBatch X schema batch w t ps) :
    ¬StopsBatch X schema batch w t' ps' := by
  rcases h with ⟨hargs, hlock, hm⟩
  rintro (hargs' | ⟨hargs', hlock', _⟩ | ⟨hargs', hlock', hm', _⟩) <;>
    rw [hargs] at hargs' <;> cases hargs'
  · exact hlock' _ hlock
  · cases hlock.unique hlock'
    rw [hm] at hm'
    cases hm'

/-- Nothing is streamed before the leaves. -/
theorem StopsBatch.out (h : StopsBatch X schema batch w t ps) : t.out = w.out := by
  rcases h with _ | _ | ⟨_, hlock, _, _⟩
  · rfl
  · rfl
  · exact hlock.out

/-- The commit streams nothing. -/
theorem BuildsBatch.out (h : BuildsBatch X schema batch w t ps) : t.out = w.out.writeAll ps := by
  rcases h with ⟨_, hlock, hm⟩
  rw [(leavesEmission_eq_ok hm).2.2, ← hlock.out, ← pieces_placed]
  rfl

/-- A batch that builds is recorded. -/
theorem writeOneBatch_builds (h : BuildsBatch X schema batch w t ps) :
    writeOneBatch X schema batch w = t.report := by
  rcases h with ⟨hargs, hlock, hm⟩
  rename_i sc b w1 xs
  have hout := (leavesEmission_eq_ok hm).2.2
  rw [writeOneBatch_eq hargs hlock]
  show EStateM.bind _ _ w1 = _
  unfold EStateM.bind
  rw [writeLeaves_stream]
  unfold streamOf Emission.run
  simp only [Emission.result_map, Emission.output_map, hm]
  show commit b _ _ = _
  rw [commit_eq, hout, ← pieces_placed w1.offset xs]
  rfl

/-- A batch that stops has only streamed, behind its lock. -/
theorem writeOneBatch_stops (h : StopsBatch X schema batch w t ps) :
    ∃ e msg, e ≠ .undefined ∧ writeOneBatch X schema batch w =
      .error e { t.put ps with lastError := msg } := by
  rcases h with hargs | ⟨hargs, hlock, hf⟩ | ⟨hargs, hlock, hm, hf⟩
  · rename_i f
    obtain ⟨why, rfl⟩ : ∃ why, f = .refused why := by
      rcases checkArguments_error hargs with h | h | h | h <;> exact ⟨_, h⟩
    refine ⟨.refused .invalidArgument why, why.text, by simp, ?_⟩
    unfold writeOneBatch
    rw [hargs, Writer.put_nil]
    rfl
  · rename_i sc b
    cases hx : lockSchema sc w with
    | ok u w1 => exact absurd (lockSchema_ok.mp hx) (hlock w1)
    | error e w' =>
      obtain ⟨⟨msg, rfl⟩, _⟩ := lockSchema_error hx
      refine ⟨e, msg, ?_, ?_⟩
      · rintro rfl
        obtain ⟨hl, hundefined⟩ := lockSchema_undefined.mp ⟨_, hx⟩
        rcases hf with hl' | hdefined
        · rw [hl] at hl'
          cases hl'
        · exact hdefined hundefined
      · unfold writeOneBatch
        rw [hargs, raise_ok_bind, Writer.put_nil]
        exact seq_eq_error.mpr (.inl hx)
  · rename_i sc b f
    rw [writeOneBatch_eq hargs hlock, seq_eq_error.mpr (.inl (writeLeaves_stopped hm _))]
    cases f with
    | refused why => exact ⟨_, why.text, by simp [stopAt], rfl⟩
    | thrown what => exact ⟨_, t.lastError, by simp [stopAt], rfl⟩
    | undefined => exact absurd rfl hf

/-- The call on a batch that stops. -/
theorem writeBatch_stops (hopen : w.out.isOpen = true) (h : StopsBatch X schema batch w t ps) :
    ∃ status msg, status ≠ .ok ∧ n2pWriterWriteBatch X w schema batch =
      some (status, { t.put ps with lastError := msg }) := by
  obtain ⟨e, msg, he, hx⟩ := writeOneBatch_stops h
  have hfails := (writeOneBatch_error hx).fails
  unfold n2pWriterWriteBatch
  rw [if_pos hopen, hx]
  cases e with
  | refused status why => exact ⟨status, msg, hfails status why rfl, rfl⟩
  | thrown what => exact ⟨_, _, by simp, rfl⟩
  | undefined => exact absurd rfl he

/-- The call on a batch that builds. -/
theorem writeBatch_builds (hopen : w.out.isOpen = true) (h : BuildsBatch X schema batch w t ps) :
    ∃ msg, n2pWriterWriteBatch X w schema batch =
      some (t.commitStatus, { t with lastError := msg }) := by
  unfold n2pWriterWriteBatch Writer.commitStatus
  rw [if_pos hopen, writeOneBatch_builds h]
  unfold Writer.report
  cases t.out.good with
  | true => exact ⟨t.lastError, rfl⟩
  | false => exact ⟨Refusal.ioError.text, rfl⟩

/-- **A call that returns has a batch that stops or builds.** -/
theorem writeBatch_course {r : N2PStatus × Writer} (hopen : w.out.isOpen = true)
    (h : n2pWriterWriteBatch X w schema batch = some r) :
    (∃ t ps, StopsBatch X schema batch w t ps) ∨ ∃ t ps, BuildsBatch X schema batch w t ps := by
  by_contra hnone
  push Not at hnone
  obtain ⟨hstops, hbuilds⟩ := hnone
  have hundefined : ∃ w', writeOneBatch X schema batch w = .error .undefined w' := by
    cases hargs : checkArguments schema batch with
    | error f => exact absurd (.arguments hargs) (hstops _ _)
    | ok args =>
    obtain ⟨sc, b⟩ := args
    cases hx : lockSchema sc w with
    | ok u w1 =>
      have hlock := lockSchema_ok.mp hx
      rw [writeOneBatch_eq hargs hlock]
      cases hm : (leavesEmission X b w1.codec w1.encoding w1.leaves).result with
      | ok xs => exact absurd (.intro hargs hlock hm) (hbuilds _ _)
      | error f =>
        by_cases hf : f = .undefined
        · subst hf
          exact ⟨_, seq_eq_error.mpr (.inl (writeLeaves_stopped hm _))⟩
        · exact absurd (.leaf hargs hlock hm hf) (hstops _ _)
    | error e w' =>
      have hno : ∀ w1, ¬Locked sc w w1 := by
        intro w1 hlock
        rw [lockSchema_ok.mpr hlock] at hx
        cases hx
      by_cases hf : w.schemaLocked = true ∨
          flattenColumns sc.children 0 ([], []) ≠ .error .undefined
      · exact absurd (.schema hargs hno hf) (hstops _ _)
      · push Not at hf
        obtain ⟨w', hx⟩ := lockSchema_undefined.mpr ⟨by simpa using hf.1, hf.2⟩
        refine ⟨w', ?_⟩
        unfold writeOneBatch
        rw [hargs, raise_ok_bind]
        exact seq_eq_error.mpr (.inl hx)
  obtain ⟨w', hx⟩ := hundefined
  unfold n2pWriterWriteBatch at h
  rw [if_pos hopen, hx] at h
  cases h

end Courses

/-! ## Runs -/

/-- The values of an `int64_t`. -/
def IsInt64 (n : Int) : Prop := -2 ^ 63 ≤ n ∧ n < 2 ^ 63

instance (n : Int) : Decidable (IsInt64 n) := inferInstanceAs (Decidable (_ ∧ _))

/-- A record batch; its length is an `int64_t`. -/
structure Batch where
  array : ArrowArray
  int64 : IsInt64 array.length

/-- A call on an open writer. -/
inductive Op where
  | setCodec (codec : Int)
  | setEncoding (encoding : Int)
  | writeBatch (schema : Option ArrowSchema) (batch : Option Batch)

/-- One call; `none` is undefined behaviour. -/
def Op.apply (X : External) (w : Writer) : Op → Option (N2PStatus × Writer)
  | .setCodec codec => some (n2pWriterSetCodec w codec)
  | .setEncoding encoding => some (n2pWriterSetEncoding w encoding)
  | .writeBatch schema batch => n2pWriterWriteBatch X w schema (batch.map (·.array))

/-- A sequence of calls: the status of each, and the writer afterwards. -/
def run (X : External) (w : Writer) : List Op → Option (List N2PStatus × Writer)
  | [] => some ([], w)
  | op :: ops =>
    match op.apply X w with
    | none => none
    | some (status, w) => (run X w ops).map fun r => (status :: r.1, r.2)

/-- The batches whose call returned `N2P_OK`, in order. -/
def accepted : List Op → List N2PStatus → List ArrowArray
  | .writeBatch _ (some b) :: ops, .ok :: statuses => b.array :: accepted ops statuses
  | _ :: ops, _ :: statuses => accepted ops statuses
  | _, _ => []

theorem run_cons {X : External} {w w' : Writer} {op : Op} {ops : List Op}
    {statuses : List N2PStatus} :
    run X w (op :: ops) = some (statuses, w') ↔
      ∃ status w1 rest, op.apply X w = some (status, w1) ∧ run X w1 ops = some (rest, w') ∧
        statuses = status :: rest := by
  rw [run]
  cases h : op.apply X w with
  | none => simp
  | some r =>
    obtain ⟨status, w1⟩ := r
    simp only [Option.map_eq_some_iff, Option.some.injEq, Prod.mk.injEq]
    constructor
    · rintro ⟨⟨rest, w2⟩, hr, rfl, rfl⟩
      exact ⟨status, w1, rest, ⟨rfl, rfl⟩, hr, rfl⟩
    · rintro ⟨_, _, rest, ⟨rfl, rfl⟩, hr, rfl⟩
      exact ⟨(rest, w'), hr, rfl, rfl⟩

/-- What one call of `n2p_writer_write_batch` comes to. -/
theorem writeBatch_cases {X : External} {w w' : Writer} {schema : Option ArrowSchema}
    {batch : Option ArrowArray} {status : N2PStatus}
    (h : n2pWriterWriteBatch X w schema batch = some (status, w')) :
    status = .ok ∧ writeOneBatch X schema batch w = .ok () w' ∨
      status ≠ .ok ∧
        ((∃ e t msg, w.out.isOpen = true ∧ BatchFailure X schema batch w e t ∧
          w' = { t with lastError := msg }) ∨
        w.out.isOpen = false ∧ ∃ msg, w' = { w with lastError := msg }) := by
  unfold n2pWriterWriteBatch at h
  split at h
  · rename_i hopen
    cases hx : writeOneBatch X schema batch w with
    | ok u t =>
      rw [hx] at h
      cases h
      exact .inl ⟨rfl, rfl⟩
    | error e t =>
      rw [hx] at h
      have hfail := writeOneBatch_error hx
      right
      cases e with
      | refused st why =>
        simp only [Option.some.injEq, Prod.mk.injEq] at h
        obtain ⟨rfl, rfl⟩ := h
        exact ⟨hfail.fails _ why rfl, .inl ⟨_, t, t.lastError, hopen, hfail, rfl⟩⟩
      | thrown what =>
        simp only [Option.some.injEq, Prod.mk.injEq] at h
        obtain ⟨rfl, rfl⟩ := h
        exact ⟨by simp, .inl ⟨_, t, _, hopen, hfail, rfl⟩⟩
      | undefined => cases h
  · rename_i hopen
    cases h
    exact .inr ⟨by simp, .inr ⟨Bool.not_eq_true _ ▸ hopen, _, rfl⟩⟩

end N2P
