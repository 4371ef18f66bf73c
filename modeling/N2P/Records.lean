import Mathlib.Algebra.Ring.Int.Defs
import N2P.Batches

/-!
# What a run records

The row groups the footer will list, and what each was written from.  `Recorded` ties the
writer's row groups to the batches, codecs and chunks they came from; it holds in every reachable
state, over any stream, whichever calls failed and wherever they did.

* `recorded_apply`, `recorded_run` — one call, and any run, keeps the record.
* `usedCodecs` — the codec in force at each call that recorded a row group.
-/

namespace N2P

open Outcome

/-- A recorded batch: the codec and encoding it was written under, and its chunks. -/
structure Group where
  batch : ArrowArray
  codec : CompressionCodec
  encoding : Nat
  chunks : List Chunk

def Group.entry (g : Group) : RowGroupMeta := batchGroup g.batch g.chunks

/-- One chunk for each leaf, in schema order. -/
structure Group.Of (X : External) (leaves : List LeafSpec) (g : Group) : Prop where
  leaves : g.chunks.map (·.leaf) = leaves
  of : ∀ x ∈ g.chunks, x.Of X g.batch g.codec g.encoding
  int64 : IsInt64 g.batch.length

/-- The writer's row groups are those of the groups `gs`. -/
structure Recorded (X : External) (w : Writer) (gs : List Group) : Prop where
  groups : w.rowGroups = gs.map Group.entry
  rows : w.totalRows = (gs.map (·.batch.length)).sum
  of : ∀ g ∈ gs, g.Of X w.leaves
  unlocked : w.schemaLocked = false → gs = []
  locked : w.schemaLocked = true → w.leaves ≠ [] ∧
    ∃ columns, flattenColumns columns 0 ([], []) = .ok (w.schemaNodes, w.leaves) ∧
      columns.length = w.topChildren

theorem Locked.locked {sc : ArrowSchema} {w w1 : Writer} (h : Locked sc w w1) :
    w1.schemaLocked = true := by
  rcases h with ⟨hl, _⟩ | _
  · exact hl
  · rfl

section Recorded

variable {X : External} {w w' : Writer} {gs : List Group}

/-- The record does not depend on the stream, the settings or the last error. -/
theorem Recorded.of_eq (h : Recorded X w gs) (hg : w'.rowGroups = w.rowGroups)
    (hr : w'.totalRows = w.totalRows) (hs : SameSchema w w') : Recorded X w' gs := by
  refine ⟨hg ▸ h.groups, hr ▸ h.rows, hs.leaves ▸ h.of, hs.locked ▸ h.unlocked, ?_⟩
  rw [hs.locked, hs.leaves, hs.nodes, hs.topChildren]
  exact h.locked

theorem Recorded.streams (h : Recorded X w gs) (hs : Streams w w') : Recorded X w' gs := by
  obtain ⟨pieces, msg, rfl⟩ := hs
  exact h.of_eq rfl rfl ⟨rfl, rfl, rfl, rfl⟩

theorem Recorded.lastError (h : Recorded X w gs) (msg : String) :
    Recorded X { w with lastError := msg } gs :=
  h.of_eq rfl rfl ⟨rfl, rfl, rfl, rfl⟩

/-- Locking the schema keeps the record: nothing was recorded before. -/
theorem Recorded.lock {w1 : Writer} {sc : ArrowSchema} (h : Recorded X w gs)
    (hl : Locked sc w w1) : Recorded X w1 gs := by
  rcases hl with _ | ⟨nodes, leaves, hl, hf, hne⟩
  · exact h
  · have hgs := h.unlocked hl
    subst hgs
    exact ⟨h.groups, h.rows, by simp, nofun, fun _ => ⟨hne, _, hf, rfl⟩⟩

/-- A batch adds its group. -/
theorem Recorded.record {b : ArrowArray} {xs : List Chunk} (h : Recorded X w gs)
    (hl : w.schemaLocked = true) (hxs : Chunks X w b xs) (hb : IsInt64 b.length) :
    Recorded X (w.record b xs) (gs ++ [⟨b, w.codec, w.encoding, xs⟩]) := by
  refine ⟨?_, ?_, ?_, ?_, h.locked⟩
  · show w.rowGroups ++ [batchGroup b xs] = _
    rw [h.groups, List.map_append]
    rfl
  · show w.totalRows + b.length = _
    simp [h.rows]
  · intro g hg
    rcases List.mem_append.mp hg with hg | hg
    · exact h.of g hg
    · rw [List.mem_singleton.mp hg]
      exact ⟨hxs.leaves, hxs.of, hb⟩
  · intro hw
    have : w.schemaLocked = false := hw
    rw [hl] at this
    cases this

end Recorded

/-! ## Calls and runs -/

/-- The codec a call wrote a row group under, if it recorded one. -/
def usedCodec (w w' : Writer) : List CompressionCodec :=
  if w.rowGroups.length < w'.rowGroups.length then [w.codec] else []

/-- The codec in force at each call that recorded a row group. -/
def usedCodecs (X : External) (w : Writer) : List Op → List CompressionCodec
  | [] => []
  | op :: ops =>
    match op.apply X w with
    | none => []
    | some (_, w') => usedCodec w w' ++ usedCodecs X w' ops

theorem usedCodec_none {w w' : Writer} (h : w'.rowGroups = w.rowGroups) : usedCodec w w' = [] := by
  unfold usedCodec
  rw [if_neg (by rw [h]; omega)]

theorem usedCodec_record {w w1 w' : Writer} {b : ArrowArray} {xs : List Chunk}
    (h : w1.rowGroups = w.rowGroups) (h' : w'.rowGroups = (w1.record b xs).rowGroups) :
    usedCodec w w' = [w.codec] := by
  have hgroups : w'.rowGroups = w.rowGroups ++ [batchGroup b xs] := by
    rw [h', ← h]
    rfl
  unfold usedCodec
  rw [if_pos (by rw [hgroups, List.length_append, List.length_singleton]; omega)]

/-- **One call keeps the record**, with one more group when it recorded one. -/
theorem recorded_apply {X : External} {w w' : Writer} {op : Op} {status : N2PStatus}
    {gs : List Group} (h : Recorded X w gs) (hop : op.apply X w = some (status, w')) :
    ∃ new, Recorded X w' (gs ++ new) ∧ new.map (·.codec) = usedCodec w w' := by
  have same : ∀ t : Writer, Recorded X t gs → t.rowGroups = w.rowGroups →
      ∃ new, Recorded X t (gs ++ new) ∧ new.map (·.codec) = usedCodec w t := by
    intro t ht hg
    exact ⟨[], by rwa [List.append_nil], (usedCodec_none hg).symm⟩
  have recorded : ∀ (sc : ArrowSchema) (b : Batch) (w1 : Writer) (xs : List Chunk) (msg : String),
      Locked sc w w1 → Chunks X w1 b.array xs →
      ∃ new, Recorded X { w1.record b.array xs with lastError := msg } (gs ++ new) ∧
        new.map (·.codec) = usedCodec w { w1.record b.array xs with lastError := msg } := by
    intro sc b w1 xs msg hlock hxs
    obtain ⟨hcodec, _, hgroups⟩ := hlock.settings
    refine ⟨_, ((h.lock hlock).record hlock.locked hxs b.int64).lastError msg, ?_⟩
    refine Eq.trans ?_ (usedCodec_record hgroups (Eq.refl (w1.record b.array xs).rowGroups)).symm
    rw [← hcodec]
    rfl
  cases op with
  | setCodec codec =>
    simp only [Op.apply, Option.some.injEq] at hop
    unfold n2pWriterSetCodec at hop
    split at hop
    · cases hop
      exact same _ (h.of_eq rfl rfl ⟨rfl, rfl, rfl, rfl⟩) rfl
    split at hop
    · cases hop
      exact same _ (h.of_eq rfl rfl ⟨rfl, rfl, rfl, rfl⟩) rfl
    · cases hop
      exact same _ (h.lastError _) rfl
  | setEncoding encoding =>
    simp only [Op.apply, Option.some.injEq] at hop
    unfold n2pWriterSetEncoding at hop
    split at hop
    · cases hop
      exact same _ (h.of_eq rfl rfl ⟨rfl, rfl, rfl, rfl⟩) rfl
    · cases hop
      exact same _ (h.lastError _) rfl
  | writeBatch schema batch =>
    rcases writeBatch_cases hop with ⟨rfl, hok⟩ | ⟨_, ⟨e, t, msg, _, hf, rfl⟩ | ⟨_, msg, rfl⟩⟩
    · obtain ⟨sc, b, w1, xs, hargs, hlock, hxs, rfl, _⟩ := writeOneBatch_ok hok
      obtain ⟨_, hbatch, _⟩ := checkArguments_eq_ok.mp hargs
      obtain ⟨b', _, rfl⟩ := Option.map_eq_some_iff.mp hbatch
      exact recorded sc b' w1 xs (w1.record b'.array xs).lastError hlock hxs
    · rcases hf with ⟨msg', _⟩ | ⟨sc, b, w1, t, _, hlock, hleaves⟩ |
        ⟨sc, b, w1, xs, hargs, hlock, hxs, _⟩
      · exact same _ (h.lastError msg) rfl
      · obtain ⟨pieces, msg', rfl⟩ := ((onlyStreams_writeLeaves _ _ _ _).error hleaves).1
        exact same _ ((h.lock hlock).of_eq rfl rfl ⟨rfl, rfl, rfl, rfl⟩) hlock.settings.2.2
      · obtain ⟨_, hbatch, _⟩ := checkArguments_eq_ok.mp hargs
        obtain ⟨b', _, rfl⟩ := Option.map_eq_some_iff.mp hbatch
        exact recorded sc b' w1 xs msg hlock hxs
    · exact same _ (h.lastError msg) rfl

/-- **Every run keeps the record.** -/
theorem recorded_run {X : External} {w w' : Writer} {ops : List Op} {statuses : List N2PStatus}
    {gs : List Group} (h : Recorded X w gs) (hrun : run X w ops = some (statuses, w')) :
    ∃ new, Recorded X w' (gs ++ new) ∧ new.map (·.codec) = usedCodecs X w ops := by
  induction ops generalizing w statuses gs with
  | nil =>
    cases hrun
    exact ⟨[], by simpa using h, rfl⟩
  | cons op ops ih =>
    obtain ⟨status, w1, rest, hop, hrest, rfl⟩ := run_cons.mp hrun
    obtain ⟨new1, h1, hnew1⟩ := recorded_apply h hop
    obtain ⟨new2, h2, hnew2⟩ := ih h1 hrest
    refine ⟨new1 ++ new2, by rw [← List.append_assoc]; exact h2, ?_⟩
    rw [List.map_append, hnew1, hnew2, usedCodecs, hop]

/-- A writer just opened has recorded nothing. -/
theorem recorded_open (X : External) (sink : ByteSink) (path : String) :
    Recorded X (n2pWriterOpen sink path).2 [] := by
  unfold n2pWriterOpen
  split
  · exact ⟨rfl, rfl, by simp, fun _ => rfl, nofun⟩
  · exact ⟨rfl, rfl, by simp, fun _ => rfl, nofun⟩

/-! ## Accepted batches -/

/-- The states a writer can be in between open and close. -/
def Reachable (X : External) (w : Writer) : Prop :=
  ∃ sink path ops statuses, run X (n2pWriterOpen sink path).2 ops = some (statuses, w)

theorem Reachable.recorded {X : External} {w : Writer} (h : Reachable X w) :
    ∃ gs, Recorded X w gs := by
  obtain ⟨sink, path, ops, statuses, hrun⟩ := h
  obtain ⟨new, hrec, _⟩ := recorded_run (recorded_open X sink path) hrun
  exact ⟨_, hrec⟩

/-- A writer that accepted a batch: its leaves come from a schema with the batch's column count,
    and each leaf's inputs were built. -/
structure Accepted (X : External) (w' : Writer) (b : ArrowArray) : Prop where
  int64 : IsInt64 b.length
  flattened : ∃ columns, flattenColumns columns 0 ([], []) = .ok (w'.schemaNodes, w'.leaves) ∧
    b.nChildren = columns.length
  inputs : ∀ leaf ∈ w'.leaves, ∃ inp, leafInputs X leaf b = .ok inp

theorem accepted_of_ok {X : External} {w w' : Writer} (hr : Reachable X w)
    {schema : Option ArrowSchema} {batch : Option Batch}
    (h : n2pWriterWriteBatch X w schema (batch.map (·.array)) = some (.ok, w')) :
    ∃ b, batch = some b ∧ Accepted X w' b.array := by
  obtain ⟨gs, hrec⟩ := hr.recorded
  rcases writeBatch_cases h with ⟨_, hok⟩ | ⟨hne, _⟩
  · obtain ⟨sc, b, w1, xs, hargs, hlock, hxs, rfl, _⟩ := writeOneBatch_ok hok
    obtain ⟨_, hb, _, _, hn⟩ := checkArguments_eq_ok.mp hargs
    obtain ⟨b', rfl, rfl⟩ := Option.map_eq_some_iff.mp hb
    obtain ⟨_, columns, hf, hcount⟩ := (hrec.lock hlock).locked hlock.locked
    refine ⟨b', rfl, b'.int64, ⟨columns, hf, ?_⟩, ?_⟩
    · rw [hn, hcount]
      rcases hlock with ⟨_, hcount'⟩ | _
      · rw [hcount']
      · rfl
    · intro leaf hleaf
      have hmem : leaf ∈ xs.map (·.leaf) := hxs.leaves ▸ hleaf
      obtain ⟨x, hx, rfl⟩ := List.mem_map.mp hmem
      exact ⟨x.inp, (hxs.of x hx).inputs⟩
  · exact absurd rfl hne

end N2P
