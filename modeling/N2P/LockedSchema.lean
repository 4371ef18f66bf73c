import N2P.FileLayout

/-!
# Batches after the first

`nanoarrow2parquet.h` asks of the caller that later batches have the first one's column types; the
writer itself looks at a later schema's format and column count, and at nothing below.
`lockedSchema_only_count` says so for every locked writer; `lockedSchema_type_accepted` is a later
schema with another column type, accepted.
-/

namespace N2P

open Outcome

/-- On a locked writer the lock step compares the column count. -/
theorem lockSchema_locked {w : Writer} (hl : w.schemaLocked = true) (sc : ArrowSchema) :
    lockSchema sc w =
      if sc.children.length = w.topChildren then .ok () w
      else .error (.refused .invalidArgument .incompatible)
        { w with lastError := Refusal.incompatible.text } := by
  unfold lockSchema
  rw [get_bind, if_neg (by rw [hl]; simp)]
  by_cases hn : sc.children.length = w.topChildren
  · rw [if_neg (not_not.mpr hn), if_pos hn]
    rfl
  · rw [if_pos hn, if_neg hn]
    rfl

/-- The checks before the lock look at the format and the column count. -/
theorem checkArguments_congr {sc sc' : ArrowSchema} (hf : sc'.format = sc.format)
    (hn : sc'.children.length = sc.children.length) (batch : Option ArrowArray) :
    checkArguments (some sc') batch =
      (checkArguments (some sc) batch).map fun r => (sc', r.2) := by
  unfold checkArguments
  cases batch with
  | none => rfl
  | some b =>
    dsimp only
    rw [hf, hn]
    split
    · rfl
    split
    · rfl
    split
    · rfl
    · rfl

/-- On a locked writer a call depends on its schema's format and column count only. -/
theorem writeOneBatch_congr {X : External} {w : Writer} (hl : w.schemaLocked = true)
    {sc sc' : ArrowSchema} (hf : sc'.format = sc.format)
    (hn : sc'.children.length = sc.children.length) (batch : Option ArrowArray) :
    writeOneBatch X (some sc') batch w = writeOneBatch X (some sc) batch w := by
  have hlock : lockSchema sc' w = lockSchema sc w := by
    rw [lockSchema_locked hl, lockSchema_locked hl, hn]
  unfold writeOneBatch
  rw [checkArguments_congr hf hn]
  rcases hc : checkArguments (some sc) batch with f | ⟨sc₀, b⟩
  · cases f <;> rfl
  · have hsc : some sc = some sc₀ := (checkArguments_eq_ok.mp hc).1
    cases hsc
    show ((lockSchema sc') >>= fun _ => _) w = ((lockSchema sc) >>= fun _ => _) w
    show EStateM.bind _ _ w = EStateM.bind _ _ w
    unfold EStateM.bind
    rw [hlock]

theorem writeBatch_congr {X : External} {w : Writer} (hl : w.schemaLocked = true)
    {sc sc' : ArrowSchema} (hf : sc'.format = sc.format)
    (hn : sc'.children.length = sc.children.length) (batch : Option ArrowArray) :
    n2pWriterWriteBatch X w (some sc') batch = n2pWriterWriteBatch X w (some sc) batch := by
  unfold n2pWriterWriteBatch
  rw [writeOneBatch_congr hl hf hn]

/-- On a locked writer another column count is refused, and only the last error changes. -/
theorem writeOneBatch_miscounted (X : External) {w : Writer} (hl : w.schemaLocked = true)
    {sc : ArrowSchema} (hn : sc.children.length ≠ w.topChildren) (batch : Option ArrowArray) :
    ∃ why, writeOneBatch X (some sc) batch w =
      .error (.refused .invalidArgument why) { w with lastError := why.text } := by
  unfold writeOneBatch
  rcases hargs : checkArguments (some sc) batch with f | ⟨sc₀, b⟩
  · rcases checkArguments_error hargs with rfl | rfl | rfl | rfl <;> exact ⟨_, rfl⟩
  · obtain rfl : sc = sc₀ := Option.some.inj (checkArguments_eq_ok.mp hargs).1
    have hlock := lockSchema_locked hl sc
    rw [if_neg hn] at hlock
    refine ⟨.incompatible, ?_⟩
    rw [raise_ok_bind]
    show EStateM.bind _ _ w = _
    unfold EStateM.bind
    rw [hlock]

/-- A call that passes the lock has the locked column count. -/
theorem Locked.count {sc : ArrowSchema} {w w1 : Writer} (hl : w.schemaLocked = true)
    (h : Locked sc w w1) : w1 = w ∧ sc.children.length = w.topChildren := by
  rcases h with ⟨_, hn⟩ | ⟨_, _, h, _⟩
  · exact ⟨rfl, hn⟩
  · rw [hl] at h
    cases h

/-- **A later schema is looked at only at its top.**  An accepted batch is written with the locked
    leaves; another column count is refused with only the last error changed; and two schemas with
    one format and column count are treated alike, whatever their columns are. -/
theorem lockedSchema_only_count {X : External} {w w' : Writer} (hl : w.schemaLocked = true)
    {sc : ArrowSchema} {batch : Option ArrowArray} {status : N2PStatus}
    (hcall : n2pWriterWriteBatch X w (some sc) batch = some (status, w')) :
    (status = .ok → SameSchema w w' ∧ sc.format = some "+s" ∧
      sc.children.length = w.topChildren ∧
      ∃ b xs, batch = some b ∧ b.nChildren = sc.children.length ∧ Chunks X w b xs ∧
        w' = w.record b xs) ∧
    (sc.children.length ≠ w.topChildren →
      status = (if w.out.isOpen then .invalidArgument else .ioError) ∧
        ∃ msg, w' = { w with lastError := msg }) ∧
    ∀ sc' : ArrowSchema, sc'.format = sc.format → sc'.children.length = sc.children.length →
      n2pWriterWriteBatch X w (some sc') batch = some (status, w') := by
  refine ⟨?_, ?_, ?_⟩
  · rintro rfl
    rcases writeBatch_cases hcall with ⟨_, hok⟩ | ⟨hne, _⟩
    · obtain ⟨sc₀, b, w1, xs, hargs, hlock, hxs, rfl, _⟩ := writeOneBatch_ok hok
      obtain ⟨hsc, hb, hf, _, hn⟩ := checkArguments_eq_ok.mp hargs
      cases hsc
      obtain ⟨rfl, hcount⟩ := hlock.count hl
      exact ⟨⟨rfl, rfl, rfl, rfl⟩, hf, hcount, b, xs, hb, hn, hxs, rfl⟩
    · exact absurd rfl hne
  · intro hcount
    unfold n2pWriterWriteBatch at hcall
    obtain ⟨why, hone⟩ := writeOneBatch_miscounted X hl hcount batch
    by_cases hopen : w.out.isOpen = true
    · rw [if_pos hopen, hone] at hcall
      rw [if_pos hopen]
      cases hcall
      exact ⟨rfl, _, rfl⟩
    · rw [if_neg hopen] at hcall ⊢
      cases hcall
      exact ⟨rfl, _, rfl⟩
  · intro sc' hf hn
    rw [writeBatch_congr hl hf hn, hcall]

/-! ## A later schema that differs -/

/-- One REQUIRED column. -/
def oneColumn (format : String) : ArrowSchema := .nested "+s" "" false [.leaf format "n" false]

/-- Two rows, in a buffer of sixteen bytes. -/
def twoRows : ArrowArray :=
  .struct 2 none 0 [{ ArrowArray.int32 [1, 0, 2, 0] none 0 with length := 2 }]

/-- The writer after one `int32` batch. -/
def int32Locked : Option Writer :=
  (n2pWriterWriteBatch .reference freshWriter (some (oneColumn "i")) (some twoRows)).map (·.2)

/-- A batch of two columns is refused by the writer locked to one. -/
theorem int32Locked_refuses :
    ∃ w w', int32Locked = some w ∧ w.schemaLocked = true ∧
      nameAndNumber.children.length ≠ w.topChildren ∧
      n2pWriterWriteBatch .reference w (some nameAndNumber) (some (fourRows false).array) =
        some (.invalidArgument, w') := by
  have hfacts : (int32Locked.bind fun w =>
      (n2pWriterWriteBatch .reference w (some nameAndNumber)
        (some (fourRows false).array)).map fun r => (w.schemaLocked, w.topChildren, r.1)) =
      some (true, 1, .invalidArgument) := by decide +kernel
  obtain ⟨w, hw, h⟩ := Option.bind_eq_some_iff.mp hfacts
  obtain ⟨⟨status, w'⟩, hcall, heq⟩ := Option.map_eq_some_iff.mp h
  simp only [Prod.mk.injEq] at heq
  obtain ⟨hlocked, hcount, rfl⟩ := heq
  refine ⟨w, w', hw, hlocked, ?_, hcall⟩
  rw [hcount]
  decide

/-- An `int64` column is accepted where the locked schema has an `int32` column. -/
theorem lockedSchema_type_accepted :
    ∃ w w' nodes leaves, int32Locked = some w ∧ w.schemaLocked = true ∧
      n2pWriterWriteBatch .reference w (some (oneColumn "l")) (some twoRows) = some (.ok, w') ∧
      flattenColumns (oneColumn "l").children 0 ([], []) = .ok (nodes, leaves) ∧
      nodes ≠ w.schemaNodes ∧ leaves ≠ w.leaves := by
  have hfacts : (int32Locked.bind fun w =>
      (n2pWriterWriteBatch .reference w (some (oneColumn "l")) (some twoRows)).map fun r =>
        (w.schemaLocked, w.schemaNodes.map (·.type), w.leaves.map (·.col.type), r.1)) =
      some (true, [.int32], [.int32], .ok) := by decide +kernel
  obtain ⟨w, hw, h⟩ := Option.bind_eq_some_iff.mp hfacts
  obtain ⟨⟨status, w'⟩, hcall, heq⟩ := Option.map_eq_some_iff.mp h
  simp only [Prod.mk.injEq] at heq
  obtain ⟨hlocked, hnodes, hleaves, rfl⟩ := heq
  refine ⟨w, w', _, _, hw, hlocked, hcall, rfl, ?_, ?_⟩
  · intro h
    rw [← h] at hnodes
    revert hnodes
    decide +kernel
  · intro h
    rw [← h] at hleaves
    revert hleaves
    decide +kernel

/-- Another column count is refused. -/
theorem lockedSchema_count_refused :
    ∃ w w', int32Locked = some w ∧
      n2pWriterWriteBatch .reference w (some nameAndNumber) (some (fourRows false).array) =
        some (.invalidArgument, w') ∧
      ∃ msg, w' = { w with lastError := msg } := by
  obtain ⟨w, w', hw, hlocked, hne, hcall⟩ := int32Locked_refuses
  exact ⟨w, w', hw, hcall, ((lockedSchema_only_count hlocked hcall).2.1 hne).2⟩

end N2P
