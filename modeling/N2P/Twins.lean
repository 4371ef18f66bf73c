import N2P.Lockstep

/-!
# What is passed to the stream

No step of the writer looks at its stream before the final check of `write_one_batch`, so a run
passes the same bytes to every stream, however much of them the device takes.

* `Twins` — one writer on two streams to which the same pieces were written.
* `lockstep_twins` — no step tells them apart.
* `twins_writeBatch`, `twins_run` — after a call, and after any run, the two are twins again, though
  the statuses may differ.
-/

namespace N2P

open Outcome

/-- One writer, but for the last error, on two streams to which the same pieces were written. -/
def Twins (s0 u0 : ByteSink) (w u : Writer) : Prop :=
  w.footerWritten = false ∧ ∃ pieces msg, w.out = s0.writeAll pieces ∧
    u = { w with out := u0.writeAll pieces, lastError := msg }

section Twins

variable {s0 u0 : ByteSink} {w u : Writer}

theorem Twins.put (h : Twins s0 u0 w u) (pieces : List Bytes) :
    Twins s0 u0 (w.put pieces) (u.put pieces) := by
  obtain ⟨hf, ps, msg, hw, rfl⟩ := h
  refine ⟨hf, ps ++ pieces, msg, ?_, ?_⟩
  · rw [ByteSink.writeAll_append, ← hw]
    rfl
  · rw [ByteSink.writeAll_append]
    rfl

/-- **Twins stay in lockstep.** -/
theorem lockstep_twins (hs : s0.isOpen = true) (hu : u0.isOpen = true) :
    Lockstep (Twins s0 u0) where
  schema := by
    rintro w _ ⟨_, ps, msg, _, rfl⟩
    exact ⟨rfl, rfl, rfl, rfl⟩
  settings := by
    rintro w _ ⟨_, ps, msg, _, rfl⟩
    exact ⟨rfl, rfl⟩
  isOpen := by
    rintro w _ ⟨_, ps, msg, hw, rfl⟩
    simp [hw, hs, hu]
  lastError := by
    rintro w _ ⟨hf, ps, msg, hw, rfl⟩ m m'
    exact ⟨hf, ps, m', hw, rfl⟩
  setCodec := by
    rintro w _ ⟨hf, ps, msg, hw, rfl⟩ codec
    exact ⟨hf, ps, msg, hw, rfl⟩
  setEncoding := by
    rintro w _ ⟨hf, ps, msg, hw, rfl⟩ encoding
    exact ⟨hf, ps, msg, hw, rfl⟩
  put := fun h pieces => h.put pieces
  lock := by
    rintro w _ ⟨hf, ps, msg, hw, rfl⟩ schema nodes leaves
    exact ⟨hf, ps, msg, hw, rfl⟩
  record := by
    intro w u h batch xs
    have hoffset : u.offset = w.offset := by
      obtain ⟨_, ps, msg, _, rfl⟩ := h
      rfl
    obtain ⟨hf, qs, msg', hout, hput⟩ := h.put ((placed w.offset xs).flatMap (·.pages.pieces))
    obtain ⟨_, ps, msg, _, rfl⟩ := h
    rw [hoffset]
    exact ⟨hf, qs, msg', hout, by unfold Writer.record; rw [hput]⟩

/-- **One call of `n2p_writer_write_batch` keeps twins**, or is undefined for both. -/
theorem twins_writeBatch (X : External) (schema : Option ArrowSchema) (batch : Option ArrowArray)
    (hs : s0.isOpen = true) (hu : u0.isOpen = true) (h : Twins s0 u0 w u) :
    Option.Rel (fun r r' => Twins s0 u0 r.2 r'.2) (n2pWriterWriteBatch X w schema batch)
      (n2pWriterWriteBatch X u schema batch) := by
  have hcall := lockstep_writeBatch (lockstep_twins hs hu) X schema batch h
  generalize n2pWriterWriteBatch X w schema batch = r at hcall ⊢
  generalize n2pWriterWriteBatch X u schema batch = r' at hcall ⊢
  cases hcall with
  | undefined => exact .none
  | stopped _ h => exact .some h
  | recorded h => exact .some h

/-- **Any run keeps twins**, or is undefined for both. -/
theorem twins_run (X : External) (hs : s0.isOpen = true) (hu : u0.isOpen = true) (ops : List Op)
    (h : Twins s0 u0 w u) :
    Option.Rel (fun r r' => Twins s0 u0 r.2 r'.2) (run X w ops) (run X u ops) := by
  have hrun := lockstep_run (lockstep_twins hs hu) (Q := fun _ _ => True) (fun _ => trivial)
    (fun _ => trivial) X ops h
  generalize run X w ops = r at hrun ⊢
  generalize run X u ops = r' at hrun ⊢
  cases hrun with
  | none => exact .none
  | some h => exact .some h.2

end Twins

end N2P
