import N2P.Lib.Relational
import N2P.Batches

/-!
# Two writers in lockstep

A writer looks at its schema, its settings and whether its stream is open, and at nothing else
before the commit.  So any relation of writers that keeps these in common, and that streaming,
locking and recording preserve, is preserved by every call and by every run.

* `Lockstep` — what such a relation is asked for.
* `ends_writeOneBatch` — a batch stops on both writers with one error, or is recorded on both, and
  only there does each report what its own stream says.
* `lockstep_writeBatch`, `lockstep_run` — the same for a call, and for any run.
-/

namespace N2P

open Outcome

/-- A relation that the steps of a batch preserve, whatever the writers. -/
structure Lockstep (S : Writer → Writer → Prop) : Prop where
  schema : ∀ {w u}, S w u → SameSchema w u
  settings : ∀ {w u}, S w u → u.codec = w.codec ∧ u.encoding = w.encoding
  isOpen : ∀ {w u}, S w u → u.out.isOpen = w.out.isOpen
  lastError : ∀ {w u}, S w u → ∀ msg msg',
    S { w with lastError := msg } { u with lastError := msg' }
  setCodec : ∀ {w u}, S w u → ∀ codec, S { w with codec } { u with codec }
  setEncoding : ∀ {w u}, S w u → ∀ encoding, S { w with encoding } { u with encoding }
  put : ∀ {w u}, S w u → ∀ pieces, S (w.put pieces) (u.put pieces)
  lock : ∀ {w u}, S w u → ∀ schema nodes leaves,
    S (w.lock schema nodes leaves) (u.lock schema nodes leaves)
  record : ∀ {w u}, S w u → ∀ batch xs,
    S (w.record batch (placed w.offset xs)) (u.record batch (placed u.offset xs))

section Lockstep

variable {S : Writer → Writer → Prop} (hS : Lockstep S)

/-! ## Up to the commit -/

include hS in
/-- A step that streams does so on both, and stops on both. -/
theorem agree_streamOf {α : Type} (m : Emission Fault Bytes α) :
    Agree S Eq (streamOf m) (streamOf m) := by
  intro w u h
  have hput := hS.put h m.output
  unfold streamOf Emission.run
  cases m.result with
  | ok a => exact ⟨rfl, hput⟩
  | error f =>
    cases f with
    | refused why => exact ⟨rfl, hS.lastError hput _ _⟩
    | thrown what => exact ⟨rfl, hput⟩
    | undefined => exact ⟨rfl, hput⟩

include hS in
theorem agree_raise {α : Type} (x : Except Fault α) : Agree S Eq (raise x) (raise x) := by
  rw [← streamOf_lift]
  exact agree_streamOf hS _

include hS in
theorem agree_refuse {α : Type} (status : N2PStatus) (why : Refusal) :
    Agree S (Eq : α → α → Prop) (refuse status why) (refuse status why) := by
  intro w u h
  rw [refuse_eq, refuse_eq]
  exact ⟨rfl, hS.lastError h _ _⟩

include hS in
theorem agree_lockSchema (schema : ArrowSchema) :
    Agree S Eq (lockSchema schema) (lockSchema schema) := by
  unfold lockSchema
  refine agree_get_bind fun w u h => ?_
  rw [(hS.schema h).locked, (hS.schema h).topChildren]
  split
  · split
    · exact agree_refuse hS _ _
    · exact agree_throw _
    · exact agree_throw _
    · split
      · exact agree_refuse hS _ _
      · exact (agree_modify fun _ _ h => hS.lock h schema _ _).mono fun _ _ _ => rfl
  · split
    · exact agree_refuse hS _ _
    · exact agree_pure rfl

/-! ## One call -/

/-- Two batches that ended alike: one error before the commit, or a record whose streams are
    looked at. -/
inductive EndsAlike (S : Writer → Writer → Prop) :
    EStateM.Result Exit Writer Unit → EStateM.Result Exit Writer Unit → Prop where
  | stopped (e : Exit) {w u : Writer} (h : S w u) (he : e.Fails) :
    EndsAlike S (.error e w) (.error e u)
  | recorded {w u : Writer} (h : S w u) : EndsAlike S w.report u.report

/-- A common step before steps that end alike. -/
theorem ends_bind {α : Type} {x : WriterM α} {f : α → WriterM Unit} (hx : Agree S Eq x x)
    (hfails : ∀ w e w', x w = .error e w' → e.Fails)
    (hf : ∀ a w u, S w u → EndsAlike S (f a w) (f a u)) {w u : Writer} (h : S w u) :
    EndsAlike S ((x >>= f) w) ((x >>= f) u) := by
  have hstep := hx w u h
  show EndsAlike S (EStateM.bind x f w) (EStateM.bind x f u)
  unfold EStateM.bind
  cases hw : x w with
  | ok a w' =>
    cases hu : x u with
    | ok b u' =>
      rw [hw, hu] at hstep
      obtain ⟨rfl, hs⟩ := hstep
      exact hf a w' u' hs
    | error e u' =>
      rw [hw, hu] at hstep
      exact hstep.elim
  | error e w' =>
    cases hu : x u with
    | ok b u' =>
      rw [hw, hu] at hstep
      exact hstep.elim
    | error e' u' =>
      rw [hw, hu] at hstep
      obtain ⟨rfl, hs⟩ := hstep
      exact .stopped e hs (hfails w e w' hw)

include hS in
/-- **The leaf loop and the commit.** -/
theorem ends_commit (X : External) (batch : ArrowArray) {w u : Writer} (h : S w u) :
    EndsAlike S ((writeLeaves X w.leaves batch { numRows := batch.length } >>= commit batch) w)
      ((writeLeaves X u.leaves batch { numRows := batch.length } >>= commit batch) u) := by
  have hput := hS.put h (leavesEmission X batch w.codec w.encoding w.leaves).output
  show EndsAlike S (EStateM.bind _ _ w) (EStateM.bind _ _ u)
  unfold EStateM.bind
  rw [writeLeaves_stream, writeLeaves_stream, (hS.schema h).leaves, (hS.settings h).1,
    (hS.settings h).2]
  unfold streamOf Emission.run
  simp only [Emission.result_map, Emission.output_map]
  cases hm : (leavesEmission X batch w.codec w.encoding w.leaves).result with
  | error f =>
    cases f with
    | refused why =>
      exact .stopped _ (hS.lastError hput _ _) fun status why' he => by cases he; simp
    | thrown what => exact .stopped _ hput fun status why' he => by cases he
    | undefined => exact .stopped _ hput fun status why' he => by cases he
  | ok xs =>
    have hrecord := hS.record h batch xs
    have hout := (leavesEmission_eq_ok hm).2.2
    have hcommit : ∀ v : Writer, commit batch
        (({ numRows := batch.length } : RowGroupMeta).addAll (placed v.offset xs))
        (v.put (leavesEmission X batch w.codec w.encoding w.leaves).output) =
        (v.record batch (placed v.offset xs)).report := by
      intro v
      rw [commit_eq, hout, ← pieces_placed v.offset xs]
      rfl
    show EndsAlike S (commit batch _ _) (commit batch _ _)
    rw [hcommit, hcommit]
    exact .recorded hrecord

include hS in
/-- **One batch on both writers.** -/
theorem ends_writeOneBatch (X : External) (schema : Option ArrowSchema)
    (batch : Option ArrowArray) {w u : Writer} (h : S w u) :
    EndsAlike S (writeOneBatch X schema batch w) (writeOneBatch X schema batch u) := by
  unfold writeOneBatch
  refine ends_bind (agree_raise hS _) (fun w e w' he => (raise_error_fails he).2) ?_ h
  rintro ⟨sc, b⟩ w u h
  refine ends_bind (agree_lockSchema hS sc) (fun w e w' he => (lockSchema_error he).2) ?_ h
  intro _ w u h
  exact ends_commit hS X b h

include hS in
/-- A setting is taken by both, or by neither. -/
theorem lockstep_setCodec (codec : Int) {w u : Writer} (h : S w u) :
    (n2pWriterSetCodec w codec).1 = (n2pWriterSetCodec u codec).1 ∧
      S (n2pWriterSetCodec w codec).2 (n2pWriterSetCodec u codec).2 := by
  unfold n2pWriterSetCodec
  split
  · exact ⟨rfl, hS.setCodec h _⟩
  split
  · exact ⟨rfl, hS.setCodec h _⟩
  · exact ⟨rfl, hS.lastError h _ _⟩

include hS in
theorem lockstep_setEncoding (encoding : Int) {w u : Writer} (h : S w u) :
    (n2pWriterSetEncoding w encoding).1 = (n2pWriterSetEncoding u encoding).1 ∧
      S (n2pWriterSetEncoding w encoding).2 (n2pWriterSetEncoding u encoding).2 := by
  unfold n2pWriterSetEncoding
  split
  · exact ⟨rfl, hS.setEncoding h _⟩
  · exact ⟨rfl, hS.lastError h _ _⟩

/-- What two calls that went alike return. -/
inductive ReturnsAlike (S : Writer → Writer → Prop) :
    Option (N2PStatus × Writer) → Option (N2PStatus × Writer) → Prop where
  | undefined : ReturnsAlike S none none
  | stopped {status : N2PStatus} (hs : status ≠ .ok) {w u : Writer} (h : S w u) :
      ReturnsAlike S (some (status, w)) (some (status, u))
  | recorded {w u : Writer} (h : S w u) :
      ReturnsAlike S (some (w.commitStatus, w)) (some (u.commitStatus, u))

include hS in
/-- **One call of `n2p_writer_write_batch` on both writers.** -/
theorem lockstep_writeBatch (X : External) (schema : Option ArrowSchema)
    (batch : Option ArrowArray) {w u : Writer} (h : S w u) :
    ReturnsAlike S (n2pWriterWriteBatch X w schema batch) (n2pWriterWriteBatch X u schema batch) := by
  unfold n2pWriterWriteBatch
  rw [hS.isOpen h]
  split
  · have hends := ends_writeOneBatch hS X schema batch h
    generalize writeOneBatch X schema batch w = r at hends
    generalize writeOneBatch X schema batch u = r' at hends
    cases hends with
    | stopped e h he =>
      cases e with
      | refused status why => exact .stopped (he status why rfl) h
      | thrown what => exact .stopped (by simp) (hS.lastError h _ _)
      | undefined => exact .undefined
    | @recorded w u h =>
      have hreport : ∀ v : Writer, ∃ msg, v.report = .ok () v ∧ msg = v.lastError ∧
            v.commitStatus = .ok ∨
          v.report = .error (.refused .ioError .ioError) { v with lastError := msg } ∧
            v.commitStatus = .ioError := by
        intro v
        unfold Writer.report Writer.commitStatus
        cases v.out.good with
        | true => exact ⟨_, .inl ⟨rfl, rfl, rfl⟩⟩
        | false => exact ⟨_, .inr ⟨rfl, rfl⟩⟩
      obtain ⟨msg, hw⟩ := hreport w
      obtain ⟨msg', hu⟩ := hreport u
      have hreturns := ReturnsAlike.recorded (hS.lastError h msg msg')
      change ReturnsAlike S (some (w.commitStatus, _)) (some (u.commitStatus, _)) at hreturns
      rcases hw with ⟨hw, rfl, hstatus⟩ | ⟨hw, hstatus⟩ <;>
        rcases hu with ⟨hu, rfl, hstatus'⟩ | ⟨hu, hstatus'⟩ <;>
        rw [hstatus, hstatus'] at hreturns <;> rw [hw, hu] <;> exact hreturns
  · exact .stopped (by simp) (hS.lastError h _ _)

/-! ## How far a batch gets -/

include hS in
theorem Locked.lockstep {schema : ArrowSchema} {w u w1 : Writer} (h : S w u)
    (hlock : Locked schema w w1) : ∃ u1, Locked schema u u1 ∧ S w1 u1 := by
  rcases hlock with ⟨hl, hn⟩ | ⟨nodes, leaves, hl, hf, hne⟩
  · refine ⟨u, .before ?_ ?_, h⟩
    · rw [(hS.schema h).locked, hl]
    · rw [(hS.schema h).topChildren, hn]
  · refine ⟨_, .now nodes leaves ?_ hf hne, hS.lock h schema nodes leaves⟩
    rw [(hS.schema h).locked, hl]

variable {X : External} {schema : Option ArrowSchema} {batch : Option ArrowArray} {w u t : Writer}
  {ps : List Bytes}

include hS in
/-- A batch stops both writers, at one place. -/
theorem StopsBatch.lockstep (h : S w u)
    (hstops : StopsBatch X schema batch w t ps) :
    ∃ t', StopsBatch X schema batch u t' ps ∧ S t t' := by
  rcases hstops with hargs | ⟨hargs, hlock, hf⟩ | ⟨hargs, hlock, hm, hf⟩
  · exact ⟨u, .arguments hargs, h⟩
  · refine ⟨u, .schema hargs ?_ ?_, h⟩
    · rintro u1 (⟨hl, hn⟩ | ⟨nodes, leaves, hl, hf, hne⟩)
      · rw [(hS.schema h).locked] at hl
        rw [(hS.schema h).topChildren] at hn
        exact hlock w (.before hl hn)
      · rw [(hS.schema h).locked] at hl
        exact hlock _ (.now nodes leaves hl hf hne)
    · rw [(hS.schema h).locked]
      exact hf
  · obtain ⟨u1, hlock', h1⟩ := Locked.lockstep hS h hlock
    rw [← (hS.settings h1).1, ← (hS.settings h1).2, ← (hS.schema h1).leaves] at hm ⊢
    exact ⟨u1, .leaf hargs hlock' hm hf, h1⟩

include hS in
/-- A batch builds on both writers, with one row group up to its place. -/
theorem BuildsBatch.lockstep (h : S w u) (hbuilds : BuildsBatch X schema batch w t ps) :
    ∃ t', BuildsBatch X schema batch u t' ps ∧ S t t' := by
  rcases hbuilds with ⟨hargs, hlock, hm⟩
  obtain ⟨u1, hlock', h1⟩ := Locked.lockstep hS h hlock
  have hrecord := hS.record h1
  rw [← (hS.settings h1).1, ← (hS.settings h1).2, ← (hS.schema h1).leaves] at hm ⊢
  exact ⟨_, .intro hargs hlock' hm, hrecord _ _⟩

/-! ## Runs -/

section Runs

variable {Q : N2PStatus → N2PStatus → Prop} (hrefl : ∀ status, Q status status)
  (hcommit : ∀ {w u}, S w u → Q w.commitStatus u.commitStatus)

include hS hrefl hcommit in
/-- One call, of any kind. -/
theorem lockstep_apply (X : External) (op : Op) {w u : Writer} (h : S w u) :
    Option.Rel (fun r r' => Q r.1 r'.1 ∧ S r.2 r'.2) (op.apply X w) (op.apply X u) := by
  cases op with
  | setCodec codec =>
    obtain ⟨hstatus, h⟩ := lockstep_setCodec hS codec h
    exact .some ⟨hstatus ▸ hrefl _, h⟩
  | setEncoding encoding =>
    obtain ⟨hstatus, h⟩ := lockstep_setEncoding hS encoding h
    exact .some ⟨hstatus ▸ hrefl _, h⟩
  | writeBatch schema batch =>
    have hcall := lockstep_writeBatch hS X schema (batch.map (·.array)) h
    simp only [Op.apply]
    generalize n2pWriterWriteBatch X w schema (batch.map (·.array)) = r at hcall
    generalize n2pWriterWriteBatch X u schema (batch.map (·.array)) = r' at hcall
    cases hcall with
    | undefined => exact .none
    | stopped _ h => exact .some ⟨hrefl _, h⟩
    | recorded h => exact .some ⟨hcommit h, h⟩

include hS hrefl hcommit in
/-- **Any run of calls on both writers.** -/
theorem lockstep_run (X : External) (ops : List Op) {w u : Writer} (h : S w u) :
    Option.Rel (fun r r' => List.Forall₂ Q r.1 r'.1 ∧ S r.2 r'.2) (run X w ops) (run X u ops) := by
  induction ops generalizing w u with
  | nil => exact .some ⟨.nil, h⟩
  | cons op ops ih =>
    have hop := lockstep_apply hS hrefl hcommit X op h
    rw [run, run]
    generalize op.apply X w = r at hop
    generalize op.apply X u = r' at hop
    cases hop with
    | none => exact .none
    | @some a b hab =>
      obtain ⟨hq, hab⟩ := hab
      have hrest := ih hab
      dsimp only
      generalize run X a.2 ops = q at hrest
      generalize run X b.2 ops = q' at hrest
      cases hrest with
      | none => exact .none
      | some h => exact .some ⟨.cons hq h.1, h.2⟩

end Runs

end Lockstep

end N2P
