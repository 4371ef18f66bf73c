import N2P.SoaBounds

/-!
# Runs of the columnar front-end

The calls a caller may make on a `Writer` after its constructor, one after the other.

* `applyCall`, `runCalls` — one call, and a sequence of calls.
* `runCalls_invariant` — what every call preserves holds after every run.
* `applyCall_cases` — what a call does to the handle it is made on.
-/

namespace N2P.Soa

/-- A call of a member function. -/
inductive Call (S : Schema) where
  | setCodec (codec : Int)
  | setEncoding (encoding : Int)
  | writeChunk (cols : Columns S.fields)
  | close

/-- The writer, and, once it is closed, the handle it held and the stream that was left. -/
structure CallState (S : Schema) where
  self : SoaWriter S
  closed : Option (Writer × ByteSink) := none

instance (accesses : List Access) : Decidable (AllInBounds accesses) :=
  inferInstanceAs (Decidable (∀ a ∈ accesses, a.index < a.size))

/-- `set_codec`.  A closed writer passes on a null handle. -/
def setCodec {S : Schema} (self : SoaWriter S) (codec : Int) : N2PStatus × SoaWriter S :=
  match self.w with
  | none => (.invalidArgument, self)
  | some w =>
    let (status, w) := n2pWriterSetCodec w codec
    (status, { self with w := some w })

/-- `set_encoding`. -/
def setEncoding {S : Schema} (self : SoaWriter S) (encoding : Int) : N2PStatus × SoaWriter S :=
  match self.w with
  | none => (.invalidArgument, self)
  | some w =>
    let (status, w) := n2pWriterSetEncoding w encoding
    (status, { self with w := some w })

/-- One call; `none` is undefined behaviour, also of an index out of bounds. -/
def applyCall (X : External) {S : Schema} (st : CallState S) :
    Call S → Option (N2PStatus × CallState S)
  | .setCodec codec =>
    let (status, self) := setCodec st.self codec
    some (status, { st with self })
  | .setEncoding encoding =>
    let (status, self) := setEncoding st.self encoding
    some (status, { st with self })
  | .writeChunk cols =>
    let call := writeChunk X st.self cols
    if AllInBounds call.accesses then
      call.result.map fun (status, self) => (status, { st with self })
    else none
  | .close =>
    let (status, self) := close X st.self
    let closed :=
      match st.self.w with
      | none => st.closed
      | some w => some (w, (n2pWriterClose X w).2)
    some (status, { self, closed })

/-- A sequence of calls: the status of each, and the state afterwards. -/
def runCalls (X : External) {S : Schema} (st : CallState S) :
    List (Call S) → Option (List N2PStatus × CallState S)
  | [] => some ([], st)
  | call :: calls =>
    match applyCall X st call with
    | none => none
    | some (status, st) => (runCalls X st calls).map fun r => (status :: r.1, r.2)

section Runs

variable {X : External} {S : Schema} {st st' : CallState S}

theorem runCalls_cons {call : Call S} {calls : List (Call S)} {statuses : List N2PStatus} :
    runCalls X st (call :: calls) = some (statuses, st') ↔
      ∃ status st1 rest, applyCall X st call = some (status, st1) ∧
        runCalls X st1 calls = some (rest, st') ∧ statuses = status :: rest := by
  rw [runCalls]
  cases h : applyCall X st call with
  | none => simp
  | some r =>
    obtain ⟨status, st1⟩ := r
    simp only [Option.map_eq_some_iff, Option.some.injEq, Prod.mk.injEq]
    constructor
    · rintro ⟨⟨rest, st2⟩, hr, rfl, rfl⟩
      exact ⟨status, st1, rest, ⟨rfl, rfl⟩, hr, rfl⟩
    · rintro ⟨_, _, rest, ⟨rfl, rfl⟩, hr, rfl⟩
      exact ⟨(rest, st'), hr, rfl, rfl⟩

/-- **What every call preserves holds after every run.** -/
theorem runCalls_invariant {P : CallState S → Prop} {calls : List (Call S)}
    {statuses : List N2PStatus}
    (hstep : ∀ (call : Call S) st status st', P st → applyCall X st call = some (status, st') → P st')
    (h : P st) (hrun : runCalls X st calls = some (statuses, st')) : P st' := by
  induction calls generalizing st statuses with
  | nil =>
    cases hrun
    exact h
  | cons call calls ih =>
    obtain ⟨status, st1, rest, hcall, hrest, rfl⟩ := runCalls_cons.mp hrun
    exact ih (hstep call st status st1 h hcall) hrest

/-- What a call does: nothing but return a status, a call of the C API on the open handle, a
    refusal of a chunk, or the close. -/
inductive Did (X : External) (st : CallState S) : Call S → N2PStatus → CallState S → Prop where
  /-- A closed writer, which returns its status, or refuses a setting. -/
  | nothing (call : Call S) (status : N2PStatus) (hw : st.self.w = none)
      (hs : status = st.self.status ∨ status = .invalidArgument) : Did X st call status st
  | setting (call : Call S) (w w' : Writer) (status : N2PStatus) (hw : st.self.w = some w)
      (hne : call ≠ .close)
      (h : (∃ codec, n2pWriterSetCodec w codec = (status, w')) ∨
        ∃ encoding, n2pWriterSetEncoding w encoding = (status, w')) :
      Did X st call status { st with self := { st.self with w := some w' } }
  | refused (cols : Columns S.fields) (w : Writer) (hw : st.self.w = some w) :
      Did X st (.writeChunk cols) .invalidArgument
        { st with self := { st.self with status := .invalidArgument } }
  | wrote (cols : Columns S.fields) (w w' : Writer) (status : N2PStatus)
      (hw : st.self.w = some w)
      (h : n2pWriterWriteBatch X w (some (chunkNode cols).schema) (some (chunkNode cols).array) =
        some (status, w')) :
      Did X st (.writeChunk cols) status { st with self := { w := some w', status } }
  | close (w : Writer) (hw : st.self.w = some w) :
      Did X st .close (n2pWriterClose X w).1
        { self :=
            { w := none
              status :=
                if st.self.status = .ok then (n2pWriterClose X w).1 else st.self.status }
          closed := some (w, (n2pWriterClose X w).2) }

/-- **What a call comes to.** -/
theorem applyCall_cases {call : Call S} {status : N2PStatus}
    (h : applyCall X st call = some (status, st')) : Did X st call status st' := by
  obtain ⟨⟨handle, stored⟩, closed⟩ := st
  cases call with
  | setCodec codec =>
    cases handle with
    | none => cases h; exact .nothing _ _ rfl (.inr rfl)
    | some w => cases h; exact .setting _ w _ _ rfl nofun (.inl ⟨codec, rfl⟩)
  | setEncoding encoding =>
    cases handle with
    | none => cases h; exact .nothing _ _ rfl (.inr rfl)
    | some w => cases h; exact .setting _ w _ _ rfl nofun (.inr ⟨encoding, rfl⟩)
  | close =>
    cases handle with
    | none => cases h; exact .nothing _ _ rfl (.inl rfl)
    | some w => cases h; exact .close w rfl
  | writeChunk cols =>
    simp only [applyCall] at h
    split at h
    · obtain ⟨⟨status', self'⟩, hcall, heq⟩ := Option.map_eq_some_iff.mp h
      cases heq
      cases handle with
      | none => cases hcall; exact .nothing _ _ rfl (.inl rfl)
      | some w =>
        by_cases hshape : Misshapen cols
        · rw [writeChunk_misshapen rfl hshape] at hcall
          cases hcall
          exact .refused cols w rfl
        · rw [writeChunk_handed rfl (handedBatch_open rfl hshape)] at hcall
          obtain ⟨⟨status', w'⟩, hbatch, heq⟩ := Option.map_eq_some_iff.mp hcall
          cases heq
          exact .wrote cols w w' _ rfl hbatch
    · cases h

end Runs

end N2P.Soa
