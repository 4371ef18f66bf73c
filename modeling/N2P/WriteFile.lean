import N2P.Closing
import N2P.LockedSchema

/-!
# One-shot writes

`n2p_write_file` opens, writes one batch and closes; on an error it prints the writer's last error
into the caller's buffer and cleans up with `n2p_writer_close`, which finishes the file.

* `n2pWriteFile` — the status, what was printed, the stream that was left.
* `reports_writeOneBatch` — a refused batch has stored the text of its error.
* `FailsLoudly` — a failed call leaves no complete file, and the text of the step that failed.
* `failsLoudly_stops`, `failsLoudly_builds` — when it does, for a batch that stops and for one that
  builds; `failsLoudly_iff` for every call.
-/

namespace N2P

open Outcome

/-! ## The call -/

/-- The bytes of a text. -/
def utf8 (text : String) : Bytes := text.toByteArray.data.toList

/-- What a C string shows of a text: the bytes before its first NUL. -/
def cBytes (text : String) : Bytes := text.toByteArray.data.toList.takeWhile (· ≠ 0)

/-- `snprintf(err, err_len, "%s", text)`: what precedes the terminating NUL. -/
def snprintf (errLen : Nat) (text : String) : Bytes := (cBytes text).take (errLen - 1)

/-- What a call leaves behind: its status, what it printed into `err`, the writer it closed and
    the stream of that. -/
structure FileWritten where
  status : N2PStatus
  message : Option Bytes
  closed : Option (Writer × ByteSink)

/-- The lambda `fail`, on a writer: what is printed into a buffer of `err` bytes, when there is
    one. -/
def failMessage (err : Option Nat) (w : Writer) : Option Bytes :=
  match err with
  | none => none
  | some errLen => if errLen > 0 then some (snprintf errLen w.lastError) else none

/-- `n2p_write_file`, on the stream its path opens; `none` is undefined behaviour.  A null path
    makes no writer. -/
def n2pWriteFile (X : External) (sink : ByteSink) (path : Option String)
    (schema : Option ArrowSchema) (batch : Option ArrowArray) (err : Option Nat) :
    Option FileWritten :=
  match path with
  | none => some { status := .invalidArgument, message := none, closed := none }
  | some path =>
    let (status, w) := n2pWriterOpen sink path
    if status ≠ .ok then
      some { status, message := failMessage err w, closed := some (w, (n2pWriterClose X w).2) }
    else
      match n2pWriterWriteBatch X w schema batch with
      | none => none
      | some (status, w) =>
        let (closeStatus, out) := n2pWriterClose X w
        if status ≠ .ok then some { status, message := failMessage err w, closed := some (w, out) }
        else some { status := closeStatus, message := none, closed := some (w, out) }

/-! ## Messages -/

/-- A text that a C string shows something of. -/
def Speaks (text : String) : Prop := ∃ b bs, text.toByteArray.data.toList = b :: bs ∧ b ≠ 0

theorem Speaks.append {s : String} (h : Speaks s) (t : String) : Speaks (s ++ t) := by
  obtain ⟨b, bs, hs, hb⟩ := h
  refine ⟨b, bs ++ t.toByteArray.data.toList, ?_, hb⟩
  rw [String.toByteArray_append, ByteArray.data_append, Array.toList_append, hs]
  rfl

/-- A buffer of two bytes or more shows some of it. -/
theorem Speaks.snprintf_ne_nil {text : String} (h : Speaks text) (errLen : Nat) :
    snprintf errLen text ≠ [] ↔ 2 ≤ errLen := by
  obtain ⟨b, bs, hs, hb⟩ := h
  unfold snprintf cBytes
  rw [hs, List.takeWhile_cons_of_pos (by simpa using hb)]
  cases errLen with
  | zero => simp
  | succ n =>
    cases n with
    | zero => simp
    | succ n => simp

/-- **Every error has a text.** -/
theorem Refusal.speaks (why : Refusal) : Speaks why.text := by
  have column : Speaks "column '" := ⟨_, _, rfl, by decide⟩
  have fixed : Speaks "invalid fixed_size_binary width: " := ⟨_, _, rfl, by decide⟩
  have unsupported : Speaks "unsupported Arrow type format: " := ⟨_, _, rfl, by decide⟩
  have list : Speaks "list / map '" := ⟨_, _, rfl, by decide⟩
  have map : Speaks "map '" := ⟨_, _, rfl, by decide⟩
  have page : Speaks "page compression failed: " := ⟨_, _, rfl, by decide⟩
  have cannotOpen : Speaks "cannot open output file: " := ⟨_, _, rfl, by decide⟩
  cases why with
  | lengthMismatch name => exact (column.append _).append _
  | slicedColumn name => exact (column.append _).append _
  | nullsNotNullable name => exact (column.append _).append _
  | missingBuffers name => exact (column.append _).append _
  | shred name e => exact ((column.append _).append _).append _
  | fixedWidth format => exact fixed.append _
  | unsupportedFormat format => exact unsupported.append _
  | listChildren name => exact (list.append _).append _
  | mapEntries name => exact (map.append _).append _
  | pageFailure what => exact page.append _
  | cannotOpen path => exact cannotOpen.append _
  | _ => exact ⟨_, _, rfl, by decide⟩

/-- A step that stores the text of the error it is refused with. -/
def Reports {α : Type} (x : WriterM α) : Prop :=
  ∀ w w' status why, x w = .error (.refused status why) w' → w'.lastError = why.text

section Reports

variable {α β : Type}

theorem reports_of_ok {x : WriterM α} (h : ∀ w, ∃ a w', x w = .ok a w') : Reports x := by
  intro w w' status why hx
  obtain ⟨a, t, ht⟩ := h w
  rw [ht] at hx
  cases hx

theorem reports_pure (a : α) : Reports (pure a : WriterM α) := reports_of_ok fun w => ⟨a, w, rfl⟩

theorem reports_get : Reports (get : WriterM Writer) := reports_of_ok fun w => ⟨w, w, rfl⟩

theorem reports_modify (f : Writer → Writer) : Reports (modify f : WriterM Unit) :=
  reports_of_ok fun w => ⟨(), f w, rfl⟩

theorem reports_refuse (status : N2PStatus) (why : Refusal) :
    Reports (refuse status why : WriterM α) := by
  intro w w' status' why' hx
  rw [refuse_eq] at hx
  cases hx
  rfl

theorem reports_throw {e : Exit} (he : ∀ status why, e ≠ .refused status why) :
    Reports (throw e : WriterM α) := by
  intro w w' status why hx
  cases hx
  exact absurd rfl (he status why)

theorem reports_bind {x : WriterM α} {f : α → WriterM β} (hx : Reports x)
    (hf : ∀ a, Reports (f a)) : Reports (x >>= f) := by
  intro w w' status why h
  rcases seq_eq_error.mp h with h | ⟨a, t, _, h⟩
  · exact hx w w' status why h
  · exact hf a t w' status why h

theorem reports_streamOf (m : Emission Fault Bytes α) : Reports (streamOf m) := by
  intro w w' status why hx
  obtain ⟨f, _, hstop⟩ := streamOf_eq_error.mp hx
  cases f with
  | refused why =>
    cases hstop
    rfl
  | thrown what => cases hstop
  | undefined => cases hstop

theorem reports_raise (x : Except Fault α) : Reports (raise x) := by
  rw [← streamOf_lift]
  exact reports_streamOf _

theorem reports_writeLeaves (X : External) (leaves : List LeafSpec) (batch : ArrowArray)
    (rg : RowGroupMeta) : Reports (writeLeaves X leaves batch rg) := by
  intro w w' status why hx
  rw [writeLeaves_stream] at hx
  exact reports_streamOf _ w w' status why hx

theorem reports_lockSchema (sc : ArrowSchema) : Reports (lockSchema sc) := by
  unfold lockSchema
  refine reports_bind reports_get fun w => ?_
  split
  · split
    · exact reports_refuse _ _
    · exact reports_throw nofun
    · exact reports_throw nofun
    · split
      · exact reports_refuse _ _
      · exact reports_modify _
  · split
    · exact reports_refuse _ _
    · exact reports_pure _

/-- **A refused batch has stored the text of its error.** -/
theorem reports_writeOneBatch (X : External) (schema : Option ArrowSchema)
    (batch : Option ArrowArray) : Reports (writeOneBatch X schema batch) := by
  refine reports_bind (reports_raise _) fun args => reports_bind (reports_lockSchema _) fun _ => ?_
  refine reports_bind reports_get fun w => reports_bind (reports_writeLeaves _ _ _ _) fun rg => ?_
  refine reports_bind (reports_modify _) fun _ => reports_bind reports_get fun w => ?_
  split
  · exact reports_pure _
  · exact reports_refuse _ _

/-- The error of the step that a one-shot write stopped at. -/
inductive FailingStep (X : External) (sink : ByteSink) (path : String)
    (schema : Option ArrowSchema) (batch : Option ArrowArray) : Refusal → Prop where
  | opening (h : (n2pWriterOpen sink path).1 ≠ .ok) :
      FailingStep X sink path schema batch (.cannotOpen path)
  | refused {status : N2PStatus} {why : Refusal} {w : Writer}
      (h : writeOneBatch X schema batch (n2pWriterOpen sink path).2 =
        .error (.refused status why) w) :
      FailingStep X sink path schema batch why
  | thrown {what : String} {w : Writer}
      (h : writeOneBatch X schema batch (n2pWriterOpen sink path).2 = .error (.thrown what) w) :
      FailingStep X sink path schema batch (.pageFailure what)

/-- A failed call of `n2p_writer_write_batch` has stored the text of the step that failed. -/
theorem writeBatch_failingStep {X : External} {sink : ByteSink} {path : String} {w' : Writer}
    {schema : Option ArrowSchema} {batch : Option ArrowArray} {status : N2PStatus}
    (hopen : (n2pWriterOpen sink path).2.out.isOpen = true) (hs : status ≠ .ok)
    (h : n2pWriterWriteBatch X (n2pWriterOpen sink path).2 schema batch = some (status, w')) :
    ∃ why, FailingStep X sink path schema batch why ∧ w'.lastError = why.text := by
  unfold n2pWriterWriteBatch at h
  rw [if_pos hopen] at h
  cases hx : writeOneBatch X schema batch (n2pWriterOpen sink path).2 with
  | ok _ t =>
    rw [hx] at h
    cases h
    exact absurd rfl hs
  | error e t =>
    rw [hx] at h
    cases e with
    | undefined => cases h
    | thrown what =>
      cases h
      exact ⟨_, .thrown hx, rfl⟩
    | refused st why =>
      cases h
      exact ⟨why, .refused hx, reports_writeOneBatch X schema batch _ _ _ _ hx⟩

end Reports

/-! ## Failures -/

/-- The bytes that a one-shot write passes to `write_bytes` before it closes: all a device without
    an end takes. -/
def passedBatch (X : External) (path : String) (schema : Option ArrowSchema)
    (batch : Option ArrowArray) : Bytes :=
  match n2pWriterWriteBatch X (n2pWriterOpen (openedStream 0 none true) path).2 schema batch with
  | some (_, w) => w.out.content
  | none => []

/-- The buffer shows something of the text of the step that failed. -/
def Explains (X : External) (sink : ByteSink) (path : Option String) (schema : Option ArrowSchema)
    (batch : Option ArrowArray) (errLen : Nat) (message : Option Bytes) : Prop :=
  ∃ p why, path = some p ∧ FailingStep X sink p schema batch why ∧
    message = some (snprintf errLen why.text) ∧ snprintf errLen why.text ≠ []

/-- A failed call leaves no complete file, its own footer at the end, and explains itself in any
    buffer. -/
def FailsLoudly (X : External) (sink : ByteSink) (path : Option String)
    (schema : Option ArrowSchema) (batch : Option ArrowArray) (err : Option Nat) : Prop :=
  ∀ r, n2pWriteFile X sink path schema batch err = some r → r.status ≠ .ok →
    (∀ p w out, path = some p → r.closed = some (w, out) →
      ¬Complete X w (passedBatch X p schema batch) out.file) ∧
    ∀ errLen, err = some errLen → 0 < errLen →
      Explains X sink path schema batch errLen r.message

/-- A caller who passes no buffer, or an empty one. -/
def NoBuffer (err : Option Nat) : Prop := ∀ errLen, err = some errLen → errLen = 0

/-- The opened stream takes the magic and these pieces. -/
def StreamTakes (capacity : Nat) (room : Option Nat) (pieces : List Bytes) : Prop :=
  ((openedStream capacity room true).writeAll (kMagic :: pieces)).good = true

instance (capacity : Nat) (room : Option Nat) (pieces : List Bytes) :
    Decidable (StreamTakes capacity room pieces) :=
  inferInstanceAs (Decidable (_ = _))

/-- Footer, length and magic fit the device behind the bytes passed. -/
def FooterFits (X : External) (room : Option Nat) (bytes : Bytes) (w : Writer) : Prop :=
  ∃ tail, closingBytes X w = some tail ∧ ByteSink.Fits room (bytes ++ tail).length

section Failures

variable {X : External} {capacity : Nat} {room : Option Nat} {schema : Option ArrowSchema}
  {batch : Option ArrowArray} {err : Option Nat} {path : String}

/-- A step that failed, on a buffer that is not one byte long. -/
theorem explains_iff {sink : ByteSink} {w : Writer} {why : Refusal}
    (hstep : FailingStep X sink path schema batch why) (hw : w.lastError = why.text) :
    (∀ errLen, err = some errLen → 0 < errLen →
      Explains X sink (some path) schema batch errLen (failMessage err w)) ↔ err ≠ some 1 := by
  constructor
  · rintro hm rfl
    obtain ⟨p, why, _, _, _, hne⟩ := hm 1 rfl Nat.one_pos
    have := (why.speaks.snprintf_ne_nil 1).mp hne
    omega
  · rintro h1 errLen rfl hpos
    have hlen : errLen ≠ 1 := fun h => h1 (by rw [h])
    refine ⟨path, why, rfl, hstep, ?_, (why.speaks.snprintf_ne_nil errLen).mpr (by omega)⟩
    rw [← hw]
    exact if_pos hpos

theorem explains_none_iff {sink : ByteSink} {path : Option String} :
    (∀ errLen, err = some errLen → 0 < errLen →
      Explains X sink path schema batch errLen none) ↔ NoBuffer err := by
  unfold NoBuffer
  constructor
  · intro h errLen herr
    by_contra hne
    obtain ⟨_, _, _, _, hm, _⟩ := h errLen herr (by omega)
    cases hm
  · intro h errLen herr hpos
    have := h errLen herr
    omega

/-- What a failed call is asked for, of what it left. -/
theorem failsLoudly_of_eq {sink : ByteSink} {path : Option String} {r : FileWritten}
    (h : n2pWriteFile X sink path schema batch err = some r) :
    FailsLoudly X sink path schema batch err ↔
      (r.status ≠ .ok → (∀ p w out, path = some p → r.closed = some (w, out) →
          ¬Complete X w (passedBatch X p schema batch) out.file) ∧
        ∀ errLen, err = some errLen → 0 < errLen →
          Explains X sink path schema batch errLen r.message) := by
  unfold FailsLoudly
  rw [h]
  simp only [Option.some.injEq, forall_eq']

theorem failsLoudly_null (sink : ByteSink) :
    FailsLoudly X sink none schema batch err ↔ NoBuffer err := by
  rw [failsLoudly_of_eq rfl, explains_none_iff]
  simp

theorem not_complete_nil {w : Writer} {bytes : Bytes} : ¬Complete X w bytes [] := by
  rintro ⟨footer, _, _, _, h⟩
  have hlen := congrArg List.length h
  simp [kMagic] at hlen

theorem failsLoudly_unopened :
    FailsLoudly X (openedStream capacity room false) (some path) schema batch err ↔
      err ≠ some 1 := by
  have hstep : FailingStep X (openedStream capacity room false) path schema batch
      (.cannotOpen path) := .opening nofun
  have htext : (n2pWriterOpen (openedStream capacity room false) path).2.lastError =
      (Refusal.cannotOpen path).text := rfl
  rw [failsLoudly_of_eq rfl, ← explains_iff hstep htext]
  constructor
  · intro h
    exact (h nofun).2
  · intro h _
    refine ⟨?_, h⟩
    rintro p w out _ ⟨⟩
    exact not_complete_nil

/-- The file is complete exactly when its footer had room. -/
theorem complete_iff_fits {w u : Writer} (h : DeviceTwins capacity room w u) :
    Complete X w u.out.content (n2pWriterClose X w).2.file ↔
      FooterFits X room u.out.content w := by
  obtain ⟨hfile, hclose⟩ := close_spec (X := X) h
  constructor
  · rintro ⟨footer, hfooter, hlen, _, hcomplete⟩
    have htail : closingBytes X w = some (footer ++ leSize footer.length ++ kMagic) := by
      unfold closingBytes
      rw [hfooter]
      exact if_neg (by omega)
    refine ⟨_, htail, ?_⟩
    rw [hfile, htail, Option.getD_some] at hcomplete
    intro k hk
    subst hk
    have hcut := congrArg List.length hcomplete
    simp only [ByteSink.cut, List.length_take, List.length_append] at hcut ⊢
    omega
  · intro hfits
    exact complete_of_close h (hclose.mpr hfits)

theorem isOpen_opened : (n2pWriterOpen (openedStream capacity room true) path).2.out.isOpen = true :=
  ByteSink.isOpen_write _ _

/-- The bytes that a batch has passed by the time it stops, or builds. -/
theorem passedBatch_eq {ps : List Bytes}
    (h : (∃ t, StopsBatch X schema batch (n2pWriterOpen (openedStream capacity room true) path).2
        t ps) ∨
      ∃ t, BuildsBatch X schema batch (n2pWriterOpen (openedStream capacity room true) path).2
        t ps) :
    passedBatch X path schema batch = (kMagic :: ps).flatten := by
  have hS := lockstep_deviceTwins capacity room
  have htwins := deviceTwins_open capacity room path
  have hopen : (n2pWriterOpen (openedStream 0 none true) path).2.out =
      (ByteSink.fresh 0 none).writeAll [kMagic] := rfl
  have hfresh : (ByteSink.fresh 0 none).Unbounded := ⟨rfl, rfl, rfl⟩
  have hcontent : ((ByteSink.fresh 0 none).writeAll (kMagic :: ps)).content =
      (kMagic :: ps).flatten := (hfresh.writeAll _).2
  unfold passedBatch
  rcases h with ⟨t, ht⟩ | ⟨t, ht⟩
  · obtain ⟨u, hu, _⟩ := ht.lockstep hS htwins
    obtain ⟨status, msg, _, hx⟩ := writeBatch_stops rfl hu
    rw [hx, ← hcontent]
    show (u.out.writeAll ps).content = _
    rw [hu.out, hopen, ← ByteSink.writeAll_append]
    rfl
  · obtain ⟨u, hu, _⟩ := ht.lockstep hS htwins
    obtain ⟨msg, hx⟩ := writeBatch_builds rfl hu
    rw [hx, ← hcontent]
    show u.out.content = _
    rw [hu.out, hopen, ← ByteSink.writeAll_append]
    rfl

/-- What was passed is what the twin has accepted. -/
theorem passedBatch_twin {status : N2PStatus} {w : Writer}
    (h : n2pWriterWriteBatch X (n2pWriterOpen (openedStream capacity room true) path).2 schema
      batch = some (status, w)) :
    ∃ u, passedBatch X path schema batch = u.out.content ∧ DeviceTwins capacity room w u := by
  have htwins := twins_writeBatch X schema batch (by simp [ByteSink.fresh])
    (by simp [ByteSink.fresh]) (deviceTwins_open capacity room path)
  rw [h] at htwins
  unfold passedBatch
  generalize n2pWriterWriteBatch X (n2pWriterOpen (openedStream 0 none true) path).2 schema
    batch = r at htwins
  cases htwins with
  | @some _ b htwins => exact ⟨b.2, rfl, htwins⟩

/-- **A batch that stops**: its message needs two bytes, and its footer no room. -/
theorem failsLoudly_stops {t : Writer} {ps : List Bytes}
    (h : StopsBatch X schema batch (n2pWriterOpen (openedStream capacity room true) path).2 t ps) :
    FailsLoudly X (openedStream capacity room true) (some path) schema batch err ↔
      err ≠ some 1 ∧ ¬FooterFits X room (kMagic :: ps).flatten t := by
  have hopen : (n2pWriterOpen (openedStream capacity room true) path).1 = .ok := rfl
  obtain ⟨status, msg, hs, hx⟩ := writeBatch_stops isOpen_opened h
  obtain ⟨why, hstep, htext⟩ := writeBatch_failingStep isOpen_opened hs hx
  obtain ⟨u, hpassed, htwins⟩ := passedBatch_twin hx
  have hfits : FooterFits X room (kMagic :: ps).flatten t ↔
      Complete X { t.put ps with lastError := msg } (passedBatch X path schema batch)
        (n2pWriterClose X { t.put ps with lastError := msg }).2.file := by
    rw [← passedBatch_eq (.inl ⟨t, h⟩), hpassed]
    exact (complete_iff_fits htwins).symm
  rw [failsLoudly_of_eq (r := ⟨status, failMessage err { t.put ps with lastError := msg },
      some ({ t.put ps with lastError := msg },
        (n2pWriterClose X { t.put ps with lastError := msg }).2)⟩)
      (by simp [n2pWriteFile, hopen, hx, hs]), hfits]
  dsimp only
  rw [explains_iff hstep htext]
  constructor
  · intro hloud
    obtain ⟨hfile, herr⟩ := hloud hs
    exact ⟨herr, hfile path _ _ rfl rfl⟩
  · rintro ⟨herr, hfile⟩ _
    refine ⟨?_, herr⟩
    rintro _ _ _ ⟨⟩ ⟨⟩
    exact hfile

/-- **A batch that builds**: on a stream that took it all, what is left is its footer; on one that
    failed, its message. -/
theorem failsLoudly_builds {t : Writer} {ps : List Bytes}
    (h : BuildsBatch X schema batch (n2pWriterOpen (openedStream capacity room true) path).2 t ps) :
    FailsLoudly X (openedStream capacity room true) (some path) schema batch err ↔
      if StreamTakes capacity room ps then
        FooterFits X room (kMagic :: ps).flatten t ∨ NoBuffer err
      else err ≠ some 1 := by
  have hopen : (n2pWriterOpen (openedStream capacity room true) path).1 = .ok := rfl
  have htakes : StreamTakes capacity room ps ↔ t.out.good = true := by
    have hout : t.out = (openedStream capacity room true).writeAll (kMagic :: ps) := h.out
    unfold StreamTakes
    rw [hout]
  obtain ⟨msg, hx⟩ := writeBatch_builds isOpen_opened h
  obtain ⟨u, hpassed, htwins⟩ := passedBatch_twin hx
  have hcontent := passedBatch_eq (.inr ⟨t, h⟩)
  have hfits : FooterFits X room (kMagic :: ps).flatten t ↔
      Complete X { t with lastError := msg } (passedBatch X path schema batch)
        (n2pWriterClose X { t with lastError := msg }).2.file := by
    rw [← hcontent, hpassed]
    exact (complete_iff_fits htwins).symm
  by_cases hgood : t.out.good = true
  · have hs : t.commitStatus = .ok := if_pos hgood
    have hclose : FooterFits X room (kMagic :: ps).flatten t ↔
        (n2pWriterClose X { t with lastError := msg }).1 = .ok := by
      rw [← hcontent, hpassed]
      exact (close_spec htwins).2.symm
    rw [if_pos (htakes.mpr hgood), failsLoudly_of_eq
      (r := ⟨(n2pWriterClose X { t with lastError := msg }).1, none,
        some ({ t with lastError := msg }, (n2pWriterClose X { t with lastError := msg }).2)⟩)
      (by simp [n2pWriteFile, hopen, hx, hs])]
    dsimp only
    rw [explains_none_iff]
    constructor
    · intro hloud
      by_cases hroom : FooterFits X room (kMagic :: ps).flatten t
      · exact .inl hroom
      · exact .inr (hloud (mt hclose.mpr hroom)).2
    · intro hloud hs
      have hroom := mt hclose.mp hs
      refine ⟨?_, hloud.resolve_left hroom⟩
      rintro _ _ _ ⟨⟩ ⟨⟩
      exact mt hfits.mpr hroom
  · have hs : t.commitStatus = .ioError := if_neg hgood
    have hne : t.commitStatus ≠ .ok := by rw [hs]; simp
    obtain ⟨why, hstep, htext⟩ := writeBatch_failingStep isOpen_opened hne hx
    -- a stream that failed has no room left for what was passed, let alone a footer
    have hroom : ¬FooterFits X room (kMagic :: ps).flatten t := by
      rintro ⟨tail, _, htail⟩
      have hbad := (htwins.holds.bad (Bool.not_eq_true _ ▸ hgood)).2.1
      rw [← hpassed, hcontent] at hbad
      refine hbad fun k hk => ?_
      have := htail k hk
      rw [List.length_append] at this
      omega
    rw [if_neg (mt htakes.mp hgood), failsLoudly_of_eq (r := ⟨t.commitStatus,
      failMessage err { t with lastError := msg },
      some ({ t with lastError := msg }, (n2pWriterClose X { t with lastError := msg }).2)⟩)
      (by simp [n2pWriteFile, hopen, hx, hs])]
    dsimp only
    rw [explains_iff hstep htext]
    constructor
    · intro hloud
      exact (hloud hne).2
    · intro herr _
      refine ⟨?_, herr⟩
      rintro _ _ _ ⟨⟩ ⟨⟩
      exact mt hfits.mpr hroom

end Failures

/-- **A failed one-shot write is loud and leaves no complete file** exactly when: a null path meets
    no buffer; a path that cannot be opened meets no buffer of one byte; where the batch stops, at
    its arguments, its schema or a leaf, there is no buffer of one byte and no room for the footer
    of the rows before it; and where it builds, either the stream does not take its pages, and there
    is no buffer of one byte, or its footer has room, or there is no buffer. -/
theorem failsLoudly_iff (X : External) (capacity : Nat) (room : Option Nat) (opened : Bool)
    (path : Option String) (schema : Option ArrowSchema) (batch : Option ArrowArray)
    (err : Option Nat) :
    FailsLoudly X (openedStream capacity room opened) path schema batch err ↔
      (path = none → NoBuffer err) ∧
      ∀ p, path = some p →
        (opened = false → err ≠ some 1) ∧
        (opened = true →
          (∀ t ps, StopsBatch X schema batch
              (n2pWriterOpen (openedStream capacity room true) p).2 t ps →
            err ≠ some 1 ∧ ¬FooterFits X room (kMagic :: ps).flatten t) ∧
          ∀ t ps, BuildsBatch X schema batch
              (n2pWriterOpen (openedStream capacity room true) p).2 t ps →
            if StreamTakes capacity room ps then
              FooterFits X room (kMagic :: ps).flatten t ∨ NoBuffer err
            else err ≠ some 1) := by
  cases path with
  | none =>
    rw [failsLoudly_null]
    simp
  | some p =>
    simp only [reduceCtorEq, false_implies, true_and, Option.some.injEq, forall_eq']
    cases opened with
    | false =>
      rw [failsLoudly_unopened]
      simp
    | true =>
      simp only [Bool.true_eq_false, false_implies, true_and, true_implies]
      have hopen : (n2pWriterOpen (openedStream capacity room true) p).2.out.isOpen = true :=
        isOpen_opened
      cases h : n2pWriterWriteBatch X (n2pWriterOpen (openedStream capacity room true) p).2 schema
          batch with
      | none =>
        refine iff_of_true ?_ ⟨fun t ps ht => ?_, fun t ps ht => ?_⟩
        · intro r hr
          have hok : (n2pWriterOpen (openedStream capacity room true) p).1 = .ok := rfl
          simp [n2pWriteFile, hok, h] at hr
        · obtain ⟨_, _, _, hx⟩ := writeBatch_stops hopen ht
          rw [h] at hx
          cases hx
        · obtain ⟨_, hx⟩ := writeBatch_builds hopen ht
          rw [h] at hx
          cases hx
      | some r =>
        rcases writeBatch_course hopen h with ⟨t, ps, ht⟩ | ⟨t, ps, ht⟩
        · rw [failsLoudly_stops ht]
          constructor
          · intro hloud
            refine ⟨fun t' ps' ht' => ?_, fun t' ps' ht' => absurd ht ht'.not_stops⟩
            obtain ⟨rfl, rfl⟩ := ht.unique ht'
            exact hloud
          · intro hloud
            exact hloud.1 t ps ht
        · rw [failsLoudly_builds ht]
          constructor
          · intro hloud
            refine ⟨fun t' ps' ht' => absurd ht' ht.not_stops, fun t' ps' ht' => ?_⟩
            obtain ⟨rfl, rfl⟩ := ht.unique ht'
            exact hloud
          · intro hloud
            exact hloud.2 t ps ht

/-- A column of an unknown type. -/
def unknownColumn : ArrowSchema := oneColumn "tdD"

/-- **A column of an unknown type, and a null path**: the first leaves the file of an empty table,
    the second an unwritten buffer. -/
theorem not_failsLoudly_refused :
    ¬FailsLoudly External.reference (openedStream 8191 none true) (some "out.parquet")
      (some unknownColumn) (some twoRows) (some 256) ∧
    ¬FailsLoudly External.reference (openedStream 8191 none true) none (some unknownColumn)
      (some twoRows) (some 256) := by
  constructor
  · have hstops : StopsBatch External.reference (some unknownColumn) (some twoRows)
        (n2pWriterOpen (openedStream 8191 none true) "out.parquet").2
        (n2pWriterOpen (openedStream 8191 none true) "out.parquet").2 [] := by
      have hf : flattenColumns unknownColumn.children 0 ([], []) =
          .error (.refused (.unsupportedFormat "tdD")) := rfl
      refine @StopsBatch.schema _ _ _ _ unknownColumn twoRows rfl ?_ (.inr (by rw [hf]; simp))
      rintro w1 (⟨hl, _⟩ | ⟨_, _, _, hok, _⟩)
      · cases hl
      · rw [hf] at hok
        cases hok
    have htail : (closingBytes External.reference
        (n2pWriterOpen (openedStream 8191 none true) "out.parquet").2).isSome = true := by
      decide +kernel
    obtain ⟨tail, htail⟩ := Option.isSome_iff_exists.mp htail
    rw [failsLoudly_stops hstops]
    rintro ⟨_, hnot⟩
    exact hnot ⟨tail, htail, nofun⟩
  · rw [failsLoudly_null]
    intro h
    cases h 256 rfl

end N2P
