import N2P.Twins
import N2P.SoaRuns

/-!
# Closing a file

`n2p_writer_close` reports `N2P_OK` before it looks at anything, and keeps it when the stream was
never opened.

* `passed` — the bytes a run passes to `write_bytes`, whatever the device does with them.
* `close_spec` — the file that a close leaves, and when it reports success, on a device of any size.
* `Complete` — the leading magic, the bytes passed, one footer, its length, the trailing magic.
* `closeTruthful_iff` — success is reported of complete files only exactly when the file was
  opened; `soa::Writer` does not report it a second time.
-/

namespace N2P

/-! ## Devices -/

/-- The stream after `open`, on a device with `room` bytes, whether the path could be opened. -/
def openedStream (capacity : Nat) (room : Option Nat) (opened : Bool) : ByteSink :=
  { ByteSink.fresh capacity room with good := opened, isOpen := opened }

/-- The bytes that opening and some calls pass to `write_bytes`: all a device without an end
    takes. -/
def passed (X : External) (opened : Bool) (path : String) (ops : List Op) : Bytes :=
  match run X (n2pWriterOpen (openedStream 0 none opened) path).2 ops with
  | some (_, w) => w.out.content
  | none => []

/-- What a close writes behind the pages, when the footer can be written. -/
def closingBytes (X : External) (w : Writer) : Option Bytes :=
  match serializeFooter X w with
  | .error _ => none
  | .ok footer =>
    if footer.length > UINT32_MAX then none else some (footer ++ leSize footer.length ++ kMagic)

/-- The file is the leading magic, the bytes passed, a footer, its length, the trailing magic. -/
def Complete (X : External) (w : Writer) (bytes file : Bytes) : Prop :=
  ∃ footer, serializeFooter X w = .ok footer ∧ footer.length ≤ UINT32_MAX ∧ kMagic <+: bytes ∧
    file = bytes ++ footer ++ leSize footer.length ++ kMagic

/-- Twins of which one has a device without an end. -/
abbrev DeviceTwins (capacity : Nat) (room : Option Nat) : Writer → Writer → Prop :=
  Twins ((ByteSink.fresh capacity room).write kMagic) ((ByteSink.fresh 0 none).write kMagic)

theorem lockstep_deviceTwins (capacity : Nat) (room : Option Nat) :
    Lockstep (DeviceTwins capacity room) :=
  lockstep_twins (by simp [ByteSink.fresh]) (by simp [ByteSink.fresh])

theorem deviceTwins_open (capacity : Nat) (room : Option Nat) (path : String) :
    DeviceTwins capacity room (n2pWriterOpen (openedStream capacity room true) path).2
      (n2pWriterOpen (openedStream 0 none true) path).2 :=
  ⟨rfl, [], "", rfl, rfl⟩

section Close

variable {X : External} {capacity : Nat} {room : Option Nat} {w u : Writer}

/-- The twin has accepted all that was passed, from the magic on. -/
theorem DeviceTwins.content (h : DeviceTwins capacity room w u) :
    ∃ pieces, w.out = (ByteSink.fresh capacity room).writeAll (kMagic :: pieces) ∧
      u.out.content = (kMagic :: pieces).flatten := by
  obtain ⟨_, ps, msg, hw, rfl⟩ := h
  have hfresh : (ByteSink.fresh 0 none).Unbounded := ⟨rfl, rfl, rfl⟩
  exact ⟨ps, hw, (hfresh.writeAll (kMagic :: ps)).2⟩

theorem DeviceTwins.magic (h : DeviceTwins capacity room w u) : kMagic <+: u.out.content := by
  obtain ⟨ps, _, hcontent⟩ := h.content
  rw [hcontent, List.flatten_cons]
  exact List.prefix_append _ _

/-- The device holds what it can of all that was passed. -/
theorem DeviceTwins.holds (h : DeviceTwins capacity room w u) :
    ByteSink.Holds room u.out.content w.out := by
  obtain ⟨ps, hw, hcontent⟩ := h.content
  rw [hcontent, hw]
  exact ByteSink.holds_writeAll capacity room _

/-- The same after the writes of a close. -/
theorem DeviceTwins.holds_footer (h : DeviceTwins capacity room w u) (footer : Bytes) :
    ByteSink.Holds room (u.out.content ++ (footer ++ leSize footer.length ++ kMagic))
      ((footerTail footer).foldl ByteSink.write w.out) := by
  obtain ⟨ps, hw, hcontent⟩ := h.content
  have hwrites : (footerTail footer).foldl ByteSink.write w.out =
      (ByteSink.fresh capacity room).writeAll ((kMagic :: ps) ++ footerTail footer) := by
    rw [ByteSink.writeAll_append, ← hw]
    rfl
  have htail : (footerTail footer).flatten = footer ++ leSize footer.length ++ kMagic := by
    simp [footerTail]
  rw [hwrites, hcontent, ← htail, ← List.flatten_append]
  exact ByteSink.holds_writeAll capacity room _

/-- **What a close comes to**, on a device of any size. -/
theorem close_spec (h : DeviceTwins capacity room w u) :
    (n2pWriterClose X w).2.file =
        ByteSink.cut room (u.out.content ++ (closingBytes X w).getD []) ∧
      ((n2pWriterClose X w).1 = .ok ↔
        ∃ tail, closingBytes X w = some tail ∧
          ByteSink.Fits room (u.out.content ++ tail).length) := by
  have hopen : w.out.isOpen = true := by
    obtain ⟨_, hw, _⟩ := h.content
    rw [hw, ByteSink.isOpen_writeAll]
    rfl
  have hguard : w.out.isOpen = true ∧ (!w.footerWritten) = true := ⟨hopen, by rw [h.1]; rfl⟩
  unfold n2pWriterClose closingBytes
  rw [if_pos hguard]
  cases hfooter : serializeFooter X w with
  | error e =>
    refine ⟨?_, ?_⟩
    · rw [Option.getD_none, List.append_nil]
      exact h.holds.file_close
    · refine iff_of_false ?_ nofun
      dsimp only
      split <;> simp
  | ok footer =>
    dsimp only
    by_cases hlong : footer.length > UINT32_MAX
    · rw [if_pos hlong, if_pos hlong]
      refine ⟨?_, ?_⟩
      · rw [Option.getD_none, List.append_nil]
        exact h.holds.file_close
      · refine iff_of_false ?_ nofun
        dsimp only
        split <;> simp
    · rw [if_neg hlong, if_neg hlong]
      have hall := h.holds_footer footer
      refine ⟨hall.file_close, ?_⟩
      have hgood := hall.good_flush
      constructor
      · intro hok
        refine ⟨_, rfl, hgood.mp ?_⟩
        by_contra hbad
        dsimp only at hok
        rw [if_neg hbad] at hok
        cases hok
      · rintro ⟨tail, ⟨rfl⟩, hfits⟩
        dsimp only
        rw [if_pos (hgood.mpr hfits)]

/-- A close that reports success has completed the file. -/
theorem complete_of_close (h : DeviceTwins capacity room w u)
    (hok : (n2pWriterClose X w).1 = .ok) :
    Complete X w u.out.content (n2pWriterClose X w).2.file := by
  obtain ⟨hfile, hiff⟩ := close_spec (X := X) h
  obtain ⟨tail, htail, hfits⟩ := hiff.mp hok
  rw [hfile, htail]
  unfold closingBytes at htail
  split at htail
  · cases htail
  · rename_i footer hfooter
    split at htail
    · cases htail
    · rename_i hlen
      cases htail
      refine ⟨footer, hfooter, by omega, h.magic, ?_⟩
      have hcut : ∀ bs : Bytes, ByteSink.Fits room bs.length → ByteSink.cut room bs = bs := by
        intro bs hbs
        cases room with
        | none => rfl
        | some k => exact List.take_of_length_le (hbs k rfl)
      rw [Option.getD_some, hcut _ hfits]
      simp

end Close

/-! ## The C functions -/

section Runs

variable {X : External}

@[simp] theorem out_setCodec (w : Writer) (codec : Int) :
    (n2pWriterSetCodec w codec).2.out = w.out := by
  unfold n2pWriterSetCodec
  split
  · rfl
  split <;> rfl

@[simp] theorem out_setEncoding (w : Writer) (encoding : Int) :
    (n2pWriterSetEncoding w encoding).2.out = w.out := by
  unfold n2pWriterSetEncoding
  split <;> rfl

theorem writeBatch_notOpen {w : Writer} (h : w.out.isOpen = false) (schema : Option ArrowSchema)
    (batch : Option ArrowArray) :
    n2pWriterWriteBatch X w schema batch =
      some (.ioError, { w with lastError := Refusal.notOpen.text }) := by
  unfold n2pWriterWriteBatch
  rw [if_neg (by simp [h])]

/-- On a stream that is not open every run is defined, and none touches the stream. -/
theorem run_notOpen {w : Writer} (h : w.out.isOpen = false) (ops : List Op) :
    ∃ statuses w', run X w ops = some (statuses, w') ∧ w'.out = w.out := by
  induction ops generalizing w with
  | nil => exact ⟨[], w, rfl, rfl⟩
  | cons op ops ih =>
    obtain ⟨status, w1, hop, hout⟩ : ∃ status w1, op.apply X w = some (status, w1) ∧
        w1.out = w.out := by
      cases op with
      | setCodec codec => exact ⟨_, _, rfl, out_setCodec w codec⟩
      | setEncoding encoding => exact ⟨_, _, rfl, out_setEncoding w encoding⟩
      | writeBatch schema batch => exact ⟨_, _, writeBatch_notOpen h schema _, rfl⟩
    obtain ⟨statuses, w', hrun, hout'⟩ := ih (hout ▸ h)
    refine ⟨status :: statuses, w', ?_, hout'.trans hout⟩
    rw [run, hop]
    simp [hrun]

/-- A close of such a stream succeeds, and an empty file is complete of nothing. -/
theorem not_complete_notOpen {w : Writer} {capacity : Nat} {room : Option Nat}
    (h : w.out = openedStream capacity room false) (bytes : Bytes) :
    (n2pWriterClose X w).1 = .ok ∧ ¬Complete X w bytes (n2pWriterClose X w).2.file := by
  have hclose : n2pWriterClose X w = (.ok, w.out) := by
    unfold n2pWriterClose
    rw [h]
    rfl
  rw [hclose]
  refine ⟨rfl, ?_⟩
  rintro ⟨footer, _, _, _, hfile⟩
  have hlen := congrArg List.length hfile
  rw [h] at hlen
  simp [openedStream, ByteSink.fresh, kMagic] at hlen

/-- After the calls, a close that returns `N2P_OK` has completed the file. -/
def CloseTruthful (X : External) (capacity : Nat) (room : Option Nat) (opened : Bool)
    (path : String) (ops : List Op) : Prop :=
  ∀ statuses w, run X (n2pWriterOpen (openedStream capacity room opened) path).2 ops =
      some (statuses, w) →
    (n2pWriterClose X w).1 = .ok →
    Complete X w (passed X opened path ops) (n2pWriterClose X w).2.file

theorem cClose_iff {capacity : Nat} {room : Option Nat} {opened : Bool} {path : String}
    {ops : List Op} : CloseTruthful X capacity room opened path ops ↔ opened = true := by
  constructor
  · intro h
    by_contra hclosed
    have hclosed : opened = false := by simpa using hclosed
    subst hclosed
    obtain ⟨statuses, w, hrun, hout⟩ :=
      run_notOpen (X := X) (w := (n2pWriterOpen (openedStream capacity room false) path).2) rfl ops
    obtain ⟨hok, hnot⟩ := not_complete_notOpen (X := X) hout (passed X false path ops)
    exact hnot (h statuses w hrun hok)
  · rintro rfl statuses w hrun hok
    have htwins := twins_run X (by simp [ByteSink.fresh]) (by simp [ByteSink.fresh]) ops
      (deviceTwins_open capacity room path)
    unfold passed
    rw [hrun] at htwins
    generalize run X (n2pWriterOpen (openedStream 0 none true) path).2 ops = r at htwins ⊢
    cases htwins with
    | some htwins => exact complete_of_close htwins hok

end Runs

/-! ## The columnar front-end -/

namespace Soa

/-- The handle that is held, or that was closed. -/
def CallState.handle {S : Schema} (st : CallState S) : Option Writer :=
  st.self.w <|> st.closed.map (·.1)

/-- The bytes that the constructor and some calls pass to `write_bytes` before they close. -/
def passedChunks (X : External) {S : Schema} (opened : Bool) (path : String)
    (calls : List (Call S)) : Bytes :=
  match runCalls X { self := openWriter S (openedStream 0 none opened) path } calls with
  | some (_, st) => (st.handle.map (·.out.content)).getD []
  | none => []

/-- After the calls, a close that returns `N2P_OK` has completed the file, or finds it complete. -/
def CloseTruthful (X : External) {S : Schema} (capacity : Nat) (room : Option Nat) (opened : Bool)
    (path : String) (calls : List (Call S)) : Prop :=
  ∀ statuses st st', runCalls X { self := openWriter S (openedStream capacity room opened) path }
      calls = some (statuses, st) →
    applyCall X st .close = some (.ok, st') →
    ∃ w out, st'.closed = some (w, out) ∧
      Complete X w (passedChunks X opened path calls) out.file

/-- One state on two devices.  Once closed, the stored status is good only if the close was. -/
inductive CallTwins (X : External) {S : Schema} (capacity : Nat) (room : Option Nat) :
    CallState S → CallState S → Prop where
  | held {w u : Writer} {status status' : N2PStatus} (h : DeviceTwins capacity room w u) :
      CallTwins X capacity room { self := ⟨some w, status⟩ } { self := ⟨some u, status'⟩ }
  | closed {w u : Writer} {status status' : N2PStatus} {out' : ByteSink}
      (h : DeviceTwins capacity room w u) (hs : status = .ok → (n2pWriterClose X w).1 = .ok) :
      CallTwins X capacity room
        { self := ⟨none, status⟩, closed := some (w, (n2pWriterClose X w).2) }
        { self := ⟨none, status'⟩, closed := some (u, out') }

section Calls

variable {X : External} {S : Schema} {capacity : Nat} {room : Option Nat}

/-- **Every call keeps the twins**, or is undefined for both. -/
theorem callTwins_apply {st tw : CallState S} (h : CallTwins X capacity room st tw)
    (call : Call S) :
    Option.Rel (fun r r' => CallTwins X capacity room r.2 r'.2) (applyCall X st call)
      (applyCall X tw call) := by
  cases h with
  | closed h hs =>
    cases call with
    | setCodec codec => exact .some (.closed h hs)
    | setEncoding encoding => exact .some (.closed h hs)
    | writeChunk cols =>
      simp only [applyCall, writeChunk]
      exact .some (.closed h hs)
    | close => exact .some (.closed h hs)
  | @held w u status status' h =>
    cases call with
    | setCodec codec =>
      exact .some (.held (lockstep_setCodec (lockstep_deviceTwins capacity room) codec h).2)
    | setEncoding encoding =>
      exact .some (.held (lockstep_setEncoding (lockstep_deviceTwins capacity room) encoding h).2)
    | close =>
      refine .some (.closed h fun hok => ?_)
      dsimp only at hok
      split at hok
      · exact hok
      · rename_i hne
        exact absurd hok hne
    | writeChunk cols =>
      have hacc : ∀ self : SoaWriter S, self.w.isSome →
          (writeChunk X self cols).accesses = (chunkNode cols).accesses := by
        rintro ⟨_ | w, status⟩ hw
        · cases hw
        · rfl
      simp only [applyCall, hacc ⟨some w, status⟩ rfl, hacc ⟨some u, status'⟩ rfl]
      split
      · by_cases hshape : Misshapen cols
        · rw [writeChunk_misshapen rfl hshape, writeChunk_misshapen rfl hshape]
          exact .some (.held h)
        · rw [writeChunk_handed rfl (handedBatch_open rfl hshape),
            writeChunk_handed rfl (handedBatch_open rfl hshape)]
          have hbatch := twins_writeBatch X (some (chunkNode cols).schema)
            (some (chunkNode cols).array) (by simp [ByteSink.fresh]) (by simp [ByteSink.fresh]) h
          generalize n2pWriterWriteBatch X w _ _ = r at hbatch
          generalize n2pWriterWriteBatch X u _ _ = r' at hbatch
          cases hbatch with
          | none => exact .none
          | some h => exact .some (.held h)
      · exact .none

theorem callTwins_run {st tw : CallState S} (h : CallTwins X capacity room st tw)
    (calls : List (Call S)) :
    Option.Rel (fun r r' => CallTwins X capacity room r.2 r'.2) (runCalls X st calls)
      (runCalls X tw calls) := by
  induction calls generalizing st tw with
  | nil => exact .some h
  | cons call calls ih =>
    have hcall := callTwins_apply h call
    rw [runCalls, runCalls]
    generalize applyCall X st call = r at hcall
    generalize applyCall X tw call = r' at hcall
    cases hcall with
    | none => exact .none
    | @some a b htwins =>
      have hrest := ih htwins
      dsimp only
      generalize runCalls X a.2 calls = q at hrest
      generalize runCalls X b.2 calls = q' at hrest
      cases hrest with
      | none => exact .none
      | some h => exact .some h

/-- A writer whose file was never opened: its stored status refuses for good. -/
structure NeverOpened (capacity : Nat) (room : Option Nat) (st : CallState S) : Prop where
  status : st.self.status ≠ .ok
  stream : ∀ w, st.self.w = some w → w.out = openedStream capacity room false

theorem neverOpened_apply {call : Call S} {st st' : CallState S} {status : N2PStatus}
    (h : NeverOpened capacity room st)
    (hcall : applyCall X st call = some (status, st')) :
    NeverOpened capacity room st' := by
  rcases applyCall_cases hcall with
    ⟨_, _, hw, _⟩ | ⟨_, w, w', _, hw, _, hset⟩ | ⟨cols, w, hw⟩ |
    ⟨cols, w, w', _, hw, hbatch⟩ | ⟨w, hw⟩
  · exact h
  · refine ⟨h.status, ?_⟩
    rintro _ ⟨rfl⟩
    rw [← h.stream w hw]
    rcases hset with ⟨codec, hset⟩ | ⟨encoding, hset⟩
    · rw [← out_setCodec w codec, hset]
    · rw [← out_setEncoding w encoding, hset]
  · exact ⟨by simp, h.stream⟩
  · have hout := h.stream w hw
    rw [writeBatch_notOpen (by rw [hout]; rfl)] at hbatch
    cases hbatch
    refine ⟨by simp, ?_⟩
    rintro _ ⟨rfl⟩
    exact hout
  · refine ⟨?_, nofun⟩
    dsimp only
    rw [if_neg h.status]
    exact h.status

/-- The handle is gone exactly after a close. -/
theorem handle_apply {call : Call S} {st st' : CallState S} {status : N2PStatus}
    (hcall : applyCall X st call = some (status, st')) :
    st'.self.w = none ↔ st.self.w = none ∨ call = .close := by
  rcases applyCall_cases hcall with
    ⟨_, _, hw, _⟩ | ⟨_, w, w', _, hw, hne, _⟩ | ⟨cols, w, hw⟩ | ⟨cols, w, w', _, hw, _⟩ | ⟨w, hw⟩
  · simp [hw]
  · simp [hw, hne]
  · simp [hw]
  · simp [hw]
  · simp

theorem handle_run {st st' : CallState S} {calls : List (Call S)} {statuses : List N2PStatus}
    (hrun : runCalls X st calls = some (statuses, st')) :
    st'.self.w = none ↔ st.self.w = none ∨ .close ∈ calls := by
  induction calls generalizing st statuses with
  | nil =>
    cases hrun
    simp
  | cons call calls ih =>
    obtain ⟨status, st1, rest, hcall, hrest, rfl⟩ := runCalls_cons.mp hrun
    rw [ih hrest, handle_apply hcall, List.mem_cons, or_assoc, @eq_comm _ call]

/-- A close of a writer whose open succeeded tells the truth. -/
theorem soaClose_opened (X : External) (capacity : Nat) (room : Option Nat) (path : String)
    (calls : List (Call S)) : CloseTruthful X capacity room true path calls := by
  intro statuses st st' hrun hclose
  have hopen : CallTwins X capacity room
      { self := openWriter S (openedStream capacity room true) path }
      { self := openWriter S (openedStream 0 none true) path } :=
    .held (deviceTwins_open capacity room path)
  have htwins := callTwins_run hopen calls
  unfold passedChunks
  rw [hrun] at htwins
  generalize runCalls X { self := openWriter S (openedStream 0 none true) path } calls = r
    at htwins ⊢
  cases htwins with
  | @some _ b htwins =>
    obtain ⟨statuses', tw⟩ := b
    cases htwins with
    | @held w u _ _ h =>
      simp only [applyCall, close, Option.some.injEq, Prod.mk.injEq] at hclose
      obtain ⟨hok, rfl⟩ := hclose
      exact ⟨w, _, rfl, complete_of_close h hok⟩
    | @closed w u _ _ out' h hs =>
      simp only [applyCall, close, Option.some.injEq, Prod.mk.injEq] at hclose
      obtain ⟨hok, rfl⟩ := hclose
      exact ⟨w, _, rfl, complete_of_close h (hs hok)⟩

/-- A close after an open that failed lies, unless an earlier close has reported the failure. -/
theorem soaClose_unopened (X : External) (capacity : Nat) (room : Option Nat) (path : String)
    (calls : List (Call S)) : CloseTruthful X capacity room false path calls ↔
      .close ∈ calls ∨
        runCalls X { self := openWriter S (openedStream capacity room false) path } calls = none := by
  have hfresh : NeverOpened capacity room
      ({ self := openWriter S (openedStream capacity room false) path } : CallState S) := by
    refine ⟨by simp [openWriter, n2pWriterOpen, openedStream], ?_⟩
    rintro _ ⟨rfl⟩
    rfl
  cases hrun : runCalls X { self := openWriter S (openedStream capacity room false) path } calls with
  | none => exact iff_of_true (fun _ _ _ h => by rw [hrun] at h; cases h) (.inr rfl)
  | some r =>
    obtain ⟨statuses, st⟩ := r
    have hnever := runCalls_invariant (P := NeverOpened capacity room)
      (fun _ _ _ _ => neverOpened_apply) hfresh hrun
    have hhandle := handle_run hrun
    rw [or_iff_right (by simp [openWriter])] at hhandle
    simp only [reduceCtorEq, or_false]
    rw [← hhandle]
    constructor
    · intro h
      by_contra hheld
      obtain ⟨w, hw⟩ := Option.ne_none_iff_exists'.mp hheld
      obtain ⟨hok, hnot⟩ := not_complete_notOpen (X := X) (hnever.stream w hw)
        (passedChunks X false path calls)
      obtain ⟨w', out, hclosed, hcomplete⟩ := h statuses st
        { self := ⟨none, if st.self.status = .ok then .ok else st.self.status⟩
          closed := some (w, (n2pWriterClose X w).2) } hrun
        (by simp only [applyCall, close, hw, hok])
      cases hclosed
      exact hnot hcomplete
    · intro hnone statuses' st1 st' hrun' hclose
      rw [hrun] at hrun'
      cases hrun'
      simp only [applyCall, close, hnone, Option.some.injEq, Prod.mk.injEq] at hclose
      exact absurd hclose.1 hnever.status

theorem soaClose_iff {opened : Bool} {path : String} {calls : List (Call S)} :
    CloseTruthful X capacity room opened path calls ↔
      opened = true ∨ .close ∈ calls ∨
        runCalls X { self := openWriter S (openedStream capacity room opened) path } calls =
          none := by
  cases opened with
  | true => exact iff_of_true (soaClose_opened X capacity room path calls) (.inl rfl)
  | false =>
    rw [soaClose_unopened]
    simp only [Bool.false_eq_true, false_or]

end Calls

end Soa

/-- **Success is reported of complete files only** exactly when the file was opened, by the C API
    and, unless an earlier `close` has taken the report, by the columnar front-end. -/
theorem closeTruthful_iff (X : External) {S : Soa.Schema} (capacity : Nat) (room : Option Nat)
    (opened : Bool) (path : String) (ops : List Op) (calls : List (Soa.Call S)) :
    (CloseTruthful X capacity room opened path ops ↔ opened = true) ∧
    (Soa.CloseTruthful X capacity room opened path calls ↔
      opened = true ∨ .close ∈ calls ∨
        Soa.runCalls X { self := Soa.openWriter S (openedStream capacity room opened) path }
          calls = none) :=
  ⟨cClose_iff, Soa.soaClose_iff⟩

/-- **A path that cannot be opened**: closing at once reports success, and there is no file. -/
theorem not_closeTruthful_unopened :
    ¬CloseTruthful External.reference 8191 none false "missing/out.parquet" [] ∧
    ¬Soa.CloseTruthful (S := Soa.numberedNames) External.reference 8191 none false
      "missing/out.parquet" [] := by
  constructor
  · rw [cClose_iff]
    decide
  · rw [Soa.soaClose_iff]
    simp [Soa.runCalls]

end N2P
