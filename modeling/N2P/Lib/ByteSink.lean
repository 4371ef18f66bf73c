import Mathlib.Data.List.Basic

/-!
# A buffered byte sink

An output file stream: `write` appends to a buffer that is drained to the device when it grows
past its capacity, the device may run out of room, and the first failure is sticky — a stream
that is not `good` writes nothing any more.  A failure can therefore stay unseen until `flush`.

* `content` — everything accepted so far, drained or not.
* `Unbounded` — a stream whose device takes every byte; `content_write` says it accepts exactly
  what is written.
* `Holds` — on a device of a given size, what is written reaches it up to its end.
-/

structure ByteSink where
  /-- Bytes on the device. -/
  file : List UInt8
  buffered : List UInt8
  /-- The buffer is drained when it holds more than this. -/
  capacity : Nat
  /-- Bytes the device still takes; `none` when there is no limit. -/
  room : Option Nat
  good : Bool
  isOpen : Bool
  deriving DecidableEq, Repr

namespace ByteSink

/-- A stream just opened on a device with `room` bytes left. -/
def fresh (capacity : Nat) (room : Option Nat) : ByteSink :=
  { file := [], buffered := [], capacity, room, good := true, isOpen := true }

/-- Everything accepted so far. -/
def content (s : ByteSink) : List UInt8 := s.file ++ s.buffered

/-- Move the buffer to the device; a device without room takes a prefix and the stream fails. -/
def drain (s : ByteSink) : ByteSink :=
  match s.room with
  | none => { s with file := s.file ++ s.buffered, buffered := [] }
  | some k =>
    if s.buffered.length ≤ k then
      { s with file := s.file ++ s.buffered, buffered := [], room := some (k - s.buffered.length) }
    else
      { s with file := s.file ++ s.buffered.take k, buffered := [], room := some 0, good := false }

/-- Every byte goes through the buffer.  That libstdc++ hands a block larger than the buffer to the
    device past it is not modelled: it moves the call that first notices a full device, and nothing
    else. -/
def write (s : ByteSink) (bs : List UInt8) : ByteSink :=
  if s.good then
    let s := { s with buffered := s.buffered ++ bs }
    if s.buffered.length ≤ s.capacity then s else s.drain
  else s

def flush (s : ByteSink) : ByteSink := if s.good then s.drain else s

def close (s : ByteSink) : ByteSink := { s.drain with isOpen := false }

/-- The device takes every byte and nothing has failed. -/
structure Unbounded (s : ByteSink) : Prop where
  room : s.room = none
  good : s.good = true
  isOpen : s.isOpen = true

theorem Unbounded.drain {s : ByteSink} (h : s.Unbounded) : s.drain.Unbounded := by
  unfold ByteSink.drain
  rw [h.room]
  exact ⟨rfl, h.good, h.isOpen⟩

theorem Unbounded.write {s : ByteSink} (h : s.Unbounded) (bs : List UInt8) :
    (s.write bs).Unbounded := by
  unfold ByteSink.write
  rw [if_pos h.good]
  dsimp only
  split
  · exact ⟨h.room, h.good, h.isOpen⟩
  · exact Unbounded.drain ⟨h.room, h.good, h.isOpen⟩

theorem content_drain {s : ByteSink} (h : s.room = none) : s.drain.content = s.content := by
  unfold drain content
  rw [h]
  simp

/-- A stream that takes every byte accepts exactly what is written. -/
theorem content_write {s : ByteSink} (h : s.Unbounded) (bs : List UInt8) :
    (s.write bs).content = s.content ++ bs := by
  unfold write
  rw [if_pos h.good]
  dsimp only
  split
  · simp [content]
  · rw [content_drain (by exact h.room)]
    simp [content]

/-- Closing such a stream leaves everything accepted on the device. -/
theorem file_close {s : ByteSink} (h : s.room = none) : s.close.file = s.content := by
  unfold close drain content
  rw [h]

/-- Write pieces one after the other. -/
def writeAll (s : ByteSink) (pieces : List (List UInt8)) : ByteSink := pieces.foldl write s

theorem writeAll_append (s : ByteSink) (xs ys : List (List UInt8)) :
    s.writeAll (xs ++ ys) = (s.writeAll xs).writeAll ys := List.foldl_append

theorem Unbounded.writeAll {s : ByteSink} (h : s.Unbounded) (pieces : List (List UInt8)) :
    (s.writeAll pieces).Unbounded ∧ (s.writeAll pieces).content = s.content ++ pieces.flatten := by
  induction pieces generalizing s with
  | nil => exact ⟨h, by simp [ByteSink.writeAll]⟩
  | cons p ps ih =>
    obtain ⟨h1, h2⟩ := ih (h.write p)
    refine ⟨h1, ?_⟩
    show ((s.write p).writeAll ps).content = _
    rw [h2, content_write h p, List.flatten_cons, List.append_assoc]

@[simp] theorem isOpen_write (s : ByteSink) (bs : List UInt8) : (s.write bs).isOpen = s.isOpen := by
  unfold write drain
  dsimp only
  split
  · split
    · rfl
    · split
      · rfl
      · split <;> rfl
  · rfl

@[simp] theorem isOpen_writeAll (s : ByteSink) (pieces : List (List UInt8)) :
    (s.writeAll pieces).isOpen = s.isOpen := by
  induction pieces generalizing s with
  | nil => rfl
  | cons p ps ih => exact (ih (s.write p)).trans (isOpen_write s p)

/-! ## Devices of a given size -/

/-- What a device with `room` bytes keeps of `bs`. -/
def cut (room : Option Nat) (bs : List UInt8) : List UInt8 :=
  match room with
  | none => bs
  | some k => bs.take k

/-- `n` bytes fit a device with `room` bytes. -/
def Fits (room : Option Nat) (n : Nat) : Prop := ∀ k, room = some k → n ≤ k

/-- A stream on a device with `room` bytes to which `all` has been written. -/
structure Holds (room : Option Nat) (all : List UInt8) (s : ByteSink) : Prop where
  /-- As long as nothing failed, nothing is lost. -/
  good : s.good = true → s.content = all ∧ Fits room s.file.length ∧
    s.room = room.map (· - s.file.length)
  /-- Afterwards the device is full. -/
  bad : s.good = false → s.file = cut room all ∧ ¬Fits room all.length ∧ s.buffered = [] ∧
    s.room = some 0

theorem holds_fresh (capacity : Nat) (room : Option Nat) : Holds room [] (fresh capacity room) := by
  refine ⟨fun _ => ⟨rfl, fun k _ => Nat.zero_le k, ?_⟩, nofun⟩
  cases room <;> rfl

@[simp] theorem buffered_drain (s : ByteSink) : s.drain.buffered = [] := by
  unfold drain
  split
  · rfl
  · split <;> rfl

theorem Holds.drain {room : Option Nat} {all : List UInt8} {s : ByteSink} (h : Holds room all s) :
    Holds room all s.drain := by
  cases hg : s.good with
  | false =>
    obtain ⟨hfile, hnot, hbuffered, hroom⟩ := h.bad hg
    have hsame : s.drain = s := by
      unfold ByteSink.drain
      rw [hroom]
      cases s
      simp_all
    rw [hsame]
    exact h
  | true =>
    obtain ⟨hcontent, hfits, hroom⟩ := h.good hg
    unfold ByteSink.drain
    cases room with
    | none =>
      rw [show s.room = none from hroom]
      exact ⟨fun _ => ⟨by simpa [content] using hcontent, nofun, rfl⟩, fun h => by simp [hg] at h⟩
    | some k =>
      rw [show s.room = some (k - s.file.length) from hroom]
      have hle := hfits k rfl
      dsimp only
      split
      · rename_i hroomy
        refine ⟨fun _ => ⟨by simpa [content] using hcontent, ?_, ?_⟩, fun h => by simp [hg] at h⟩
        · rintro _ ⟨rfl⟩
          rw [List.length_append]
          omega
        · rw [Option.map_some, List.length_append, Nat.sub_sub]
      · rename_i hfull
        have hall : all.length = s.file.length + s.buffered.length := by
          rw [← hcontent, content, List.length_append]
        refine ⟨nofun, fun _ => ⟨?_, ?_, rfl, rfl⟩⟩
        · show _ = all.take k
          rw [← hcontent, content, List.take_append, List.take_of_length_le hle]
        · intro hfit
          have := hfit k rfl
          omega

theorem Holds.write {room : Option Nat} {all : List UInt8} {s : ByteSink} (h : Holds room all s)
    (bs : List UInt8) : Holds room (all ++ bs) (s.write bs) := by
  unfold ByteSink.write
  cases hg : s.good with
  | false =>
    obtain ⟨hfile, hnot, hbuffered, hroom⟩ := h.bad hg
    rw [if_neg (by simp)]
    refine ⟨fun h => by simp [hg] at h, fun _ => ⟨?_, ?_, hbuffered, hroom⟩⟩
    · rw [hfile]
      cases room with
      | none => exact absurd (fun _ h => by cases h) hnot
      | some k =>
        have hk : k ≤ all.length := by
          by_contra hlt
          exact hnot fun _ h => by cases h; omega
        exact (List.take_append_of_le_length hk).symm
    · intro hfit
      refine hnot fun k hk => ?_
      have := hfit k hk
      rw [List.length_append] at this
      omega
  | true =>
    obtain ⟨hcontent, hfits, hroom⟩ := h.good hg
    have hput : Holds room (all ++ bs) { s with buffered := s.buffered ++ bs } := by
      refine ⟨fun _ => ⟨?_, hfits, hroom⟩, fun h => by simp [hg] at h⟩
      rw [← hcontent]
      simp [content]
    rw [hg] at hput
    rw [if_pos rfl]
    dsimp only
    split
    · exact hput
    · exact hput.drain

/-- **What is written reaches a device up to its end.** -/
theorem holds_writeAll (capacity : Nat) (room : Option Nat) (pieces : List (List UInt8)) :
    Holds room pieces.flatten ((fresh capacity room).writeAll pieces) := by
  have run : ∀ (ps : List (List UInt8)) {all : List UInt8} {s : ByteSink}, Holds room all s →
      Holds room (all ++ ps.flatten) (s.writeAll ps) := by
    intro ps
    induction ps with
    | nil =>
      intro all s h
      simpa [writeAll] using h
    | cons p ps ih =>
      intro all s h
      rw [List.flatten_cons, ← List.append_assoc]
      exact ih (h.write p)
  exact run pieces (holds_fresh capacity room)

/-- A flushed stream is good exactly when everything fitted. -/
theorem Holds.good_flush {room : Option Nat} {all : List UInt8} {s : ByteSink}
    (h : Holds room all s) : s.flush.good = true ↔ Fits room all.length := by
  unfold flush
  cases hg : s.good with
  | false =>
    rw [if_neg (by simp), hg]
    exact iff_of_false (by simp) (h.bad hg).2.1
  | true =>
    rw [if_pos rfl]
    have hd := h.drain
    constructor
    · intro hgood
      obtain ⟨hcontent, hfits, _⟩ := hd.good hgood
      rw [← hcontent, content, buffered_drain, List.append_nil]
      exact hfits
    · intro hfit
      by_contra hbad
      exact (hd.bad (by simpa using hbad)).2.1 hfit

/-- The file a flush and a close leave. -/
theorem Holds.file_close {room : Option Nat} {all : List UInt8} {s : ByteSink}
    (h : Holds room all s) : s.flush.close.file = cut room all := by
  have hflush : Holds room all s.flush := by
    unfold flush
    split
    · exact h.drain
    · exact h
  have hclose := hflush.drain
  show s.flush.drain.file = _
  cases hg : s.flush.drain.good with
  | false => exact (hclose.bad hg).1
  | true =>
    obtain ⟨hcontent, hfits, _⟩ := hclose.good hg
    have hfile : s.flush.drain.file = all := by
      rw [← hcontent, content, buffered_drain, List.append_nil]
    rw [hfile] at hfits ⊢
    cases room with
    | none => rfl
    | some k => exact (List.take_of_length_le (hfits k rfl)).symm

end ByteSink
