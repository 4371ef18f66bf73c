import N2P.Closing
import N2P.FileLayout
import N2P.PageLengths

/-!
# A run on a device that ends

`write_one_batch` looks at the stream once, behind its last leaf, and a buffered stream notices a
full device late.  So a run on a device of any size is the run on a device without an end, cut:
what every call computes and records is the same, and only the report of an accepted batch turns
into `N2P_IO_ERROR` once the stream has failed.

* `status_apply` — one call on two devices.
* `run_onFull` — a whole run: up to some call the statuses agree, from there on the device is full.
* `deviceRun_cut` — the file is the other file's beginning, and a close that succeeds says that
  nothing was lost and no status differed.
-/

namespace N2P

open Outcome

/-- What a call that would have returned `status` returns once the stream has failed. -/
def Op.onFull : Op → N2PStatus → N2PStatus
  | .writeBatch _ _, .ok => .ioError
  | _, status => status

/-! ## One call -/

section Status

variable {X : External} {s0 u0 : ByteSink} {w u w' u' : Writer}

/-- **One batch on two devices**, of which the second has no end. -/
theorem status_writeBatch (hs : s0.isOpen = true) (hu : u0.Unbounded) (h : Twins s0 u0 w u)
    {schema : Option ArrowSchema} {batch : Option Batch} {status status' : N2PStatus}
    (hw : n2pWriterWriteBatch X w schema (batch.map (·.array)) = some (status, w'))
    (hu' : n2pWriterWriteBatch X u schema (batch.map (·.array)) = some (status', u')) :
    status = if w'.out.good then status' else (Op.writeBatch schema batch).onFull status' := by
  have hcall := lockstep_writeBatch (lockstep_twins hs hu.isOpen) X schema (batch.map (·.array)) h
  rw [hw, hu'] at hcall
  cases hcall with
  | stopped hne _ =>
    split
    · rfl
    · cases status <;> first | exact absurd rfl hne | rfl
  | recorded h =>
    have hok : u'.commitStatus = .ok := by
      obtain ⟨_, ps, _, _, rfl⟩ := h
      exact if_pos (hu.writeAll ps).1.good
    rw [hok]
    rfl

/-- A stream that has failed stays so. -/
theorem good_of_writeAll (s : ByteSink) (pieces : List Bytes)
    (h : (s.writeAll pieces).good = true) : s.good = true := by
  induction pieces generalizing s with
  | nil => exact h
  | cons p ps ih =>
    have hp := ih (s.write p) h
    by_contra hbad
    rw [ByteSink.write, if_neg hbad] at hp
    exact hbad hp

theorem Streams.good {w w' : Writer} (h : Streams w w') (hg : w'.out.good = true) :
    w.out.good = true := by
  obtain ⟨ps, msg, rfl⟩ := h
  exact good_of_writeAll w.out ps hg

/-- No call mends a stream. -/
theorem good_apply {op : Op} {status : N2PStatus} (h : op.apply X w = some (status, w'))
    (hg : w'.out.good = true) : w.out.good = true := by
  cases op with
  | setCodec codec =>
    simp only [Op.apply, Option.some.injEq] at h
    have hout := out_setCodec w codec
    rw [h] at hout
    exact hout ▸ hg
  | setEncoding encoding =>
    simp only [Op.apply, Option.some.injEq] at h
    have hout := out_setEncoding w encoding
    rw [h] at hout
    exact hout ▸ hg
  | writeBatch schema batch =>
    rcases writeBatch_cases h with ⟨_, hok⟩ | ⟨_, ⟨e, t, msg, _, hf, rfl⟩ | ⟨_, msg, rfl⟩⟩
    · obtain ⟨sc, b, w1, xs, _, hlock, _, rfl, _⟩ := writeOneBatch_ok hok
      rw [← hlock.out]
      exact good_of_writeAll w1.out _ hg
    · rcases hf with ⟨_, _⟩ | ⟨sc, b, w1, t, _, hlock, hleaves⟩ | ⟨sc, b, w1, xs, _, hlock, _, _⟩
      · exact hg
      · rw [← hlock.out]
        exact ((onlyStreams_writeLeaves _ _ _ _).error hleaves).1.good hg
      · rw [← hlock.out]
        exact good_of_writeAll w1.out _ hg
    · exact hg

/-- **One call on two devices.** -/
theorem status_apply (hs : s0.isOpen = true) (hu : u0.Unbounded) (h : Twins s0 u0 w u) {op : Op}
    {status status' : N2PStatus} (hw : op.apply X w = some (status, w'))
    (hu' : op.apply X u = some (status', u')) :
    status = if w'.out.good then status' else op.onFull status' := by
  have hlock := lockstep_twins hs hu.isOpen
  cases op with
  | setCodec codec =>
    obtain ⟨hstatus, _⟩ := lockstep_setCodec hlock codec h
    rw [Option.some.inj hw, Option.some.inj hu'] at hstatus
    rw [show status = status' from hstatus]
    exact (ite_self _).symm
  | setEncoding encoding =>
    obtain ⟨hstatus, _⟩ := lockstep_setEncoding hlock encoding h
    rw [Option.some.inj hw, Option.some.inj hu'] at hstatus
    rw [show status = status' from hstatus]
    exact (ite_self _).symm
  | writeBatch schema batch => exact status_writeBatch hs hu h hw hu'

/-! ## Runs -/

/-- The statuses of a run whose device is full from call `n` on. -/
def fullFrom (n : Nat) (ops : List Op) (statuses : List N2PStatus) : List N2PStatus :=
  statuses.take n ++ List.zipWith Op.onFull (ops.drop n) (statuses.drop n)

/-- One call on both, and what it leaves. -/
theorem twins_apply (hs : s0.isOpen = true) (hu : u0.isOpen = true) (h : Twins s0 u0 w u)
    {op : Op} {status : N2PStatus} (hw : op.apply X w = some (status, w')) :
    ∃ status' u', op.apply X u = some (status', u') ∧ Twins s0 u0 w' u' := by
  have hrel := twins_run X hs hu [op] h
  rw [run, run, hw] at hrel
  cases hop : op.apply X u with
  | none =>
    rw [hop] at hrel
    cases hrel
  | some r =>
    rw [hop] at hrel
    cases hrel with
    | some htwins => exact ⟨r.1, r.2, rfl, htwins⟩

/-- On a stream that has failed already, every accepted batch is reported as an error. -/
theorem run_failed (hs : s0.isOpen = true) (hu : u0.Unbounded) {ops : List Op}
    {statuses : List N2PStatus} (h : Twins s0 u0 w u) (hbad : w.out.good = false)
    (hrun : run X w ops = some (statuses, w')) :
    ∃ statuses' u', run X u ops = some (statuses', u') ∧ Twins s0 u0 w' u' ∧
      w'.out.good = false ∧ statuses = List.zipWith Op.onFull ops statuses' := by
  induction ops generalizing w u statuses with
  | nil =>
    cases hrun
    exact ⟨[], u, rfl, h, hbad, rfl⟩
  | cons op ops ih =>
    obtain ⟨status, w1, rest, hop, hrest, rfl⟩ := run_cons.mp hrun
    obtain ⟨status', u1, hop', h1⟩ := twins_apply hs hu.isOpen h hop
    have hbad1 : w1.out.good = false := by
      by_contra hgood
      rw [good_apply hop (by simpa using hgood)] at hbad
      cases hbad
    obtain ⟨rest', u', hrest', h', hbad', hall⟩ := ih h1 hbad1 hrest
    have hstatus := status_apply hs hu h hop hop'
    rw [if_neg (by simp [hbad1])] at hstatus
    refine ⟨status' :: rest', u', run_cons.mpr ⟨status', u1, rest', hop', hrest', rfl⟩, h', hbad', ?_⟩
    rw [List.zipWith_cons_cons, hstatus, hall]

/-- **A run on two devices**: the statuses agree up to some call, and from it on the device is
    full. -/
theorem run_onFull (hs : s0.isOpen = true) (hu : u0.Unbounded) {ops : List Op}
    {statuses : List N2PStatus} (h : Twins s0 u0 w u) (hrun : run X w ops = some (statuses, w')) :
    ∃ statuses' u' n, run X u ops = some (statuses', u') ∧ Twins s0 u0 w' u' ∧
      statuses = fullFrom n ops statuses' ∧ (w'.out.good = true → statuses = statuses') := by
  induction ops generalizing w u statuses with
  | nil =>
    cases hrun
    exact ⟨[], u, 0, rfl, h, rfl, fun _ => rfl⟩
  | cons op ops ih =>
    obtain ⟨status, w1, rest, hop, hrest, rfl⟩ := run_cons.mp hrun
    obtain ⟨status', u1, hop', h1⟩ := twins_apply hs hu.isOpen h hop
    have hstatus := status_apply hs hu h hop hop'
    cases hgood : w1.out.good with
    | true =>
      rw [if_pos hgood] at hstatus
      obtain ⟨rest', u', n, hrest', h', hfull, hsame⟩ := ih h1 hrest
      refine ⟨status' :: rest', u', n + 1,
        run_cons.mpr ⟨status', u1, rest', hop', hrest', rfl⟩, h', ?_, fun hg => ?_⟩
      · rw [hstatus, hfull]
        rfl
      · rw [hstatus, hsame hg]
    | false =>
      rw [if_neg (by simp [hgood])] at hstatus
      obtain ⟨rest', u', hrest', h', hbad, hall⟩ := run_failed hs hu h1 hgood hrest
      refine ⟨status' :: rest', u', 0, run_cons.mpr ⟨status', u1, rest', hop', hrest', rfl⟩, h', ?_,
        fun hg => ?_⟩
      · rw [hstatus, hall]
        rfl
      · rw [hbad] at hg
        cases hg

/-- Twins record their row groups under the same codecs. -/
theorem twins_usedCodecs (hs : s0.isOpen = true) (hu : u0.isOpen = true) (h : Twins s0 u0 w u)
    (ops : List Op) : usedCodecs X w ops = usedCodecs X u ops := by
  induction ops generalizing w u with
  | nil => rfl
  | cons op ops ih =>
    have hrel := twins_run X hs hu [op] h
    rw [run, run] at hrel
    rw [usedCodecs, usedCodecs]
    cases hw : op.apply X w with
    | none =>
      rw [hw] at hrel
      cases hop : op.apply X u with
      | none => rfl
      | some r =>
        rw [hop] at hrel
        cases hrel
    | some q =>
      rw [hw] at hrel
      cases hop : op.apply X u with
      | none =>
        rw [hop] at hrel
        cases hrel
      | some r =>
        rw [hop] at hrel
        cases hrel with
        | some htwins =>
          have hrest := ih htwins
          have hused : usedCodec w q.2 = usedCodec u r.2 := by
            obtain ⟨_, _, _, _, rfl⟩ := h
            obtain ⟨_, _, _, _, hu⟩ := htwins
            unfold usedCodec
            rw [show r.2.rowGroups = q.2.rowGroups by
              have := congrArg Writer.rowGroups hu
              exact this]
          dsimp only
          rw [hused, hrest]

end Status

/-! ## The file -/

/-- What a close writes does not depend on the stream. -/
theorem DeviceTwins.closingBytes {X : External} {capacity : Nat} {room : Option Nat}
    {w u : Writer} (h : DeviceTwins capacity room w u) : closingBytes X w = closingBytes X u := by
  obtain ⟨_, ps, msg, _, rfl⟩ := h
  rfl

/-- A twin on a device without an end is its own twin. -/
theorem DeviceTwins.unlimited {capacity : Nat} {room : Option Nat} {w u : Writer}
    (h : DeviceTwins capacity room w u) : DeviceTwins 0 none u u := by
  obtain ⟨hf, ps, msg, _, rfl⟩ := h
  exact ⟨hf, ps, msg, rfl, rfl⟩

/-- A run whose close succeeds has gone as on a device without an end, and left the whole file. -/
theorem run_of_close {X : External} {capacity : Nat} {room : Option Nat} {path : String}
    {ops : List Op} {statuses : List N2PStatus} {w : Writer}
    (hrun : run X (n2pWriterOpen (openedStream capacity room true) path).2 ops =
      some (statuses, w)) (hclose : (n2pWriterClose X w).1 = .ok) :
    ∃ u, run X (n2pWriterOpen (openedStream 0 none true) path).2 ops = some (statuses, u) ∧
      DeviceTwins capacity room w u ∧
      Complete X w u.out.content (n2pWriterClose X w).2.file := by
  obtain ⟨statuses', u, n, hrun', htwins, _, hsame⟩ :=
    run_onFull (by simp [ByteSink.fresh]) ⟨rfl, rfl, rfl⟩ (deviceTwins_open capacity room path) hrun
  have htwins : DeviceTwins capacity room w u := htwins
  have hgood : w.out.good = true := by
    obtain ⟨tail, _, hfits⟩ := (close_spec (X := X) htwins).2.mp hclose
    -- what fits behind the footer fitted before it
    by_contra hbad
    refine (htwins.holds.bad (by simpa using hbad)).2.1 fun k hk => ?_
    have := hfits k hk
    rw [List.length_append] at this
    omega
  rw [hsame hgood]
  exact ⟨u, hrun', htwins, complete_of_close htwins hclose⟩

/-- **A run on a device that ends is cut off from the run on one that does not.**  Whatever the
    calls, the buffer and the size of the device: the calls return what they would return on a
    device without an end up to one of them, and from there on an accepted batch is reported as an
    I/O error.  The file is the beginning of the other file that fits the device, and the close
    succeeds exactly when the whole file fits and the other close succeeds.  Then no call was
    reported otherwise. -/
theorem deviceRun_cut {X : External} {capacity : Nat} {room : Option Nat} {path : String}
    {ops : List Op} {statuses : List N2PStatus} {w : Writer}
    (hrun : run X (n2pWriterOpen (openedStream capacity room true) path).2 ops =
      some (statuses, w)) :
    ∃ statuses' u n, run X (n2pWriterOpen (openedStream 0 none true) path).2 ops =
        some (statuses', u) ∧
      statuses = fullFrom n ops statuses' ∧
      (n2pWriterClose X w).2.file = ByteSink.cut room (n2pWriterClose X u).2.file ∧
      ((n2pWriterClose X w).1 = .ok ↔ (n2pWriterClose X u).1 = .ok ∧
        ByteSink.Fits room (n2pWriterClose X u).2.file.length) ∧
      ((n2pWriterClose X w).1 = .ok → statuses = statuses') := by
  obtain ⟨statuses', u, n, hrun', htwins, hfull, hsame⟩ :=
    run_onFull (by simp [ByteSink.fresh]) ⟨rfl, rfl, rfl⟩ (deviceTwins_open capacity room path) hrun
  have htwins : DeviceTwins capacity room w u := htwins
  obtain ⟨hfile, hok⟩ := close_spec (X := X) htwins
  obtain ⟨hfile', hok'⟩ := close_spec (X := X) htwins.unlimited
  have hwhole : (n2pWriterClose X u).2.file =
      u.out.content ++ (N2P.closingBytes X u).getD [] := hfile'
  have htail := htwins.closingBytes (X := X)
  refine ⟨statuses', u, n, hrun', hfull, ?_, ?_, ?_⟩
  · rw [hfile, hwhole, htail]
  · rw [hok, hok', hwhole, htail]
    constructor
    · rintro ⟨tail, htail, hfits⟩
      rw [htail, Option.getD_some]
      exact ⟨⟨tail, rfl, fun _ h => by cases h⟩, hfits⟩
    · rintro ⟨⟨tail, htail, _⟩, hfits⟩
      rw [htail, Option.getD_some] at hfits
      exact ⟨tail, htail, hfits⟩
  · intro hclose
    obtain ⟨_, hrun2, _⟩ := run_of_close hrun hclose
    rw [hrun'] at hrun2
    cases hrun2
    rfl

/-- Three batches, for a device that ends within the second. -/
def threeBatches : List Op :=
  [.writeBatch (some nameAndNumber) (some (fourRows false)), .setEncoding 1,
    .writeBatch (some nameAndNumber) (some (fourRows false)),
    .writeBatch (some nameAndNumber) (some (fourRows false))]

theorem deviceRun_cut_threeBatches :
    ∃ w u n, run .reference (n2pWriterOpen (openedStream 16 (some 160) true) "out.parquet").2
        threeBatches = some ([.ok, .ok, .ioError, .ioError], w) ∧
      run .reference (n2pWriterOpen (openedStream 0 none true) "out.parquet").2 threeBatches =
        some ([.ok, .ok, .ok, .ok], u) ∧
      [N2PStatus.ok, .ok, .ioError, .ioError] = fullFrom n threeBatches [.ok, .ok, .ok, .ok] ∧
      (n2pWriterClose .reference w).1 ≠ .ok ∧
      (n2pWriterClose .reference w).2.file =
        ByteSink.cut (some 160) (n2pWriterClose .reference u).2.file := by
  have hrun : (run .reference (n2pWriterOpen (openedStream 16 (some 160) true) "out.parquet").2
      threeBatches).map (·.1) = some [.ok, .ok, .ioError, .ioError] := by decide +kernel
  have hother : (run .reference (n2pWriterOpen (openedStream 0 none true) "out.parquet").2
      threeBatches).map (·.1) = some [.ok, .ok, .ok, .ok] := by decide +kernel
  obtain ⟨⟨statuses, w⟩, hw, rfl⟩ := Option.map_eq_some_iff.mp hrun
  obtain ⟨statuses', u, n, hu, hfull, hfile, _, hsame⟩ := deviceRun_cut hw
  rw [hu, Option.map_some, Option.some.injEq] at hother
  dsimp only at hother
  subst hother
  refine ⟨w, u, n, hw, hu, hfull, fun hok => ?_, hfile⟩
  cases hsame hok

end N2P
