import N2P.Lib.Bytes
import N2P.Lib.Resumable

/-!
# Windows of a capture

`streaming_reader.hpp` reads a source forward into a buffer, and the loop of `Converter::run` scans
what is resident, hands over the whole blocks, slides the rest down and tops the buffer up.

* `Source`, `FileSource` — what a read returns.
* `Window` — `fill`, `consume`, `grow`.
* `scanLoop` — the loop, for any handler of a window's blocks.
* `Cut` — the blocks of the whole content, or of a first part that was scanned, in windows.
* `windows_invisible` — the handler is given such windows, whatever the capacity and however short
  the reads.
-/

namespace N2P.Streaming

open Resumable

/-! ## Sources -/

/-- A source: what a read of at most `n` bytes returns, and what is still to come. -/
structure Source (S : Type) where
  read : S → Nat → List UInt8 × S
  content : S → List UInt8
  read_le : ∀ s n, (read s n).1.length ≤ n
  read_content : ∀ s n, (read s n).1 ++ content (read s n).2 = content s
  /-- Only at the end nothing is read. -/
  read_end : ∀ s n, 0 < n → (read s n).1 = [] → content s = []

/-- `FileSource`: the bytes the stream can still deliver, and whether it is good. -/
structure FileStream where
  bytes : List UInt8
  good : Bool := true

/-- `read`: a stream that delivered less than it was asked for is not good any more. -/
def FileStream.read (s : FileStream) (n : Nat) : List UInt8 × FileStream :=
  if s.good then
    (s.bytes.take n, { bytes := s.bytes.drop n, good := decide (n ≤ s.bytes.length) })
  else ([], s)

/-- `FileSource` keeps the promise of a source. -/
def FileSource : Source FileStream where
  read := FileStream.read
  content s := if s.good then s.bytes else []
  read_le s n := by
    unfold FileStream.read
    split
    · exact List.length_take_le n s.bytes
    · exact Nat.zero_le n
  read_content s n := by
    unfold FileStream.read
    split
    · by_cases h : n ≤ s.bytes.length
      · simp [h]
      · simp [h, List.take_of_length_le (Nat.le_of_not_le h)]
    · simp
  read_end s n hn h := by
    unfold FileStream.read at h
    split at h
    · rcases List.take_eq_nil_iff.mp h with h | h
      · omega
      · rw [h]
        exact ite_self _
    · rename_i h'
      rw [if_neg h']

/-! ## The window -/

/-- `Window`: the resident bytes, of a buffer that is at least as large. -/
structure Window where
  capacity : Nat
  bytes : List UInt8 := []
  base : Nat := 0
  eof : Bool := false
  pos : 0 < capacity
  fits : bytes.length ≤ capacity

/-- `Window(source, capacity)`. -/
def Window.new (capacity : Nat) : Window where
  capacity := if capacity = 0 then 1 else capacity
  pos := by split <;> omega
  fits := Nat.zero_le _

namespace Window

/-- `full`. -/
def full (w : Window) : Bool := w.bytes.length == w.capacity

section

variable {S : Type} (source : Source S)

/-- One read of `fill`. -/
def readMore (w : Window) (s : S) : Window × S :=
  let got := source.read s (w.capacity - w.bytes.length)
  ({ w with
      bytes := w.bytes ++ got.1
      eof := w.eof || got.1.isEmpty
      fits := by
        have hread : got.1.length ≤ w.capacity - w.bytes.length := source.read_le s _
        have hfits := w.fits
        rw [List.length_append]
        omega },
    got.2)

/-- The loop of `fill`. -/
def fillLoop : Nat → Window → S → Window × S
  | 0, w, s => (w, s)
  | steps + 1, w, s =>
    if w.bytes.length < w.capacity ∧ w.eof = false then
      fillLoop steps (w.readMore source s).1 (w.readMore source s).2
    else (w, s)

/-- `fill`.  Each read but the last adds a byte. -/
def fill (w : Window) (s : S) : Window × S :=
  fillLoop source (w.capacity - w.bytes.length + 1) w s

end

/-- `consume`. -/
def consume (w : Window) (n : Nat) : Window :=
  let n := if n > w.bytes.length then w.bytes.length else n
  { w with
    bytes := w.bytes.drop n
    base := w.base + n
    fits := by
      have hfits := w.fits
      rw [List.length_drop]
      omega }

/-- `grow`. -/
def grow (w : Window) : Window :=
  { w with
    capacity := w.capacity * 2
    pos := Nat.mul_pos w.pos (by decide)
    fits := Nat.le_trans w.fits (Nat.le_mul_of_pos_right _ (by decide)) }

end Window

/-! ## The loop -/

/-- What came of a window's blocks: the loop goes on, it ends, or the converter fails. -/
inductive Handled (α : Type) where
  | next (a : α)
  | stop (a : α)
  | fail (a : α)
  deriving DecidableEq

/-- How the loop ended. -/
inductive Ended (α ε : Type) where
  | done (a : α)
  | failed (a : α)
  | scanFailed (why : ε) (a : α)
  deriving DecidableEq

section Loop

variable {S σ β ε α : Type}

/-- The loop of `Converter::run`; `none` when the fuel is not enough. -/
def scanLoop (source : Source S) (scan : WindowScan σ UInt8 β ε) (handle : α → List β → Handled α) :
    Nat → σ → Window → S → α → Option (Ended α ε)
  | 0, _, _, _, _ => none
  | fuel + 1, st, win, s, a =>
    if win.bytes.length > 0 then
      match scan st win.bytes win.eof with
      | .error why => some (.scanFailed why a)
      | .ok r =>
        if r.consumed = 0 then
          if win.eof then some (.done a)
          else
            let (win, s) := (if win.full then win.grow else win).fill source s
            scanLoop source scan handle fuel r.state win s a
        else
          match handle a r.items with
          | .fail a => some (.failed a)
          | .stop a => some (.done a)
          | .next a =>
            let (win, s) := (win.consume r.consumed).fill source s
            scanLoop source scan handle fuel r.state win s a
    else some (.done a)

/-- The handler on one window after the other. -/
def handleAll (handle : α → List β → Handled α) : α → List (List β) → Handled α
  | a, [] => .next a
  | a, window :: windows =>
    match handle a window with
    | .next a => handleAll handle a windows
    | ended => ended

/-- How the loop ends when the scan of the whole content came to `whole`. -/
def Handled.ended (whole : Except ε (Scanned σ β)) : Handled α → Ended α ε
  | .next a =>
    match whole with
    | .ok _ => .done a
    | .error why => .scanFailed why a
  | .stop a => .done a
  | .fail a => .failed a

end Loop

/-! ## What is resident -/

section Resident

variable {S : Type} {source : Source S} {w : Window} {s : S}

/-- What is resident and what is still to come. -/
def Window.rest (source : Source S) (w : Window) (s : S) : List UInt8 := w.bytes ++ source.content s

/-- The end of the source was seen only where it is. -/
def Window.AtEnd (source : Source S) (w : Window) (s : S) : Prop :=
  w.eof = true → source.content s = []

/-- There is no room left in the buffer, or nothing to fill it with. -/
def Window.Topped (w : Window) : Prop := w.full = true ∨ w.eof = true

/-- What a read leaves alone, and that it adds a byte or sees the end. -/
structure Window.ReadMore (source : Source S) (w : Window) (s : S) (w' : Window) (s' : S) : Prop where
  capacity : w'.capacity = w.capacity
  resident : w.bytes.length ≤ w'.bytes.length
  rest : w'.rest source s' = w.rest source s
  atEnd : w'.AtEnd source s'

theorem Window.readMore_spec (hroom : w.bytes.length < w.capacity) (heof : w.eof = false) :
    w.ReadMore source s (w.readMore source s).1 (w.readMore source s).2 ∧
      ((w.readMore source s).1.eof = false →
        w.bytes.length < (w.readMore source s).1.bytes.length) := by
  have hread := source.read_content s (w.capacity - w.bytes.length)
  have hend := source.read_end s (w.capacity - w.bytes.length) (by omega)
  refine ⟨⟨rfl, ?_, ?_, fun h => ?_⟩, fun h => ?_⟩
  · show _ ≤ (w.bytes ++ _).length
    rw [List.length_append]
    exact Nat.le_add_right _ _
  · show (w.bytes ++ _) ++ source.content (source.read s _).2 = w.bytes ++ _
    rw [List.append_assoc, hread]
  · have h : (w.eof || (source.read s (w.capacity - w.bytes.length)).1.isEmpty) = true := h
    rw [heof, Bool.false_or, List.isEmpty_iff] at h
    have hcontent := hend h
    rw [h, List.nil_append, hcontent] at hread
    exact hread
  · have h : (w.eof || (source.read s (w.capacity - w.bytes.length)).1.isEmpty) = false := h
    rw [heof, Bool.false_or, List.isEmpty_eq_false_iff] at h
    have hpos := List.length_pos_iff.mpr h
    show _ < (w.bytes ++ _).length
    rw [List.length_append]
    omega

theorem Window.fillLoop_spec {steps : Nat} (hsteps : w.capacity - w.bytes.length < steps)
    (h : w.AtEnd source s) :
    w.ReadMore source s (w.fillLoop source steps s).1 (w.fillLoop source steps s).2 ∧
      (w.fillLoop source steps s).1.Topped := by
  induction steps generalizing w s with
  | zero => omega
  | succ steps ih =>
    rw [fillLoop]
    split
    · rename_i hmore
      obtain ⟨hroom, heof⟩ := hmore
      obtain ⟨hread, hgrew⟩ := @readMore_spec _ source w s hroom heof
      have hcapacity := hread.capacity
      cases hend : (w.readMore source s).1.eof with
      | true =>
        -- the end was seen: the loop is over
        have hstop : (w.readMore source s).1.fillLoop source steps (w.readMore source s).2 =
            w.readMore source s := by
          cases steps with
          | zero => rfl
          | succ steps => rw [fillLoop, if_neg (by simp [hend])]
        rw [hstop]
        exact ⟨hread, .inr hend⟩
      | false =>
        have hgrew := hgrew hend
        obtain ⟨hrest, htopped⟩ := ih (by rw [hcapacity]; omega) hread.atEnd
        exact ⟨⟨hrest.capacity.trans hcapacity, hread.resident.trans hrest.resident,
          hrest.rest.trans hread.rest, hrest.atEnd⟩, htopped⟩
    · rename_i hdone
      refine ⟨⟨rfl, Nat.le_refl _, rfl, h⟩, ?_⟩
      unfold Topped full
      have hfits := w.fits
      cases heof : w.eof with
      | true => exact .inr rfl
      | false =>
        have hfull : ¬w.bytes.length < w.capacity := fun hroom => hdone ⟨hroom, heof⟩
        refine .inl (beq_iff_eq.mpr ?_)
        show w.bytes.length = w.capacity
        omega

/-- **`fill` tops the buffer up**, whatever the reads return. -/
theorem Window.fill_spec (h : w.AtEnd source s) :
    w.ReadMore source s (w.fill source s).1 (w.fill source s).2 ∧ (w.fill source s).1.Topped :=
  fillLoop_spec (Nat.lt_succ_self _) h

theorem Window.consume_bytes {n : Nat} (h : n ≤ w.bytes.length) :
    (w.consume n).bytes = w.bytes.drop n := by
  show w.bytes.drop (if n > w.bytes.length then w.bytes.length else n) = _
  rw [if_neg (by omega)]

/-- What is left behind the consumed bytes. -/
theorem Window.consume_rest {n : Nat} (h : n ≤ w.bytes.length) :
    (w.consume n).rest source s = (w.rest source s).drop n := by
  unfold rest
  rw [consume_bytes h, List.drop_append_of_le_length h]

end Resident

/-! ## The loop -/

section Windows

variable {S σ β ε α : Type} {source : Source S} {scan : WindowScan σ UInt8 β ε}
  {handle : α → List β → Handled α}

/-- Windows over a content: they divide the blocks that a scan of some first bytes finds, of at least
    `k` of them, and where a scan of everything succeeds they divide all that it finds. -/
structure CutFrom (scan : WindowScan σ UInt8 β ε) (st : σ) (content : List UInt8) (k : Nat)
    (windows : List (List β)) : Prop where
  found : Found scan st content k windows.flatten
  whole : ∀ {r}, scan st content true = .ok r → windows.flatten = r.items

/-- The blocks of a content, or of a first part that was scanned, in windows. -/
abbrev Cut (scan : WindowScan σ UInt8 β ε) (st : σ) (content : List UInt8)
    (windows : List (List β)) : Prop := CutFrom scan st content 0 windows

theorem Handled.ended_map (h : Handled α) {whole : Except ε (Scanned σ β)}
    (f : Scanned σ β → Scanned σ β) : h.ended (whole.map f) = h.ended whole := by
  cases h <;> cases whole <;> rfl

/-- Where nothing was found yet there is always a way to go on. -/
theorem exists_cut {st : σ} {content : List UInt8} {k : Nat} (h : Found scan st content k []) :
    ∃ windows, CutFrom scan st content k windows := by
  cases hwhole : scan st content true with
  | error why => exact ⟨[], h, fun hr => by rw [hwhole] at hr; cases hr⟩
  | ok r =>
    obtain ⟨seen, unseen, _, _, hcontent, _, hseen, _, _⟩ := h
    have hk : k ≤ content.length := by
      rw [hcontent, List.length_append]
      omega
    refine ⟨[r.items], ?_, fun hr => ?_⟩
    · rw [List.flatten_singleton]
      exact (Found.whole hwhole).mono hk
    · rw [hwhole] at hr
      cases hr
      exact List.flatten_singleton

/-- The blocks of a scan go before those of the windows behind it. -/
theorem CutFrom.after (hscan : Lawful scan) {st : σ} {xs ys : List UInt8} {last : Bool}
    {r : Scanned σ β} (hr : scan st xs last = .ok r) (hlast : last = true → ys = [])
    {windows windows' : List (List β)} {k : Nat} (hk : k ≤ xs.length)
    (h : CutFrom scan r.state ((xs ++ ys).drop r.consumed) (xs.length - r.consumed) windows)
    (hwindows : windows'.flatten = r.items ++ windows.flatten) :
    CutFrom scan st (xs ++ ys) k windows' where
  found := by
    rw [hwindows]
    exact (hscan.found_andThen hr hlast h.found).mono hk
  whole {all} hall := by
    rw [hscan.resume st hlast, hr] at hall
    change (scan r.state ((xs ++ ys).drop r.consumed) true).map r.andThen = .ok all at hall
    cases hrest : scan r.state ((xs ++ ys).drop r.consumed) true with
    | error why =>
      rw [hrest] at hall
      cases hall
    | ok rest =>
      rw [hrest] at hall
      cases hall
      rw [hwindows, h.whole hrest]
      rfl

/-- From here on the loop ends as the handler does over windows of the content. -/
def Handles (scan : WindowScan σ UInt8 β ε) (handle : α → List β → Handled α) (st : σ)
    (content : List UInt8) (k : Nat) (a : α) (ended : Option (Ended α ε)) : Prop :=
  ∃ windows, CutFrom scan st content k windows ∧
    ended = some ((handleAll handle a windows).ended (scan st content true))

section Pass

variable {st : σ} {xs ys : List UInt8} {last : Bool} {k : Nat} {a : α}

/-- A pass whose scan fails. -/
theorem handles_scanFailed (hscan : Lawful scan) {why : ε} (hr : scan st xs last = .error why)
    (hlast : last = true → ys = []) (hold : Found scan st (xs ++ ys) k []) :
    Handles scan handle st (xs ++ ys) k a (some (.scanFailed why a)) := by
  have hwhole : scan st (xs ++ ys) true = .error why := by
    rw [hscan.resume st hlast, hr]
    rfl
  refine ⟨[], ⟨hold, fun h => ?_⟩, by rw [hwhole]; rfl⟩
  rw [hwhole] at h
  cases h

/-- A pass that comes to no block, with the end in sight. -/
theorem handles_settled {r : Scanned σ β} (hr : scan st xs true = .ok r)
    (hnone : r.items = []) (hk : k ≤ xs.length) :
    Handles scan handle st xs k a (some (.done a)) := by
  refine ⟨[], ⟨?_, fun h => ?_⟩, by rw [hr]; rfl⟩
  · have hfound := (Found.whole hr).mono hk
    rwa [hnone] at hfound
  · rw [hr] at h
    cases h
    exact hnone.symm

/-- A pass that comes to no block, and then the others. -/
theorem Handles.idle (hscan : Lawful scan) {r : Scanned σ β} (hr : scan st xs last = .ok r)
    (hlast : last = true → ys = []) (hzero : r.consumed = 0) (hk : k ≤ xs.length)
    {ended : Option (Ended α ε)} (h : Handles scan handle r.state (xs ++ ys) xs.length a ended) :
    Handles scan handle st (xs ++ ys) k a ended := by
  obtain ⟨windows, hcut, rfl⟩ := h
  have hdrop : (xs ++ ys).drop r.consumed = xs ++ ys := by rw [hzero, List.drop_zero]
  refine ⟨windows, ?_, ?_⟩
  · refine CutFrom.after hscan hr hlast hk ?_ (by rw [hscan.idle hr hzero, List.nil_append])
    rw [hdrop, hzero]
    exact hcut
  · rw [hscan.resume st hlast, hr]
    show _ = some (Handled.ended ((scan r.state _ true).map r.andThen) _)
    rw [hdrop, Handled.ended_map]

/-- A pass that handles a window's blocks, and then the others if the handler goes on. -/
theorem handles_window (hscan : Lawful scan) {r : Scanned σ β} (hr : scan st xs last = .ok r)
    (hlast : last = true → ys = []) (hk : k ≤ xs.length) {ended : α → Option (Ended α ε)}
    (h : ∀ a', Handles scan handle r.state ((xs ++ ys).drop r.consumed) (xs.length - r.consumed) a'
      (ended a')) :
    Handles scan handle st (xs ++ ys) k a
      (match handle a r.items with
      | .fail a => some (.failed a)
      | .stop a => some (.done a)
      | .next a => ended a) := by
  have hafter : ∀ {windows : List (List β)},
      CutFrom scan r.state ((xs ++ ys).drop r.consumed) (xs.length - r.consumed) windows →
      CutFrom scan st (xs ++ ys) k (r.items :: windows) :=
    fun hcut => hcut.after hscan hr hlast hk rfl
  -- the rest is there to be cut even where the handler has had enough
  obtain ⟨unread, hunread⟩ := exists_cut (hscan.found_again hr hlast)
  cases hhandle : handle a r.items with
  | next a' =>
    obtain ⟨windows, hcut, hended⟩ := h a'
    refine ⟨r.items :: windows, hafter hcut, ?_⟩
    rw [hscan.resume st hlast, hr, handleAll, hhandle]
    show ended a' = some (Handled.ended ((scan r.state _ true).map r.andThen) _)
    rw [hended, Handled.ended_map]
  | stop a' => exact ⟨r.items :: unread, hafter hunread, by rw [handleAll, hhandle]; rfl⟩
  | fail a' => exact ⟨r.items :: unread, hafter hunread, by rw [handleAll, hhandle]; rfl⟩

end Pass

/-- **The loop on a topped-up window** handles the blocks of everything from there on, in windows. -/
theorem scanLoop_topped (hscan : Lawful scan) {bound fuel : Nat} {st : σ} {w : Window} {s : S}
    {a : α} (hatEnd : w.AtEnd source s) (htopped : w.Topped)
    (hbound : (w.rest source s).length ≤ bound)
    (hfuel : (w.rest source s).length + (bound + 1 - w.capacity) < fuel) {k : Nat}
    (hk : k ≤ w.bytes.length) (hold : Found scan st (w.rest source s) k []) :
    Handles scan handle st (w.rest source s) k a
      (scanLoop source scan handle fuel st w s a) := by
  induction fuel generalizing st w s a k with
  | zero => omega
  | succ fuel ih =>
    have hpos := w.pos
    have hlen : (w.rest source s).length = w.bytes.length + (source.content s).length :=
      List.length_append
    rw [scanLoop]
    split
    · cases hr : scan st w.bytes w.eof with
      | error why => exact handles_scanFailed hscan hr hatEnd hold
      | ok r =>
        have hle := hscan.bounded hr
        have hold' : Found scan r.state ((w.rest source s).drop r.consumed)
          (w.bytes.length - r.consumed) [] := hscan.found_again hr hatEnd
        dsimp only
        split
        · rename_i hzero
          rw [hzero, List.drop_zero] at hold'
          split
          · -- the end is resident, and no block is made up
            rename_i heof
            have hrest : w.rest source s = w.bytes := by
              unfold Window.rest
              rw [hatEnd heof, List.append_nil]
            rw [heof] at hr
            rw [hrest]
            exact handles_settled hr (hscan.idle hr hzero) hk
          · -- a block larger than the window
            rename_i heof
            have hfull : w.full = true := htopped.resolve_right heof
            rw [if_pos hfull]
            obtain ⟨hfill, htopped'⟩ := @Window.fill_spec _ source w.grow s hatEnd
            have hgrown : (w.grow.fill source s).1.capacity = w.capacity * 2 := hfill.capacity
            have hrest : (w.grow.fill source s).1.rest source (w.grow.fill source s).2 =
              w.rest source s := hfill.rest
            have hcap : w.bytes.length = w.capacity := beq_iff_eq.mp hfull
            have hgoes := @ih r.state _ _ a hfill.atEnd htopped' (by rw [hrest]; exact hbound)
              (by rw [hrest, hgrown]; omega) _ hfill.resident (by rw [hrest]; exact hold')
            rw [hrest] at hgoes
            exact hgoes.idle hscan hr hatEnd hzero hk
        · obtain ⟨hfill, htopped'⟩ := @Window.fill_spec _ source (w.consume r.consumed) s hatEnd
          have hkept : ((w.consume r.consumed).fill source s).1.capacity = w.capacity :=
            hfill.capacity
          have hrest := hfill.rest.trans (Window.consume_rest hle)
          have hdrop : ((w.rest source s).drop r.consumed).length =
              (w.rest source s).length - r.consumed := List.length_drop
          have hresident := hfill.resident
          rw [Window.consume_bytes hle, List.length_drop] at hresident
          refine handles_window hscan hr hatEnd hk fun a' => ?_
          have hgoes := @ih r.state _ _ a' hfill.atEnd htopped' (by rw [hrest]; omega)
            (by rw [hrest, hkept]; omega) _ hresident (by rw [hrest]; exact hold')
          rw [hrest] at hgoes
          exact hgoes
    · rename_i hempty
      have hbytes : w.bytes = [] := List.length_eq_zero_iff.mp (by omega)
      have heof : w.eof = true := by
        refine htopped.resolve_left fun hfull => ?_
        have hcap : w.bytes.length = w.capacity := beq_iff_eq.mp hfull
        omega
      have hrest : w.rest source s = [] := by
        unfold Window.rest
        rw [hbytes, hatEnd heof, List.append_nil]
      rw [hbytes] at hk
      rw [hrest]
      exact handles_settled (hscan.nothing st) rfl hk

/-- More fuel than is needed does not matter. -/
theorem scanLoop_more {fuel more : Nat} (hmore : fuel ≤ more) {st : σ} {w : Window} {s : S} {a : α}
    {ended : Ended α ε} (h : scanLoop source scan handle fuel st w s a = some ended) :
    scanLoop source scan handle more st w s a = some ended := by
  induction fuel generalizing more st w s a with
  | zero => cases h
  | succ fuel ih =>
    obtain ⟨more, rfl⟩ : ∃ k, more = k + 1 := ⟨more - 1, by omega⟩
    have hmore : fuel ≤ more := by omega
    rw [scanLoop] at h ⊢
    split at h
    · rename_i hsome
      rw [if_pos hsome]
      cases hr : scan st w.bytes w.eof with
      | error why =>
        rw [hr] at h
        exact h
      | ok r =>
        rw [hr] at h
        dsimp only at h ⊢
        split at h
        · rename_i hzero
          rw [if_pos hzero]
          split at h
          · rename_i heof
            rw [if_pos heof]
            exact h
          · rename_i heof
            rw [if_neg heof]
            exact ih hmore h
        · rename_i hitems
          rw [if_neg hitems]
          cases hhandle : handle a r.items with
          | next a' =>
            rw [hhandle] at h
            exact ih hmore h
          | stop a' | fail a' =>
            rw [hhandle] at h
            exact h
    · rename_i hnone
      rw [if_neg hnone]
      exact h

/-- The first `fill` and the loop. -/
def stream (source : Source S) (scan : WindowScan σ UInt8 β ε) (handle : α → List β → Handled α)
    (capacity fuel : Nat) (st : σ) (s : S) (a : α) : Option (Ended α ε) :=
  let (win, s) := (Window.new capacity).fill source s
  scanLoop source scan handle fuel st win s a

/-- The first `fill`, and so much fuel as is always enough. -/
theorem stream_topped (hscan : Lawful scan) (capacity : Nat) (st : σ) (s : S) (a : α) :
    ∃ windows, Cut scan st (source.content s) windows ∧
      stream source scan handle capacity (2 * (source.content s).length + 2) st s a =
        some ((handleAll handle a windows).ended (scan st (source.content s) true)) := by
  have hnew : (Window.new capacity).AtEnd source s := fun h => by cases h
  obtain ⟨hfill, htopped⟩ := Window.fill_spec hnew
  have hrest : ((Window.new capacity).fill source s).1.rest source
      ((Window.new capacity).fill source s).2 = source.content s := hfill.rest
  have hcapacity : 0 < ((Window.new capacity).fill source s).1.capacity := Window.pos _
  obtain ⟨windows, hcut, hloop⟩ := @scanLoop_topped _ _ _ _ _ source scan handle hscan
    (source.content s).length (2 * (source.content s).length + 2) st _ _ a hfill.atEnd htopped
    (Nat.le_of_eq (congrArg List.length hrest)) (by rw [hrest]; omega) 0 (Nat.zero_le _)
    (hscan.found_nothing st _)
  rw [hrest] at hcut hloop
  exact ⟨windows, hcut, hloop⟩

theorem stream_more {capacity fuel more : Nat} (hmore : fuel ≤ more) {st : σ} {s : S} {a : α}
    {ended : Ended α ε} (h : stream source scan handle capacity fuel st s a = some ended) :
    stream source scan handle capacity more st s a = some ended := scanLoop_more hmore h

/-- However it was given fuel, the loop ended so. -/
theorem stream_ended (hscan : Lawful scan) {capacity fuel : Nat} {st : σ} {s : S} {a : α}
    {ended : Ended α ε} (h : stream source scan handle capacity fuel st s a = some ended) :
    ∃ windows, Cut scan st (source.content s) windows ∧
      (handleAll handle a windows).ended (scan st (source.content s) true) = ended := by
  obtain ⟨windows, hcut, hloop⟩ := @stream_topped _ _ _ _ _ source scan handle hscan capacity st s a
  refine ⟨windows, hcut, ?_⟩
  have hmax := stream_more (Nat.le_max_left fuel (2 * (source.content s).length + 2)) h
  rw [stream_more (Nat.le_max_right fuel (2 * (source.content s).length + 2)) hloop] at hmax
  exact Option.some.inj hmax

/-- **Windows and short reads are invisible.**  The loop ends, and it handled the blocks that one scan
    of the whole content finds, in order and each once, or ended early for the handler's reasons.  If
    that scan fails, it handled the blocks of a first part that was scanned. -/
theorem windows_invisible (hscan : Lawful scan) (capacity : Nat) (st : σ) (s : S) (a : α) :
    ∃ windows, Cut scan st (source.content s) windows ∧
      ∀ fuel > 2 * (source.content s).length + 1,
        stream source scan handle capacity fuel st s a =
          some ((handleAll handle a windows).ended (scan st (source.content s) true)) := by
  obtain ⟨windows, hcut, hloop⟩ := @stream_topped _ _ _ _ _ source scan handle hscan capacity st s a
  exact ⟨windows, hcut, fun fuel hfuel => stream_more hfuel hloop⟩

end Windows

/-! ## Blocks by their length -/

/-- The general structure of a pcapng block: a type, the total length, a body, the length again. -/
def pcapngBlock : Head Unit UInt8 (List UInt8) String := fun _ xs =>
  if xs.length < 12 then .ok none
  else
    let n := ByteSeq.ofLE ((xs.drop 4).take 4)
    if n < 12 ∨ n % 4 ≠ 0 then .error "bad block total length"
    else if xs.length < n then .ok none
    else .ok (some (xs.take n, n, ()))

/-- The length is in the part that is there already. -/
theorem blockLength_append {xs : List UInt8} (h : 12 ≤ xs.length) (ys : List UInt8) :
    ((xs ++ ys).drop 4).take 4 = (xs.drop 4).take 4 := by
  rw [List.drop_append_of_le_length (by omega),
    List.take_append_of_le_length (by rw [List.length_drop]; omega)]

theorem pcapngBlock_stable : Stable pcapngBlock where
  item {s xs b n s'} h := by
    unfold pcapngBlock at h
    dsimp only at h
    split_ifs at h with hlong hn hwhole
    · cases h
    · cases h
    cases h
    refine ⟨by omega, fun ys => ?_⟩
    unfold pcapngBlock
    dsimp only
    rw [blockLength_append (by omega), List.length_append, if_neg (by omega), if_neg hn,
      if_neg (by omega), List.take_append_of_le_length (by omega)]
  error {s xs e} h ys := by
    unfold pcapngBlock at h
    dsimp only at h
    split_ifs at h with hlong hn
    cases h
    unfold pcapngBlock
    dsimp only
    rw [blockLength_append (by omega), List.length_append, if_neg (by omega), if_pos hn]
  nothing s := rfl

/-- A section header of 28 bytes, a block of 16 bytes, and the first bytes of a third. -/
def twoBlocks : List UInt8 :=
  [0x0A, 0x0D, 0x0D, 0x0A, 28, 0, 0, 0, 0x4D, 0x3C, 0x2B, 0x1A, 1, 0, 0, 0,
    0xFF, 0xFF, 0xFF, 0xFF, 0xFF, 0xFF, 0xFF, 0xFF, 28, 0, 0, 0] ++
    [0xAD, 0x0B, 0, 0, 16, 0, 0, 0, 0xAA, 0xBB, 0xCC, 0xDD, 16, 0, 0, 0] ++ [6, 0, 0]

theorem windows_invisible_twoBlocks :
    ∃ windows : List (List (List UInt8)),
      windows.flatten = [twoBlocks.take 28, (twoBlocks.drop 28).take 16] ∧
      ∀ fuel > 95, stream FileSource (greedy pcapngBlock) (fun n window => .next (n + window.length))
          5 fuel () { bytes := twoBlocks } 0 =
        some ((handleAll (fun n window => .next (n + window.length)) 0 windows).ended
          (greedy pcapngBlock () twoBlocks true)) := by
  obtain ⟨windows, hcut, hloop⟩ := @windows_invisible _ _ _ _ _ FileSource (greedy pcapngBlock)
    (fun (n : Nat) window => .next (n + window.length)) (greedy_lawful pcapngBlock_stable) 5 ()
    { bytes := twoBlocks } 0
  have hwhole : (greedy pcapngBlock () twoBlocks true).toOption.map (·.items) =
      some [twoBlocks.take 28, (twoBlocks.drop 28).take 16] := by decide +kernel
  obtain ⟨r, hr, hitems⟩ := Option.map_eq_some_iff.mp hwhole
  refine ⟨windows, (hcut.whole ?_).trans hitems, hloop⟩
  change greedy pcapngBlock () twoBlocks true = .ok r
  cases h : greedy pcapngBlock () twoBlocks true with
  | error e => rw [h] at hr; cases hr
  | ok r' => rw [h] at hr; cases hr; rfl

end N2P.Streaming
