import Mathlib.Data.List.Basic

/-!
# Resumable scanners

A scanner of a stream is given the elements at hand and whether they are the last.  It takes whole
items off the front, and says how many elements they take up.  `Resumable` collects what makes it
immaterial where the stream was cut: a scan of a prefix, and then of what that scan left over, yields
what one scan of everything yields.

`greedy` is the scanner that takes one item after the other; it is resumable when what it makes of
the front never changes as elements are added behind it.
-/

namespace Resumable

variable {σ τ β ε : Type}

/-- The items of a scan, the number of elements they take up, and the state behind them. -/
structure Scanned (σ β : Type) where
  items : List β := []
  consumed : Nat := 0
  state : σ
  deriving DecidableEq

/-- A scan, and then another of what it left over. -/
def Scanned.andThen (first second : Scanned σ β) : Scanned σ β where
  items := first.items ++ second.items
  consumed := first.consumed + second.consumed
  state := second.state

/-- A scanner of the elements at hand, which are the last ones or not. -/
abbrev WindowScan (σ τ β ε : Type) := σ → List τ → (last : Bool) → Except ε (Scanned σ β)

/-- **A scan can be cut anywhere.** -/
structure Lawful (scan : WindowScan σ τ β ε) : Prop where
  /-- Items are made of the elements at hand. -/
  bounded : ∀ {s xs last r}, scan s xs last = .ok r → r.consumed ≤ xs.length
  idle : ∀ {s xs last r}, scan s xs last = .ok r → r.consumed = 0 → r.items = []
  cut : ∀ s xs ys last, scan s (xs ++ ys) last =
    (scan s xs false).bind fun first =>
      (scan first.state ((xs ++ ys).drop first.consumed) last).map first.andThen
  /-- At the end a second scan finds nothing more. -/
  settled : ∀ {s xs r}, scan s xs true = .ok r →
    scan r.state (xs.drop r.consumed) true = .ok { state := r.state }
  nothing : ∀ s, scan s [] true = .ok { state := s }

/-- A scan of what is resident, with or without the end in sight, and then of the rest. -/
theorem Lawful.resume {scan : WindowScan σ τ β ε} (h : Lawful scan) (s : σ) {xs ys : List τ}
    {last : Bool} (hlast : last = true → ys = []) :
    scan s (xs ++ ys) true =
      (scan s xs last).bind fun first =>
        (scan first.state ((xs ++ ys).drop first.consumed) true).map first.andThen := by
  cases last with
  | false => exact h.cut s xs ys true
  | true =>
    obtain rfl := hlast rfl
    rw [List.append_nil]
    cases hr : scan s xs true with
    | error e => rfl
    | ok r =>
      show Except.ok r = (scan r.state (xs.drop r.consumed) true).map r.andThen
      rw [h.settled hr]
      show Except.ok r = .ok (r.andThen { state := r.state })
      simp [Scanned.andThen]

/-! ## Scans of the first elements -/

/-- A scan of what a scan left over finds nothing more. -/
theorem Lawful.again {scan : WindowScan σ τ β ε} (h : Lawful scan) {s : σ} {xs : List τ}
    {last : Bool} {r : Scanned σ β} (hr : scan s xs last = .ok r) :
    scan r.state (xs.drop r.consumed) last = .ok { state := r.state } := by
  cases last with
  | true => exact h.settled hr
  | false =>
    have hcut := h.cut s xs [] false
    rw [List.append_nil, hr] at hcut
    change Except.ok r = (scan r.state (xs.drop r.consumed) false).map r.andThen at hcut
    cases hrest : scan r.state (xs.drop r.consumed) false with
    | error e =>
      rw [hrest] at hcut
      cases hcut
    | ok second =>
      rw [hrest] at hcut
      have heq : r = r.andThen second := Except.ok.inj hcut
      have hitems := congrArg Scanned.items heq
      have hconsumed := congrArg Scanned.consumed heq
      have hstate := congrArg Scanned.state heq
      obtain ⟨items, consumed, state⟩ := second
      obtain rfl : items = [] := List.self_eq_append_right.mp hitems
      obtain rfl : consumed = 0 := Nat.left_eq_add.mp hconsumed
      obtain rfl : r.state = state := hstate
      rfl

/-- A scan of the first elements of a stream, of at least `k` of them, found these items.  It was
    told that they are the last ones only if they are. -/
def Found (scan : WindowScan σ τ β ε) (s : σ) (stream : List τ) (k : Nat) (items : List β) : Prop :=
  ∃ seen unseen last r, stream = seen ++ unseen ∧ (last = true → unseen = []) ∧ k ≤ seen.length ∧
    scan s seen last = .ok r ∧ r.items = items

theorem Found.mono {scan : WindowScan σ τ β ε} {s : σ} {stream : List τ} {k k' : Nat}
    {items : List β} (h : Found scan s stream k items) (hk : k' ≤ k) :
    Found scan s stream k' items := by
  obtain ⟨seen, unseen, last, r, hstream, hlast, hseen, hr, hitems⟩ := h
  exact ⟨seen, unseen, last, r, hstream, hlast, Nat.le_trans hk hseen, hr, hitems⟩

section Pieces

variable {scan : WindowScan σ τ β ε} {s : σ} {xs ys : List τ} {last : Bool} {r : Scanned σ β}
  {items : List β}

/-- Nothing is found in what a scan left over. -/
theorem Lawful.found_again (h : Lawful scan) (hr : scan s xs last = .ok r)
    (hlast : last = true → ys = []) :
    Found scan r.state ((xs ++ ys).drop r.consumed) (xs.length - r.consumed) [] := by
  refine ⟨xs.drop r.consumed, ys, last, _, ?_, hlast, ?_, h.again hr, rfl⟩
  · rw [List.drop_append_of_le_length (h.bounded hr)]
  · exact Nat.le_of_eq List.length_drop.symm

/-- Behind a scan that was told of the end, no first elements make up an item. -/
theorem Lawful.settled_items (h : Lawful scan) (hr : scan s xs true = .ok r) {seen unseen : List τ}
    {last : Bool} {r' : Scanned σ β} (hseen : xs.drop r.consumed = seen ++ unseen)
    (hlast : last = true → unseen = []) (hr' : scan r.state seen last = .ok r') :
    r'.items = [] := by
  have hrest := h.settled hr
  rw [hseen, h.resume r.state hlast, hr'] at hrest
  change (scan r'.state ((seen ++ unseen).drop r'.consumed) true).map r'.andThen = _ at hrest
  cases hmore : scan r'.state ((seen ++ unseen).drop r'.consumed) true with
  | error e =>
    rw [hmore] at hrest
    cases hrest
  | ok more =>
    rw [hmore] at hrest
    have heq : r'.andThen more = { state := r.state } := Except.ok.inj hrest
    exact (List.append_eq_nil_iff.mp (congrArg Scanned.items heq)).1

/-- **What is found piece by piece is found at once**: the items of a scan, and those behind them. -/
theorem Lawful.found_andThen (h : Lawful scan) (hr : scan s xs last = .ok r)
    (hlast : last = true → ys = [])
    (hrest : Found scan r.state ((xs ++ ys).drop r.consumed) (xs.length - r.consumed) items) :
    Found scan s (xs ++ ys) xs.length (r.items ++ items) := by
  obtain ⟨seen, unseen, last', r', hstream, hlast', hseen, hr', rfl⟩ := hrest
  have hle := h.bounded hr
  rw [List.drop_append_of_le_length hle] at hstream
  cases last with
  | true =>
    -- the end was seen already
    obtain rfl := hlast rfl
    rw [List.append_nil] at hstream
    refine ⟨xs, [], true, r, rfl, fun _ => rfl, Nat.le_refl _, hr, ?_⟩
    rw [h.settled_items hr hstream hlast' hr', List.append_nil]
  | false =>
    -- what the second scan saw reaches past what the first did
    obtain ⟨mid, hmid⟩ : xs.drop r.consumed <+: seen := by
      refine List.prefix_of_prefix_length_le (List.prefix_append _ ys) ?_ ?_
      · rw [hstream]
        exact List.prefix_append _ _
      · rw [List.length_drop]
        exact hseen
    subst hmid
    rw [List.append_assoc] at hstream
    obtain rfl := List.append_cancel_left hstream
    refine ⟨xs ++ mid, unseen, last', r.andThen r', by rw [List.append_assoc], hlast', ?_, ?_, rfl⟩
    · rw [List.length_append]
      omega
    · rw [h.cut s xs mid last', hr]
      show (scan r.state ((xs ++ mid).drop r.consumed) last').map r.andThen = _
      rw [List.drop_append_of_le_length hle, hr']
      rfl

/-- Nothing is found before anything is seen. -/
theorem Lawful.found_nothing (h : Lawful scan) (s : σ) (stream : List τ) :
    Found scan s stream 0 [] := by
  have hnothing := h.cut s [] [] true
  rw [List.append_nil, h.nothing] at hnothing
  cases hr : scan s [] false with
  | error e =>
    rw [hr] at hnothing
    cases hnothing
  | ok r =>
    have hidle := h.idle hr (Nat.le_zero.mp (h.bounded hr))
    exact ⟨[], stream, false, r, rfl, (fun hlast => by cases hlast), Nat.le_refl _, hr, hidle⟩

/-- What a scan of everything finds. -/
theorem Found.whole {stream : List τ} (hr : scan s stream true = .ok r) :
    Found scan s stream stream.length r.items :=
  ⟨stream, [], true, r, (List.append_nil _).symm, fun _ => rfl, Nat.le_refl _, hr, rfl⟩

end Pieces

/-! ## One item after the other -/

/-- The item at the front, the number of its elements and the state behind it; `none` when the
    elements at hand do not make up an item. -/
abbrev Head (σ τ β ε : Type) := σ → List τ → Except ε (Option (β × Nat × σ))

/-- What a head makes of the front does not depend on what follows. -/
structure Stable (head : Head σ τ β ε) : Prop where
  item : ∀ {s xs b n s'}, head s xs = .ok (some (b, n, s')) →
    (0 < n ∧ n ≤ xs.length) ∧ ∀ ys, head s (xs ++ ys) = .ok (some (b, n, s'))
  error : ∀ {s xs e}, head s xs = .error e → ∀ ys, head s (xs ++ ys) = .error e
  nothing : ∀ s, head s [] = .ok none

/-- What a scan takes first goes before the rest. -/
def Scanned.one (b : β) (n : Nat) (s : σ) : Scanned σ β :=
  { items := [b], consumed := n, state := s }

/-- Items are taken while there are whole ones. -/
def take (head : Head σ τ β ε) : Nat → σ → List τ → Except ε (Scanned σ β)
  | 0, s, _ => .ok { state := s }
  | fuel + 1, s, xs =>
    match head s xs with
    | .error e => .error e
    | .ok none => .ok { state := s }
    | .ok (some (b, n, s')) =>
      (take head fuel s' (xs.drop n)).map (Scanned.one b n s').andThen

/-- The scanner that takes whatever whole items there are. -/
def greedy (head : Head σ τ β ε) : WindowScan σ τ β ε := fun s xs _ => take head xs.length s xs

section Greedy

variable {head : Head σ τ β ε} {s : σ} {xs : List τ}

@[simp] theorem Scanned.nothing_andThen (s : σ) (r : Scanned σ β) :
    ({ state := s } : Scanned σ β).andThen r = r := by
  simp [Scanned.andThen]

theorem Scanned.andThen_assoc (p q r : Scanned σ β) :
    (p.andThen q).andThen r = p.andThen (q.andThen r) := by
  simp [Scanned.andThen, Nat.add_assoc]

/-- As many steps as there are elements are enough. -/
theorem take_enough (h : Stable head) {fuel : Nat} (hfuel : xs.length ≤ fuel) :
    take head fuel s xs = take head xs.length s xs := by
  induction hlen : xs.length using Nat.strongRecOn generalizing fuel s xs with
  | _ len ih =>
    subst hlen
    cases hxs : xs with
    | nil =>
      cases fuel with
      | zero => rfl
      | succ fuel => simp [take, h.nothing s]
    | cons x rest =>
      rw [← hxs]
      obtain ⟨fuel, rfl⟩ : ∃ k, fuel = k + 1 := ⟨fuel - 1, by simp [hxs] at hfuel; omega⟩
      obtain ⟨len, hlen⟩ : ∃ k, xs.length = k + 1 := ⟨rest.length, by simp [hxs]⟩
      rw [hlen, take, take]
      cases hhead : head s xs with
      | error e => rfl
      | ok found =>
        cases found with
        | none => rfl
        | some found =>
          obtain ⟨b, n, s'⟩ := found
          obtain ⟨⟨hpos, hle⟩, _⟩ := h.item hhead
          have hshorter : (xs.drop n).length < xs.length := by
            rw [List.length_drop]
            omega
          dsimp only
          rw [@ih _ hshorter s' (xs.drop n) fuel (by omega) rfl,
            @ih _ hshorter s' (xs.drop n) len (by omega) rfl]

/-- A scan takes an item off the front, if there is one. -/
theorem greedy_eq (h : Stable head) (last : Bool) :
    greedy head s xs last =
      match head s xs with
      | .error e => .error e
      | .ok none => .ok { state := s }
      | .ok (some (b, n, s')) =>
        (greedy head s' (xs.drop n) last).map (Scanned.one b n s').andThen := by
  unfold greedy
  cases hxs : xs with
  | nil => simp [take, h.nothing s]
  | cons x rest =>
    rw [← hxs]
    obtain ⟨len, hlen⟩ : ∃ k, xs.length = k + 1 := ⟨rest.length, by simp [hxs]⟩
    rw [hlen, take]
    cases hhead : head s xs with
    | error e => rfl
    | ok found =>
      cases found with
      | none => rfl
      | some found =>
        obtain ⟨b, n, s'⟩ := found
        obtain ⟨⟨hpos, hle⟩, _⟩ := h.item hhead
        dsimp only
        rw [take_enough h (by rw [List.length_drop]; omega)]

theorem greedy_cut (h : Stable head) (ys : List τ) (last : Bool) :
    greedy head s (xs ++ ys) last =
      (greedy head s xs false).bind fun first =>
        (greedy head first.state ((xs ++ ys).drop first.consumed) last).map first.andThen := by
  induction hlen : xs.length using Nat.strongRecOn generalizing s xs with
  | _ len ih =>
    subst hlen
    rw [greedy_eq h false]
    cases hhead : head s xs with
    | error e =>
      rw [greedy_eq h, h.error hhead]
      rfl
    | ok found =>
      cases found with
      | none =>
        show _ = (greedy head s (xs ++ ys) last).map _
        rw [show ({ state := s } : Scanned σ β).andThen = id from funext fun r => by simp]
        cases greedy head s (xs ++ ys) last <;> rfl
      | some found =>
        obtain ⟨b, n, s'⟩ := found
        obtain ⟨⟨hpos, hle⟩, hmore⟩ := h.item hhead
        have hrest := @ih (xs.drop n).length (by rw [List.length_drop]; omega) s' (xs.drop n) rfl
        rw [greedy_eq h, hmore ys]
        dsimp only
        rw [List.drop_append_of_le_length hle, hrest]
        cases greedy head s' (xs.drop n) false with
        | error e => rfl
        | ok first =>
          show ((greedy head first.state _ last).map first.andThen).map _ =
            (greedy head first.state _ last).map _
          have hdrop : (xs.drop n ++ ys).drop first.consumed =
              (xs ++ ys).drop (n + first.consumed) := by
            rw [← List.drop_append_of_le_length hle, List.drop_drop]
          rw [hdrop]
          change _ = (greedy head first.state ((xs ++ ys).drop (n + first.consumed)) last).map _
          cases greedy head first.state ((xs ++ ys).drop (n + first.consumed)) last with
          | error e => rfl
          | ok second =>
            exact congrArg Except.ok (Scanned.andThen_assoc _ first second).symm

/-- What a scan took, and that no item is left. -/
theorem greedy_ok (h : Stable head) {last : Bool} {r : Scanned σ β}
    (hr : greedy head s xs last = .ok r) :
    r.consumed ≤ xs.length ∧ (r.consumed = 0 → r.items = []) ∧
      head r.state (xs.drop r.consumed) = .ok none := by
  induction hlen : xs.length using Nat.strongRecOn generalizing s xs r with
  | _ len ih =>
    subst hlen
    rw [greedy_eq h] at hr
    split at hr
    · cases hr
    · rename_i hhead
      cases hr
      exact ⟨Nat.zero_le _, fun _ => rfl, hhead⟩
    · rename_i b n s' hhead
      obtain ⟨⟨hpos, hle⟩, _⟩ := h.item hhead
      cases hrest : greedy head s' (xs.drop n) last with
      | error e =>
        rw [hrest] at hr
        cases hr
      | ok rest =>
        rw [hrest] at hr
        cases hr
        have hshorter : (xs.drop n).length < xs.length := by
          rw [List.length_drop]
          omega
        obtain ⟨hbound, _, hdone⟩ := ih _ hshorter hrest rfl
        rw [List.length_drop] at hbound
        refine ⟨?_, fun hzero => ?_, ?_⟩
        · show n + rest.consumed ≤ _
          omega
        · have hzero : n + rest.consumed = 0 := hzero
          omega
        · show head rest.state (xs.drop (n + rest.consumed)) = _
          rw [← List.drop_drop]
          exact hdone

/-- **Taking one item after the other can be cut anywhere.** -/
theorem greedy_lawful (h : Stable head) : Lawful (greedy head) where
  bounded hr := (greedy_ok h hr).1
  idle hr := (greedy_ok h hr).2.1
  cut s xs ys last := greedy_cut h ys last
  settled hr := by rw [greedy_eq h, (greedy_ok h hr).2.2]
  nothing s := by rw [greedy_eq h, h.nothing]

end Greedy

end Resumable
