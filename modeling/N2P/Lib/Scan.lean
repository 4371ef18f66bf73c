import Mathlib.Data.List.Basic

/-!
# Scanners

A scanner takes what it needs off the front of a list of tokens and hands on the rest.  It is
`Local` when it never looks past what it takes: on a longer list it takes the same, and the rest is
longer.
-/

/-- A reader of a prefix. -/
abbrev Scan (τ α : Type) := StateT (List τ) Option α

namespace Scan

variable {τ α β : Type}

/-- The next token. -/
def next : Scan τ τ
  | [] => none
  | t :: ts => some (t, ts)

/-- As many tokens. -/
def take (n : Nat) : Scan τ (List τ) := fun ts =>
  if n ≤ ts.length then some (ts.take n, ts.drop n) else none

/-- One scanner again and again. -/
def times (p : Scan τ α) : Nat → Scan τ (List α)
  | 0 => pure []
  | n + 1 => do
    let a ← p
    let as ← times p n
    pure (a :: as)

/-- What follows the part that is taken is not looked at. -/
def Local (p : Scan τ α) : Prop :=
  ∀ (ts rest : List τ) (a : α) (more : List τ), p ts = some (a, rest) →
    p (ts ++ more) = some (a, rest ++ more)

theorem local_pure (a : α) : Local (pure a : Scan τ α) := by
  intro ts rest b more h
  cases h
  rfl

theorem local_failure : Local (failure : Scan τ α) := by
  intro ts rest a more h
  cases h

theorem Local.bind {p : Scan τ α} {f : α → Scan τ β} (hp : Local p) (hf : ∀ a, Local (f a)) :
    Local (p >>= f) := by
  intro ts rest b more h
  obtain ⟨⟨a, ts'⟩, ha, hb⟩ := Option.bind_eq_some_iff.mp h
  exact Option.bind_eq_some_iff.mpr ⟨(a, ts' ++ more), hp _ _ _ more ha, hf a _ _ _ more hb⟩

theorem Local.map {p : Scan τ α} (f : α → β) (hp : Local p) : Local (f <$> p) := by
  rw [map_eq_pure_bind]
  exact hp.bind fun a => local_pure (f a)

theorem local_next : Local (next : Scan τ τ) := by
  intro ts rest t more h
  cases ts with
  | nil => cases h
  | cons _ ts =>
    cases h
    rfl

theorem local_take (n : Nat) : Local (take n : Scan τ (List τ)) := by
  intro ts rest as more h
  unfold take at h ⊢
  split at h
  · rename_i hn
    cases h
    rw [if_pos (by rw [List.length_append]; omega), List.take_append_of_le_length hn,
      List.drop_append_of_le_length hn]
  · cases h

theorem Local.times {p : Scan τ α} (hp : Local p) (n : Nat) : Local (times p n) := by
  induction n with
  | zero => exact local_pure []
  | succ n ih => exact hp.bind fun a => ih.bind fun as => local_pure (a :: as)

end Scan
