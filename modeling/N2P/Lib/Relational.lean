import N2P.Lib.Outcome

/-!
# Two runs side by side

`Agree S R x y`: started in states related by `S`, the `EStateM` programs `x` and `y` end alike.
Either both return, with results related by `R`, or both stop with the same error, and the final
states are related by `S` again.  One rule for each way programs are put together.
-/

namespace Outcome

/-- Two programs that end alike. -/
def Agree {ε σ α β : Type} (S : σ → σ → Prop) (R : α → β → Prop) (x : EStateM ε σ α)
    (y : EStateM ε σ β) : Prop :=
  ∀ s t, S s t →
    match x s, y t with
    | .ok a s', .ok b t' => R a b ∧ S s' t'
    | .error e s', .error f t' => e = f ∧ S s' t'
    | _, _ => False

section Agree

variable {ε σ α β γ δ : Type} {S : σ → σ → Prop} {R : α → β → Prop} {Q : γ → δ → Prop}

theorem agree_pure {a : α} {b : β} (h : R a b) :
    Agree S R (pure a : EStateM ε σ α) (pure b) :=
  fun _ _ hs => ⟨h, hs⟩

theorem agree_throw (e : ε) : Agree S R (throw e : EStateM ε σ α) (throw e) :=
  fun _ _ hs => ⟨rfl, hs⟩

theorem agree_get : Agree S S (get : EStateM ε σ σ) get := fun _ _ hs => ⟨hs, hs⟩

theorem agree_modify {f g : σ → σ} (h : ∀ s t, S s t → S (f s) (g t)) :
    Agree S (fun _ _ => True) (modify f : EStateM ε σ Unit) (modify g) :=
  fun s t hs => ⟨trivial, h s t hs⟩

theorem agree_bind {x : EStateM ε σ α} {y : EStateM ε σ β} {f : α → EStateM ε σ γ}
    {g : β → EStateM ε σ δ} (hx : Agree S R x y) (hf : ∀ a b, R a b → Agree S Q (f a) (g b)) :
    Agree S Q (x >>= f) (y >>= g) := by
  intro s t hs
  have h := hx s t hs
  show match EStateM.bind x f s, EStateM.bind y g t with
    | .ok a s', .ok b t' => Q a b ∧ S s' t'
    | .error e s', .error f t' => e = f ∧ S s' t'
    | _, _ => False
  unfold EStateM.bind
  cases hxs : x s with
  | ok a s' =>
    cases hyt : y t with
    | ok b t' =>
      rw [hxs, hyt] at h
      exact hf a b h.1 s' t' h.2
    | error e t' =>
      rw [hxs, hyt] at h
      exact h.elim
  | error e s' =>
    cases hyt : y t with
    | ok b t' =>
      rw [hxs, hyt] at h
      exact h.elim
    | error e' t' =>
      rw [hxs, hyt] at h
      exact h

theorem Agree.mono {R' : α → β → Prop} {x : EStateM ε σ α} {y : EStateM ε σ β}
    (h : Agree S R x y) (hR : ∀ a b, R a b → R' a b) : Agree S R' x y := by
  intro s t hs
  have := h s t hs
  cases hx : x s with
  | ok a s' =>
    cases hy : y t with
    | ok b t' =>
      rw [hx, hy] at this
      exact ⟨hR a b this.1, this.2⟩
    | error e t' =>
      rw [hx, hy] at this
      exact this
  | error e s' =>
    cases hy : y t with
    | ok b t' =>
      rw [hx, hy] at this
      exact this
    | error e' t' =>
      rw [hx, hy] at this
      exact this

/-- A step that depends on the state it reads. -/
theorem agree_get_bind {f : σ → EStateM ε σ γ} {g : σ → EStateM ε σ δ}
    (h : ∀ s t, S s t → Agree S Q (f s) (g t)) : Agree S Q (get >>= f) (get >>= g) :=
  agree_bind agree_get h

end Agree

end Outcome
