import Mathlib.Data.List.Basic
import Mathlib.Data.List.Forall2

/-!
# Peeling fallible and stateful computations apart

`Except` computations and `EStateM` programs (state kept on error) end in a value or an error.
The lemmas below turn the outcome of a composite into outcomes of its parts, so that no proof has
to unfold a bind.

* `FailsIn E x` — `x` can only end in an error of `E`; one rule for each way to build `x`.
* `Meets E I x` — and its value is in `I`; `meets_foldlM` is the rule for a loop, `foldl_after` for
  one that cannot fail.
* `flatMapM` — the concatenated lists of fallible steps.
* `Applies` — a stateful loop amounts to folding a list; `foldlM_applies` lifts this from one step
  to the loop.
-/

namespace Outcome

theorem bind_eq_ok {ε α β : Type} {x : Except ε α} {f : α → Except ε β} {b : β} :
    x.bind f = .ok b ↔ ∃ a, x = .ok a ∧ f a = .ok b := by
  cases x <;> simp [Except.bind]

theorem bind_eq_error {ε α β : Type} {x : Except ε α} {f : α → Except ε β} {e : ε} :
    x.bind f = .error e ↔ x = .error e ∨ ∃ a, x = .ok a ∧ f a = .error e := by
  cases x <;> simp [Except.bind]

theorem map_eq_ok {ε α β : Type} {x : Except ε α} {f : α → β} {b : β} :
    x.map f = .ok b ↔ ∃ a, x = .ok a ∧ f a = b := by
  cases x <;> simp [Except.map]

theorem map_eq_error {ε α β : Type} {x : Except ε α} {f : α → β} {e : ε} :
    x.map f = .error e ↔ x = .error e := by
  cases x <;> simp [Except.map]

/-! ## The errors a computation can end in -/

/-- Every error of a computation is in `E`. -/
def FailsIn {ε α : Type} (E : ε → Prop) (x : Except ε α) : Prop := ∀ e, x = .error e → E e

section FailsIn

variable {ε α β σ ι : Type} {E : ε → Prop}

@[simp] theorem failsIn_ok (a : α) : FailsIn E (.ok a) := by
  intro e h
  cases h

@[simp] theorem failsIn_error {e : ε} : FailsIn E (.error e : Except ε α) ↔ E e := by
  constructor
  · intro h
    exact h e rfl
  · rintro h _ ⟨rfl⟩
    exact h

@[simp] theorem failsIn_map {x : Except ε α} {f : α → β} : FailsIn E (x.map f) ↔ FailsIn E x := by
  unfold FailsIn
  simp only [map_eq_error]

theorem failsIn_bind {x : Except ε α} {f : α → Except ε β} (hx : FailsIn E x)
    (hf : ∀ a, x = .ok a → FailsIn E (f a)) : FailsIn E (x >>= f) := by
  cases x with
  | error e => exact failsIn_error.mpr (failsIn_error.mp hx)
  | ok a => exact hf a rfl

/-- A caller that hands the error on. -/
theorem FailsIn.rethrow {x : Except ε α} {e : ε} (h : FailsIn E x) (hx : x = .error e) :
    FailsIn E (.error e : Except ε β) :=
  failsIn_error.mpr (h e hx)

theorem failsIn_foldlM {f : σ → ι → Except ε σ} {is : List ι} (h : ∀ s, ∀ i ∈ is, FailsIn E (f s i))
    (s : σ) : FailsIn E (is.foldlM f s) := by
  induction is generalizing s with
  | nil => exact failsIn_ok s
  | cons i is ih =>
    rw [List.foldlM_cons]
    refine failsIn_bind (h s i List.mem_cons_self) fun t _ => ?_
    exact ih (fun s j hj => h s j (List.mem_cons_of_mem i hj)) t

end FailsIn

/-! ## The values and errors a computation can end in -/

/-- A computation ends in a value of `I` or an error of `E`. -/
def Meets {ε α : Type} (E : ε → Prop) (I : α → Prop) (x : Except ε α) : Prop :=
  FailsIn E x ∧ ∀ a, x = .ok a → I a

section Meets

variable {ε α β σ ι : Type} {E : ε → Prop}

@[simp] theorem meets_ok {I : α → Prop} {a : α} : Meets E I (.ok a : Except ε α) ↔ I a := by
  constructor
  · intro h
    exact h.2 a rfl
  · intro h
    refine ⟨failsIn_ok a, ?_⟩
    rintro _ ⟨rfl⟩
    exact h

@[simp] theorem meets_error {I : α → Prop} {e : ε} :
    Meets E I (.error e : Except ε α) ↔ E e := by
  constructor
  · intro h
    exact h.1 e rfl
  · intro h
    refine ⟨failsIn_error.mpr h, ?_⟩
    rintro _ ⟨⟩

theorem meets_bind {I : β → Prop} {x : Except ε α} {f : α → Except ε β} (hx : FailsIn E x)
    (hf : ∀ a, x = .ok a → Meets E I (f a)) : Meets E I (x >>= f) := by
  cases x with
  | error e => exact meets_error.mpr (failsIn_error.mp hx)
  | ok a => exact hf a rfl

/-- A loop whose every step keeps the invariant. -/
theorem meets_foldlM {I : σ → Prop} {f : σ → ι → Except ε σ} {is : List ι}
    (h : ∀ s, I s → ∀ i ∈ is, Meets E I (f s i)) {s : σ} (hs : I s) :
    Meets E I (is.foldlM f s) := by
  induction is generalizing s with
  | nil => exact meets_ok.mpr hs
  | cons i is ih =>
    have hi := h s hs i List.mem_cons_self
    rw [List.foldlM_cons]
    cases hf : f s i with
    | error e =>
      rw [hf, meets_error] at hi
      exact meets_error.mpr hi
    | ok t =>
      rw [hf, meets_ok] at hi
      exact ih (fun s hs j hj => h s hs j (List.mem_cons_of_mem i hj)) hi

end Meets

/-- A loop whose every step keeps what is known of the elements so far. -/
theorem foldl_after {ι σ : Type} {P : List ι → σ → Prop} {f : σ → ι → σ}
    (h : ∀ done s i, P done s → P (done ++ [i]) (f s i)) (is : List ι) {s : σ} (hs : P [] s) :
    P is (is.foldl f s) := by
  have run : ∀ (is done : List ι) (s : σ), P done s → P (done ++ is) (is.foldl f s) := by
    intro is
    induction is with
    | nil =>
      intro done s hs
      simpa using hs
    | cons i is ih =>
      intro done s hs
      have := ih (done ++ [i]) (f s i) (h done s i hs)
      simpa using this
  exact run is [] s hs

/-- Steps that all succeed. -/
theorem mapM_eq_map {m : Type → Type} [Monad m] [LawfulMonad m] {ι α : Type} {f : ι → m α}
    {g : ι → α} {is : List ι} (h : ∀ i ∈ is, f i = pure (g i)) : is.mapM f = pure (is.map g) := by
  induction is with
  | nil => simp
  | cons i is ih =>
    rw [List.mapM_cons, h i List.mem_cons_self, ih fun j hj => h j (List.mem_cons_of_mem i hj)]
    simp

/-- Every step of a loop that ends well does. -/
theorem foldlM_eq_ok {ε σ ι : Type} {f : σ → ι → Except ε σ} {is : List ι} {s t : σ}
    (h : is.foldlM f s = .ok t) : ∀ i ∈ is, ∃ s' t', f s' i = .ok t' := by
  induction is generalizing s with
  | nil =>
    intro i hi
    cases hi
  | cons i is ih =>
    rw [List.foldlM_cons] at h
    obtain ⟨s1, h1, h2⟩ := bind_eq_ok.mp h
    intro j hj
    rcases List.mem_cons.mp hj with rfl | hj
    · exact ⟨s, s1, h1⟩
    · exact ih h2 j hj

/-! ## Concatenating what fallible steps return -/

/-- Run `f` over a list and concatenate the results; the first error ends the run. -/
def flatMapM {ε ι α : Type} (f : ι → Except ε (List α)) : List ι → Except ε (List α)
  | [] => .ok []
  | i :: is =>
    match f i with
    | .error e => .error e
    | .ok ys => (flatMapM f is).map (ys ++ ·)

section flatMapM

variable {ε ι α : Type} {f : ι → Except ε (List α)} {is : List ι}

/-- Steps that all succeed concatenate as a `flatMap`. -/
theorem flatMapM_ok {g : ι → List α} (h : ∀ i ∈ is, f i = .ok (g i)) :
    flatMapM f is = .ok (is.flatMap g) := by
  induction is with
  | nil => rfl
  | cons i is ih =>
    rw [flatMapM, h i List.mem_cons_self]
    simp only [ih fun j hj => h j (List.mem_cons_of_mem i hj)]
    rfl

theorem flatMapM_eq_ok {ys : List α} :
    flatMapM f is = .ok ys ↔ ∃ g : ι → List α, (∀ i ∈ is, f i = .ok (g i)) ∧ ys = is.flatMap g := by
  constructor
  · intro h
    have hall : ∀ i ∈ is, ∃ y, f i = .ok y := by
      induction is generalizing ys with
      | nil => intro i hi; cases hi
      | cons i is ih =>
        unfold flatMapM at h
        cases hi : f i with
        | error e => rw [hi] at h; cases h
        | ok y =>
          rw [hi] at h
          obtain ⟨zs, hzs, _⟩ := map_eq_ok.mp h
          intro j hj
          rcases List.mem_cons.mp hj with rfl | hj
          · exact ⟨y, hi⟩
          · exact ih hzs j hj
    have hg : ∀ i ∈ is, f i = .ok ((f i).toOption.getD []) := by
      intro i hi
      obtain ⟨y, hy⟩ := hall i hi
      rw [hy]
      rfl
    rw [flatMapM_ok hg] at h
    exact ⟨_, hg, (Except.ok.inj h).symm⟩
  · rintro ⟨g, hg, rfl⟩
    exact flatMapM_ok hg

theorem flatMapM_eq_error {e : ε} (h : flatMapM f is = .error e) : ∃ i ∈ is, f i = .error e := by
  induction is with
  | nil => cases h
  | cons i is ih =>
    unfold flatMapM at h
    cases hi : f i with
    | error e' =>
      rw [hi] at h
      exact ⟨i, List.mem_cons_self, hi.trans h⟩
    | ok y =>
      rw [hi] at h
      obtain ⟨j, hj, hje⟩ := ih (map_eq_error.mp h)
      exact ⟨j, List.mem_cons_of_mem i hj, hje⟩

end flatMapM

section Applies

variable {ε σ ι α : Type}

/-- A run that folds `step` over the list `v` computes: it does so when `v` succeeds, and when `v`
    fails it ends in `v`'s error, or in the error `bad` of a step before. -/
def Applies (step : σ → α → Except ε σ) (bad : ε) (s : σ) (v : Except ε (List α))
    (x : Except ε σ) : Prop :=
  match v with
  | .ok ys => x = ys.foldlM step s
  | .error e => x = .error e ∨ x = .error bad

variable {step : σ → α → Except ε σ} {bad : ε} {s : σ}

theorem foldlM_error (hstep : ∀ s a e, step s a = .error e → e = bad) {ys : List α} {e : ε}
    (h : ys.foldlM step s = .error e) : e = bad := by
  induction ys generalizing s with
  | nil => cases h
  | cons y ys ih =>
    rw [List.foldlM_cons] at h
    cases hy : step s y with
    | error e' => rw [hy] at h; cases h; exact hstep _ _ _ hy
    | ok t => rw [hy] at h; exact ih h

/-- Folding steps that apply their own lists applies the concatenation. -/
theorem foldlM_applies {f : σ → ι → Except ε σ} {g : ι → Except ε (List α)} {is : List ι}
    (hstep : ∀ s a e, step s a = .error e → e = bad)
    (h : ∀ i ∈ is, ∀ s, Applies step bad s (g i) (f s i)) :
    Applies step bad s (flatMapM g is) (is.foldlM f s) := by
  induction is generalizing s with
  | nil => rfl
  | cons i is ih =>
    have hi := h i List.mem_cons_self s
    have hrest : ∀ t, Applies step bad t (flatMapM g is) (is.foldlM f t) :=
      fun t => ih fun j hj => h j (List.mem_cons_of_mem i hj)
    rw [List.foldlM_cons, flatMapM]
    cases hg : g i with
    | error e =>
      rw [hg] at hi
      rcases hi with hi | hi
      · left; rw [hi]; rfl
      · right; rw [hi]; rfl
    | ok ys =>
      rw [hg] at hi
      rw [show f s i = ys.foldlM step s from hi]
      cases hs : ys.foldlM step s with
      | error e =>
        have hbad := foldlM_error hstep hs
        cases hv : flatMapM g is with
        | error e' => right; rw [hbad]; rfl
        | ok zs =>
          show _ = (ys ++ zs).foldlM step s
          rw [List.foldlM_append, hs]
          rfl
      | ok t =>
        have ht := hrest t
        cases hv : flatMapM g is with
        | error e' => rw [hv] at ht; exact ht
        | ok zs =>
          rw [hv] at ht
          show is.foldlM f t = (ys ++ zs).foldlM step s
          rw [List.foldlM_append, hs]
          exact ht

/-- A run that ends well has applied what was computed. -/
theorem Applies.of_ok {v : Except ε (List α)} {x : Except ε σ} {t : σ}
    (h : Applies step bad s v x) (hx : x = .ok t) :
    ∃ ys, v = .ok ys ∧ ys.foldlM step s = .ok t := by
  cases v with
  | ok ys => exact ⟨ys, rfl, by rw [← hx]; exact h.symm⟩
  | error e => rcases h with h | h <;> rw [h] at hx <;> cases hx

/-- A run that fails otherwise than `bad` fails as the computation does. -/
theorem Applies.of_error {v : Except ε (List α)} {x : Except ε σ} {e : ε}
    (hstep : ∀ s a e, step s a = .error e → e = bad) (h : Applies step bad s v x)
    (hx : x = .error e) (hne : e ≠ bad) : v = .error e := by
  cases v with
  | ok ys => exact absurd (foldlM_error hstep (h.symm.trans hx)) hne
  | error e' =>
    rcases h with h | h <;> rw [h] at hx <;> cases hx
    · rfl
    · exact absurd rfl hne

end Applies

section EStateM

variable {ε σ α β : Type}

/-- A program ends well exactly when its parts do, one after the other. -/
theorem seq_eq_ok {x : EStateM ε σ α} {f : α → EStateM ε σ β} {s s' : σ} {b : β} :
    (x >>= f) s = .ok b s' ↔ ∃ a t, x s = .ok a t ∧ f a t = .ok b s' := by
  show EStateM.bind x f s = _ ↔ _
  unfold EStateM.bind
  cases h : x s with
  | ok a t =>
    simp only [EStateM.Result.ok.injEq]
    constructor
    · intro hf; exact ⟨a, t, ⟨rfl, rfl⟩, hf⟩
    · rintro ⟨_, _, ⟨rfl, rfl⟩, hf⟩; exact hf
  | error e t => simp

/-- A program fails exactly when its first part fails, or its second part does after the first. -/
theorem seq_eq_error {x : EStateM ε σ α} {f : α → EStateM ε σ β} {s s' : σ} {e : ε} :
    (x >>= f) s = .error e s' ↔
      x s = .error e s' ∨ ∃ a t, x s = .ok a t ∧ f a t = .error e s' := by
  show EStateM.bind x f s = _ ↔ _
  unfold EStateM.bind
  cases h : x s with
  | ok a t =>
    simp only [EStateM.Result.ok.injEq, reduceCtorEq, false_or]
    constructor
    · intro hf; exact ⟨a, t, ⟨rfl, rfl⟩, hf⟩
    · rintro ⟨_, _, ⟨rfl, rfl⟩, hf⟩; exact hf
  | error e' t => simp

theorem pure_eq_ok {s s' : σ} {a b : α} :
    (pure a : EStateM ε σ α) s = .ok b s' ↔ a = b ∧ s = s' := by
  show EStateM.Result.ok a s = .ok b s' ↔ _
  simp

theorem pure_ne_error {s s' : σ} {a : α} {e : ε} :
    (pure a : EStateM ε σ α) s ≠ .error e s' := by
  show EStateM.Result.ok a s ≠ _
  simp

/-- Reading the state first hands it over. -/
theorem get_bind {f : σ → EStateM ε σ β} (s : σ) : (get >>= f) s = f s s := rfl

theorem modify_eq_ok {f : σ → σ} {s s' : σ} {u : PUnit} :
    (modify f : EStateM ε σ PUnit) s = .ok u s' ↔ s' = f s := by
  show EStateM.Result.ok PUnit.unit (f s) = .ok u s' ↔ _
  simp [eq_comm]

theorem modify_ne_error {f : σ → σ} {s s' : σ} {e : ε} :
    (modify f : EStateM ε σ PUnit) s ≠ .error e s' := by
  show EStateM.Result.ok PUnit.unit (f s) ≠ _
  simp

end EStateM

end Outcome
