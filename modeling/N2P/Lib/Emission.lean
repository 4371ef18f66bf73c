import N2P.Lib.Outcome

/-!
# Steps that only append to an output

A step that appends pieces to an output and may stop, with what it had appended by then.  As a
value it says everything about the programs that run it: `run` appends the pieces to a state and
stops as the step does, and running commutes with sequencing.

* `bind_cases` — how a sequence of two steps ends, and what it has appended.
* `mapM_cases` — the same for a list of steps, with the steps before the one that stops.
* `run_bind` — running a sequence is running its steps one after the other.
-/

/-- What a step appends, and its outcome. -/
structure Emission (ε β α : Type) where
  output : List β
  result : Except ε α

namespace Emission

variable {ε β α γ ι : Type}

/-- Sequencing: the second step's output goes behind the first one's. -/
def bind (m : Emission ε β α) (f : α → Emission ε β γ) : Emission ε β γ :=
  match m.result with
  | .error e => ⟨m.output, .error e⟩
  | .ok a => ⟨m.output ++ (f a).output, (f a).result⟩

instance : Monad (Emission ε β) where
  pure a := ⟨[], .ok a⟩
  bind := bind

/-- A computation that appends nothing. -/
def lift (x : Except ε α) : Emission ε β α := ⟨[], x⟩

/-- Append some pieces. -/
def emit (pieces : List β) : Emission ε β Unit := ⟨pieces, .ok ()⟩

@[simp] theorem output_pure (a : α) : (pure a : Emission ε β α).output = [] := rfl
@[simp] theorem result_pure (a : α) : (pure a : Emission ε β α).result = .ok a := rfl
@[simp] theorem output_lift (x : Except ε α) : (lift x : Emission ε β α).output = [] := rfl
@[simp] theorem result_lift (x : Except ε α) : (lift x : Emission ε β α).result = x := rfl
@[simp] theorem output_emit (pieces : List β) :
    (emit pieces : Emission ε β Unit).output = pieces := rfl
@[simp] theorem result_emit (pieces : List β) :
    (emit pieces : Emission ε β Unit).result = .ok () := rfl

theorem bind_of_ok {m : Emission ε β α} {f : α → Emission ε β γ} {a : α} (h : m.result = .ok a) :
    m >>= f = ⟨m.output ++ (f a).output, (f a).result⟩ := by
  show bind m f = _
  unfold bind
  rw [h]

theorem bind_of_error {m : Emission ε β α} {f : α → Emission ε β γ} {e : ε}
    (h : m.result = .error e) : m >>= f = ⟨m.output, .error e⟩ := by
  show bind m f = _
  unfold bind
  rw [h]

theorem bind_pure_id (m : Emission ε β α) : bind m (fun a => ⟨[], .ok a⟩) = m := by
  obtain ⟨output, result⟩ := m
  cases result <;> simp [bind]

theorem bind_bind {δ : Type} (m : Emission ε β α) (f : α → Emission ε β γ)
    (g : γ → Emission ε β δ) : bind (bind m f) g = bind m fun a => bind (f a) g := by
  obtain ⟨output, result⟩ := m
  cases result with
  | error e => rfl
  | ok a =>
    unfold bind
    dsimp only
    cases (f a).result with
    | error e => rfl
    | ok c => simp

instance : LawfulMonad (Emission ε β) :=
  LawfulMonad.mk' _ bind_pure_id (fun _ _ => rfl) bind_bind

/-- **How a sequence ends.** -/
theorem bind_cases (m : Emission ε β α) (f : α → Emission ε β γ) :
    (∃ e, m.result = .error e ∧ m >>= f = ⟨m.output, .error e⟩) ∨
      ∃ a, m.result = .ok a ∧ m >>= f = ⟨m.output ++ (f a).output, (f a).result⟩ := by
  cases h : m.result with
  | error e => exact .inl ⟨e, rfl, bind_of_error h⟩
  | ok a => exact .inr ⟨a, rfl, bind_of_ok h⟩

theorem bind_eq_ok {m : Emission ε β α} {f : α → Emission ε β γ} {c : γ} :
    (m >>= f).result = .ok c ↔ ∃ a, m.result = .ok a ∧ (f a).result = .ok c := by
  rcases bind_cases m f with ⟨e, hm, h⟩ | ⟨a, hm, h⟩
  · rw [h, hm]
    simp
  · rw [h, hm]
    simp

theorem bind_eq_error {m : Emission ε β α} {f : α → Emission ε β γ} {e : ε} :
    (m >>= f).result = .error e ↔
      m.result = .error e ∨ ∃ a, m.result = .ok a ∧ (f a).result = .error e := by
  rcases bind_cases m f with ⟨e', hm, h⟩ | ⟨a, hm, h⟩
  · rw [h, hm]
    simp
  · rw [h, hm]
    simp

@[simp] theorem result_map (f : α → γ) (m : Emission ε β α) :
    (f <$> m).result = m.result.map f := by
  rw [map_eq_pure_bind]
  rcases bind_cases m (fun a => pure (f a)) with ⟨e, hm, h⟩ | ⟨a, hm, h⟩
  · rw [h, hm]
    rfl
  · rw [h, hm]
    rfl

@[simp] theorem output_map (f : α → γ) (m : Emission ε β α) : (f <$> m).output = m.output := by
  rw [map_eq_pure_bind]
  rcases bind_cases m (fun a => pure (f a)) with ⟨e, hm, h⟩ | ⟨a, hm, h⟩
  · rw [h]
  · rw [h]
    simp

theorem lift_ok_bind (a : α) (f : α → Emission ε β γ) : lift (.ok a) >>= f = f a := rfl

/-! ## Lists of steps -/

/-- **How a list of steps ends**: all of them end well, or the first that does not stops it. -/
theorem mapM_cases (f : ι → Emission ε β α) (is : List ι) :
    (∃ as, List.Forall₂ (fun i a => (f i).result = .ok a) is as ∧
      is.mapM f = ⟨is.flatMap fun i => (f i).output, .ok as⟩) ∨
    ∃ before i after as e, is = before ++ i :: after ∧
      List.Forall₂ (fun i a => (f i).result = .ok a) before as ∧ (f i).result = .error e ∧
      is.mapM f = ⟨(before.flatMap fun i => (f i).output) ++ (f i).output, .error e⟩ := by
  induction is with
  | nil => exact .inl ⟨[], .nil, rfl⟩
  | cons i is ih =>
    rw [List.mapM_cons]
    cases hi : (f i).result with
    | error e =>
      right
      refine ⟨[], i, is, [], e, rfl, .nil, hi, ?_⟩
      rw [bind_of_error hi]
      rfl
    | ok a =>
      rw [bind_of_ok hi]
      rcases ih with ⟨as, has, h⟩ | ⟨before, j, after, as, e, rfl, has, hj, h⟩
      · left
        refine ⟨a :: as, .cons hi has, ?_⟩
        rw [bind_of_ok (by rw [h]), h]
        simp
      · right
        refine ⟨i :: before, j, after, a :: as, e, rfl, .cons hi has, hj, ?_⟩
        rw [bind_of_error (by rw [h]), h]
        simp

/-- A list of steps ends well exactly when each does. -/
theorem mapM_eq_ok {f : ι → Emission ε β α} {is : List ι} {as : List α} :
    (is.mapM f).result = .ok as ↔ List.Forall₂ (fun i a => (f i).result = .ok a) is as := by
  constructor
  · intro h
    rcases mapM_cases f is with ⟨as', has, hm⟩ | ⟨_, _, _, _, e, _, _, _, hm⟩
    · rw [hm] at h
      cases h
      exact has
    · rw [hm] at h
      cases h
  · intro h
    induction h with
    | nil => rfl
    | cons hi _ ih =>
      rw [List.mapM_cons, bind_of_ok hi, bind_of_ok ih]
      rfl

/-! ## Running a step -/

section Run

variable {σ ε' : Type} (append : σ → List β → σ) (stop : ε → σ → ε' × σ)

/-- The program that appends what the step does, and stops where it does. -/
def run (m : Emission ε β α) : EStateM ε' σ α := fun s =>
  match m.result with
  | .ok a => .ok a (append s m.output)
  | .error e => .error (stop e (append s m.output)).1 (stop e (append s m.output)).2

variable {append} (hnil : ∀ s, append s [] = s)
  (happend : ∀ s xs ys, append (append s xs) ys = append s (xs ++ ys))

include hnil in
theorem run_pure (a : α) : run append stop (pure a : Emission ε β α) = pure a := by
  funext s
  show EStateM.Result.ok a (append s []) = _
  rw [hnil]
  rfl

include happend in
/-- **Running commutes with sequencing.** -/
theorem run_bind (m : Emission ε β α) (f : α → Emission ε β γ) :
    run append stop (m >>= f) = run append stop m >>= fun a => run append stop (f a) := by
  funext s
  show _ = EStateM.bind (run append stop m) (fun a => run append stop (f a)) s
  rcases bind_cases m f with ⟨e, hm, h⟩ | ⟨a, hm, h⟩
  · simp only [h, run, hm, EStateM.bind]
  · simp only [h, run, hm, EStateM.bind, happend]

end Run

end Emission
