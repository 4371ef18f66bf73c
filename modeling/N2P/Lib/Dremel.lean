import Mathlib.Data.List.Basic

/-!
# Nested columns, striping and record assembly

A column of nested records is described by the repetitions of the nodes on its path, root to
leaf.  `Val α p` is the type of what one record holds on a path `p`: an optional node is an
`Option`, a repeated node a `List`, so a value of another shape cannot be built.

* `shred` — striping: one entry per leaf slot, with its repetition level, definition level and
  value (`none` above the leaf).
* `fresh` / `extend` / `assemble` — the record-assembly algorithm of a reader that knows only
  the path's repetitions: an entry of repetition level 0 starts a record, one of level `k`
  appends to the innermost open list at the `k`-th repeated node, and the definition level says
  how deep the new branch is defined.  Values are taken in order, one for every entry at the
  maximal definition level.

Principal result: `assemble_shred` — assembling the levels and values of any list of records
gives back exactly those records.
-/

namespace Dremel

inductive Repetition where
  | required
  | optional
  | repeated
  deriving DecidableEq, Repr

/-- What one record holds on a path. -/
@[reducible] def Val (α : Type) : List Repetition → Type
  | [] => α
  | .required :: p => Val α p
  | .optional :: p => Option (Val α p)
  | .repeated :: p => List (Val α p)

/-- Largest definition level: the nodes that may be absent. -/
def maxDef (p : List Repetition) : Nat := p.countP (· ≠ .required)

/-- Largest repetition level: the repeated nodes. -/
def maxRep (p : List Repetition) : Nat := p.countP (· = .repeated)

structure Entry (α : Type) where
  rep : Nat
  dfn : Nat
  value : Option α
  deriving DecidableEq, Repr

/-- Striping below a node: `k` repeated nodes and `d` defined optional nodes lie above, and `r`
    is the repetition level of the first entry. -/
def shred {α : Type} : (p : List Repetition) → (k r d : Nat) → Val α p → List (Entry α)
  | [], _, r, d, a => [⟨r, d, some a⟩]
  | .required :: p, k, r, d, x => shred p k r d x
  | .optional :: _, _, r, d, none => [⟨r, d, none⟩]
  | .optional :: p, k, r, d, some x => shred p k r (d + 1) x
  | .repeated :: _, _, r, d, [] => [⟨r, d, none⟩]
  | .repeated :: p, k, r, d, x :: xs =>
      shred p (k + 1) r (d + 1) x ++ xs.flatMap (shred p (k + 1) (k + 1) (d + 1))

/-- Striping a column of records. -/
def shredAll {α : Type} (p : List Repetition) (xs : List (Val α p)) : List (Entry α) :=
  xs.flatMap (shred p 0 0 0)

/-- A new branch below a node with `dl` definition levels above it, defined up to level `d`. -/
def fresh {α : Type} : (p : List Repetition) → (dl d : Nat) → Option α → Option (Val α p)
  | [], dl, d, v => if d = dl then v else none
  | .required :: p, dl, d, v => fresh p dl d v
  | .optional :: p, dl, d, v =>
      if d ≤ dl then some (none : Option (Val α p)) else (fresh p (dl + 1) d v).map some
  | .repeated :: p, dl, d, v =>
      if d ≤ dl then some ([] : List (Val α p)) else (fresh p (dl + 1) d v).map fun y => [y]

/-- Continue a record at its last open branch: an entry of repetition level `r` appends to the
    list at the `r`-th repeated node (`rl` repeated nodes lie above). -/
def extend {α : Type} : (p : List Repetition) → (rl dl : Nat) → Entry α → Val α p → Option (Val α p)
  | [], _, _, _, _ => none
  | .required :: p, rl, dl, e, x => extend p rl dl e x
  | .optional :: _, _, _, _, none => none
  | .optional :: p, rl, dl, e, some x => (extend p rl (dl + 1) e x).map some
  | .repeated :: p, rl, dl, e, xs =>
      if e.rep = rl + 1 then (fresh p (dl + 1) e.dfn e.value).map fun y => xs ++ [y]
      else match List.getLast? xs with
        | none => none
        | some x => (extend p (rl + 1) (dl + 1) e x).map fun y => xs.dropLast ++ [y]

/-- One step of the reader over the records assembled so far. -/
def assembleStep {α : Type} (p : List Repetition) (recs : List (Val α p)) (e : Entry α) :
    Option (List (Val α p)) :=
  if e.rep = 0 then (fresh p 0 e.dfn e.value).map fun y => recs ++ [y]
  else match recs.getLast? with
    | none => none
    | some x => (extend p 0 0 e x).map fun y => recs.dropLast ++ [y]

/-- Pair the levels with the stored values: an entry at the maximal definition level takes the
    next value. -/
def attach {α : Type} (D : Nat) : List (Nat × Nat) → List α → Option (List (Entry α))
  | [], [] => some []
  | [], _ :: _ => none
  | (r, d) :: ls, vs =>
      if d = D then
        match vs with
        | [] => none
        | v :: vs => (attach D ls vs).map (⟨r, d, some v⟩ :: ·)
      else (attach D ls vs).map (⟨r, d, none⟩ :: ·)

/-- Record assembly from the level streams and the stored values of a column. -/
def assemble {α : Type} (p : List Repetition) (D : Nat) (levels : List (Nat × Nat))
    (values : List α) : Option (List (Val α p)) :=
  (attach D levels values).bind fun es => es.foldlM (assembleStep p) []

/-- The definition level from which on the `k`-th repeated node of a path has an element. -/
def openLevel : List Repetition → Nat → Nat
  | [], _ => 0
  | .required :: p, k => openLevel p k
  | .optional :: p, k => 1 + openLevel p k
  | .repeated :: p, k => if k ≤ 1 then 1 else 1 + openLevel p (k - 1)

/-- Apply a function to the entry's value. -/
def Entry.map {α β : Type} (f : α → β) (e : Entry α) : Entry β := ⟨e.rep, e.dfn, e.value.map f⟩

/-! ## Levels of a striped value -/

/-- Striping a list given by its elements' indices. -/
theorem shred_repeated_range {α : Type} (p : List Repetition) (k r d n : Nat) (f : Nat → Val α p) :
    shred (.repeated :: p) k r d ((List.range n).map f : List (Val α p)) =
      if n = 0 then [⟨r, d, none⟩]
      else (List.range n).flatMap fun j =>
        shred p (k + 1) (if j = 0 then r else k + 1) (d + 1) (f j) := by
  cases n with
  | zero => rfl
  | succ n =>
    rw [List.range_succ_eq_map]
    simp [shred, List.flatMap_map]

theorem shred_ne_nil {α : Type} : ∀ (p : List Repetition) (k r d : Nat) (x : Val α p),
    ∃ e es, shred p k r d x = e :: es ∧ e.rep = r
  | [], _, r, d, a => ⟨⟨r, d, some a⟩, [], rfl, rfl⟩
  | .required :: p, k, r, d, x => shred_ne_nil p k r d x
  | .optional :: _, _, r, d, none => ⟨⟨r, d, none⟩, [], rfl, rfl⟩
  | .optional :: p, k, r, d, some x => shred_ne_nil p k r (d + 1) x
  | .repeated :: _, _, r, d, [] => ⟨⟨r, d, none⟩, [], rfl, rfl⟩
  | .repeated :: p, k, r, d, x :: xs => by
    obtain ⟨e, es, h, hr⟩ := shred_ne_nil p (k + 1) r (d + 1) x
    exact ⟨e, es ++ xs.flatMap (shred p (k + 1) (k + 1) (d + 1)), by simp [shred, h], hr⟩

/-- An entry has a value exactly when its definition level is maximal, and no entry is below the
    level it was striped at. -/
theorem shred_levels {α : Type} : ∀ (p : List Repetition) (k r d : Nat) (x : Val α p),
    ∀ e ∈ shred p k r d x, d ≤ e.dfn ∧ e.dfn ≤ d + maxDef p ∧
      (e.value.isSome ↔ e.dfn = d + maxDef p)
  | [], _, r, d, a, e, he => by
    simp only [shred, List.mem_singleton] at he
    subst he
    simp [maxDef]
  | .required :: p, k, r, d, x, e, he => by
    have := shred_levels p k r d x e he
    simpa [maxDef] using this
  | .optional :: p, k, r, d, none, e, he => by
    simp only [shred, List.mem_singleton] at he
    subst he
    simp [maxDef]
  | .optional :: p, k, r, d, some x, e, he => by
    obtain ⟨h1, h2, h3⟩ := shred_levels p k r (d + 1) x e he
    have hD : maxDef (.optional :: p) = maxDef p + 1 := by simp [maxDef]
    rw [hD]
    exact ⟨by omega, by omega, by rw [h3]; omega⟩
  | .repeated :: p, k, r, d, [], e, he => by
    simp only [shred, List.mem_singleton] at he
    subst he
    simp [maxDef]
  | .repeated :: p, k, r, d, x :: xs, e, he => by
    have hD : maxDef (.repeated :: p) = maxDef p + 1 := by simp [maxDef]
    have key : d + 1 ≤ e.dfn ∧ e.dfn ≤ d + 1 + maxDef p ∧
        (e.value.isSome ↔ e.dfn = d + 1 + maxDef p) := by
      rcases List.mem_append.mp he with he | he
      · exact shred_levels p (k + 1) r (d + 1) x e he
      · obtain ⟨y, _, hy⟩ := List.mem_flatMap.mp he
        exact shred_levels p (k + 1) (k + 1) (d + 1) y e hy
    obtain ⟨h1, h2, h3⟩ := key
    rw [hD]
    exact ⟨by omega, by omega, by rw [h3]; omega⟩

/-- After the first entry of a striped value, every entry continues a list inside it. -/
theorem shred_tail_rep {α : Type} : ∀ (p : List Repetition) (k r d : Nat) (x : Val α p)
    (e : Entry α) (es : List (Entry α)), shred p k r d x = e :: es → ∀ e' ∈ es, k < e'.rep
  | [], _, r, d, a, e, es, h, e', he' => by
    simp only [shred, List.cons.injEq] at h
    rw [← h.2] at he'; cases he'
  | .required :: p, k, r, d, x, e, es, h, e', he' => shred_tail_rep p k r d x e es h e' he'
  | .optional :: _, _, r, d, none, e, es, h, e', he' => by
    simp only [shred, List.cons.injEq] at h
    rw [← h.2] at he'; cases he'
  | .optional :: p, k, r, d, some x, e, es, h, e', he' =>
    shred_tail_rep p k r (d + 1) x e es h e' he'
  | .repeated :: _, _, r, d, [], e, es, h, e', he' => by
    simp only [shred, List.cons.injEq] at h
    rw [← h.2] at he'; cases he'
  | .repeated :: p, k, r, d, x :: xs, e, es, h, e', he' => by
    obtain ⟨e1, es1, h1, _⟩ := shred_ne_nil p (k + 1) r (d + 1) x
    simp only [shred, h1, List.cons_append, List.cons.injEq] at h
    rw [← h.2] at he'
    rcases List.mem_append.mp he' with he' | he'
    · have := shred_tail_rep p (k + 1) r (d + 1) x e1 es1 h1 e' he'
      omega
    · obtain ⟨y, _, hy⟩ := List.mem_flatMap.mp he'
      obtain ⟨e2, es2, h2, hr2⟩ := shred_ne_nil p (k + 1) (k + 1) (d + 1) y
      rw [h2] at hy
      rcases List.mem_cons.mp hy with rfl | hy
      · omega
      · have := shred_tail_rep p (k + 1) (k + 1) (d + 1) y e2 es2 h2 e' hy
        omega

/-! ## Assembling one value -/

/-- Rebuild one value from its entries: the first opens the branch, the others continue it. -/
def rebuild {α : Type} (p : List Repetition) (rl dl : Nat) : List (Entry α) → Option (Val α p)
  | [] => none
  | e :: es => (fresh p dl e.dfn e.value).bind fun x => es.foldlM (fun x e => extend p rl dl e x) x

/-- Continuing inside an optional node is continuing what it holds. -/
theorem foldlM_extend_optional {α : Type} (p : List Repetition) (rl dl : Nat) :
    ∀ (es : List (Entry α)) (x : Val α p),
      es.foldlM (fun y e => extend (.optional :: p) rl dl e y) (some x) =
        (es.foldlM (fun y e => extend p rl (dl + 1) e y) x).map some
  | [], x => rfl
  | e :: es, x => by
    simp only [List.foldlM_cons, extend]
    cases h : extend p rl (dl + 1) e x with
    | none => rfl
    | some y => exact foldlM_extend_optional p rl dl es y

/-- Continuing deeper than a repeated node continues its last element. -/
theorem foldlM_extend_repeated {α : Type} (p : List Repetition) (rl dl : Nat) :
    ∀ (es : List (Entry α)) (pre : List (Val α p)) (x : Val α p), (∀ e ∈ es, rl + 1 < e.rep) →
      es.foldlM (fun y e => extend (.repeated :: p) rl dl e y) (pre ++ [x]) =
        (es.foldlM (fun y e => extend p (rl + 1) (dl + 1) e y) x).map fun y => pre ++ [y]
  | [], pre, x, _ => rfl
  | e :: es, pre, x, hes => by
    have he : e.rep ≠ rl + 1 := by
      have := hes e List.mem_cons_self
      omega
    simp only [List.foldlM_cons, extend, if_neg he, List.getLast?_append, List.getLast?_singleton,
      Option.some_or, List.dropLast_concat]
    cases h : extend p (rl + 1) (dl + 1) e x with
    | none => rfl
    | some y => exact foldlM_extend_repeated p rl dl es pre y fun e' h' => hes e' (by simp [h'])

/-- The remaining elements of a list are appended one by one. -/
theorem foldlM_extend_elements {α : Type} (p : List Repetition) (rl dl : Nat)
    (ih : ∀ y : Val α p,
      rebuild p (rl + 1) (dl + 1) (shred p (rl + 1) (rl + 1) (dl + 1) y) = some y) :
    ∀ (xs pre : List (Val α p)),
      (xs.flatMap (shred p (rl + 1) (rl + 1) (dl + 1))).foldlM
        (fun y e => extend (.repeated :: p) rl dl e y) pre = some (pre ++ xs)
  | [], pre => by simp
  | y :: ys, pre => by
    obtain ⟨e, es, h, hr⟩ := shred_ne_nil p (rl + 1) (rl + 1) (dl + 1) y
    have hy := ih y
    rw [h] at hy
    simp only [rebuild, Option.bind_eq_some_iff] at hy
    obtain ⟨y0, hy0, hy1⟩ := hy
    have htail := shred_tail_rep p (rl + 1) (rl + 1) (dl + 1) y e es h
    have hfirst : extend (.repeated :: p) rl dl e pre = some (pre ++ [y0]) := by
      simp only [extend, if_pos hr, hy0, Option.map_some]
    have hrest := foldlM_extend_repeated p rl dl es pre y0 htail
    rw [hy1, Option.map_some] at hrest
    have htl := foldlM_extend_elements p rl dl ih ys (pre ++ [y])
    simp only [List.flatMap_cons, h, List.cons_append, List.foldlM_cons, List.foldlM_append, hfirst,
      Option.bind_eq_bind, Option.bind_some]
    rw [hrest]
    simpa using htl

/-- **One value is rebuilt from its entries.** -/
theorem rebuild_shred {α : Type} : ∀ (p : List Repetition) (rl r dl : Nat) (x : Val α p),
    rebuild p rl dl (shred p rl r dl x) = some x
  | [], _, r, dl, a => by simp [shred, rebuild, fresh]
  | .required :: p, rl, r, dl, x => by
    have := rebuild_shred p rl r dl x
    obtain ⟨e, es, h, _⟩ := shred_ne_nil p rl r dl x
    rw [h] at this
    simp only [shred]
    rw [h]
    exact this
  | .optional :: _, _, r, dl, none => by simp [shred, rebuild, fresh]
  | .optional :: p, rl, r, dl, some x => by
    have hx := rebuild_shred p rl r (dl + 1) x
    obtain ⟨e, es, h, _⟩ := shred_ne_nil p rl r (dl + 1) x
    have hd : ¬ e.dfn ≤ dl := by
      have := (shred_levels p rl r (dl + 1) x e (by simp [h])).1
      omega
    rw [h] at hx
    simp only [rebuild, Option.bind_eq_some_iff] at hx
    obtain ⟨x0, h0, h1⟩ := hx
    have hopt := foldlM_extend_optional p rl dl es x0
    rw [h1, Option.map_some] at hopt
    simp only [shred]
    rw [h]
    simp only [rebuild, fresh, if_neg hd, h0, Option.map_some, Option.bind_some]
    exact hopt
  | .repeated :: _, _, r, dl, [] => by simp [shred, rebuild, fresh]
  | .repeated :: p, rl, r, dl, x :: xs => by
    have hx := rebuild_shred p (rl + 1) r (dl + 1) x
    obtain ⟨e, es, h, _⟩ := shred_ne_nil p (rl + 1) r (dl + 1) x
    have hd : ¬ e.dfn ≤ dl := by
      have := (shred_levels p (rl + 1) r (dl + 1) x e (by simp [h])).1
      omega
    rw [h] at hx
    simp only [rebuild, Option.bind_eq_some_iff] at hx
    obtain ⟨x0, h0, h1⟩ := hx
    have htail := shred_tail_rep p (rl + 1) r (dl + 1) x e es h
    have hfirst := foldlM_extend_repeated p rl dl es [] x0 htail
    rw [h1, Option.map_some] at hfirst
    have hrest := foldlM_extend_elements p rl dl
      (fun y => rebuild_shred p (rl + 1) (rl + 1) (dl + 1) y) xs [x]
    simp only [shred]
    rw [h]
    simp only [rebuild, fresh, if_neg hd, h0, Option.map_some, Option.bind_some, List.cons_append,
      List.foldlM_append, Option.bind_eq_bind]
    rw [show ([x0] : List (Val α p)) = [] ++ [x0] from rfl, hfirst]
    exact hrest

/-! ## Assembling a column -/

theorem attach_of_levels {α : Type} {D : Nat} : ∀ {es : List (Entry α)},
    (∀ e ∈ es, (e.value.isSome ↔ e.dfn = D)) →
      attach D (es.map fun e => (e.rep, e.dfn)) (es.filterMap (·.value)) = some es
  | [], _ => rfl
  | e :: es, h => by
    have ih := attach_of_levels fun e' he' => h e' (List.mem_cons_of_mem e he')
    have he := h e List.mem_cons_self
    obtain ⟨r, d, v⟩ := e
    cases v with
    | none =>
      have hd : d ≠ D := by simpa using he
      simp [attach, hd, ih]
    | some a =>
      have hd : d = D := by simpa using he
      simp [attach, hd, ih]

theorem foldlM_assembleStep_tail {α : Type} (p : List Repetition) :
    ∀ (es : List (Entry α)) (recs : List (Val α p)) (x : Val α p), (∀ e ∈ es, 0 < e.rep) →
      es.foldlM (assembleStep p) (recs ++ [x]) =
        (es.foldlM (fun y e => extend p 0 0 e y) x).map fun y => recs ++ [y]
  | [], recs, x, _ => rfl
  | e :: es, recs, x, hes => by
    have he : e.rep ≠ 0 := by
      have := hes e List.mem_cons_self
      omega
    simp only [List.foldlM_cons, assembleStep, if_neg he, List.getLast?_append,
      List.getLast?_singleton, Option.some_or, List.dropLast_concat]
    cases h : extend p 0 0 e x with
    | none => rfl
    | some y => exact foldlM_assembleStep_tail p es recs y fun e' h' => hes e' (by simp [h'])

theorem foldlM_assembleStep_shredAll {α : Type} (p : List Repetition) :
    ∀ (xs recs : List (Val α p)),
      (shredAll p xs).foldlM (assembleStep p) recs = some (recs ++ xs)
  | [], recs => by simp [shredAll]
  | x :: xs, recs => by
    obtain ⟨e, es, h, hr⟩ := shred_ne_nil p 0 0 0 x
    have hx := rebuild_shred p 0 0 0 x
    rw [h] at hx
    simp only [rebuild, Option.bind_eq_some_iff] at hx
    obtain ⟨x0, h0, h1⟩ := hx
    have hstep : assembleStep p recs e = some (recs ++ [x0]) := by
      simp only [assembleStep, if_pos hr, h0, Option.map_some]
    have htail := foldlM_assembleStep_tail p es recs x0 (shred_tail_rep p 0 0 0 x e es h)
    rw [h1, Option.map_some] at htail
    have ih := foldlM_assembleStep_shredAll p xs (recs ++ [x])
    simp only [shredAll] at ih
    simp only [shredAll, List.flatMap_cons, h, List.cons_append, List.foldlM_cons,
      List.foldlM_append, hstep, Option.bind_eq_bind, Option.bind_some]
    rw [htail]
    simpa using ih

/-- Of a striped column, the entries at the maximal definition level carry the values. -/
theorem isSome_value_iff {α : Type} {p : List Repetition} {xs : List (Val α p)} {e : Entry α}
    (h : e ∈ shredAll p xs) : e.value.isSome ↔ e.dfn = maxDef p := by
  obtain ⟨x, _, hx⟩ := List.mem_flatMap.mp h
  simpa using (shred_levels p 0 0 0 x e hx).2.2

/-- **Record assembly inverts striping.** -/
theorem assemble_shred {α : Type} (p : List Repetition) (xs : List (Val α p)) :
    assemble p (maxDef p) ((shredAll p xs).map fun e => (e.rep, e.dfn))
      ((shredAll p xs).filterMap (·.value)) = some xs := by
  unfold assemble
  rw [attach_of_levels fun e he => isSome_value_iff he, Option.bind_some,
    foldlM_assembleStep_shredAll]
  rfl

/-- A striped column has a value for every entry at the maximal definition level. -/
theorem count_maxDef_shredAll {α : Type} (p : List Repetition) (xs : List (Val α p)) :
    ((shredAll p xs).map (·.dfn)).count (maxDef p) =
      ((shredAll p xs).filterMap (·.value)).length := by
  have h : ∀ e ∈ shredAll p xs, (e.value.isSome ↔ e.dfn = maxDef p) :=
    fun e he => isSome_value_iff he
  generalize shredAll p xs = es at h
  induction es with
  | nil => rfl
  | cons e es ih =>
    have ih := ih fun e' he' => h e' (List.mem_cons_of_mem e he')
    have he := h e List.mem_cons_self
    rw [List.map_cons, List.count_cons, ih]
    cases hv : e.value with
    | none =>
      have hne : e.dfn ≠ maxDef p := fun hd => by
        rw [hv] at he
        exact absurd (he.mpr hd) (by simp)
      simp [hv, hne]
    | some v =>
      have hd : e.dfn = maxDef p := he.mp (by rw [hv]; rfl)
      simp [hv, hd]

end Dremel
