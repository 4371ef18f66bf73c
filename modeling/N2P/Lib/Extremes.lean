import Mathlib.Init

/-!
# Smallest and largest members

`Extremes le xs m`: `m` is a lower and an upper bound of the members of `xs` that members reach, or
nothing when there is nothing to bound.  The relation `le` is arbitrary.  A member that is not `le`
itself (a NaN) bounds nothing, and two members may be `le` each other (the two zeros).

* `Extremes.congr_mem` — only the members count, not their order or number.
* `Extremes.map` — carried along a function that keeps the relation.
* `Extremes.unique` — where no two values are `le` each other there is one answer.
* `Least.foldl` — a scan that keeps the smaller of two finds it.
-/

/-- A lower bound of the comparable members that one of them reaches. -/
structure Least {α : Type} (le : α → α → Prop) (xs : List α) (b : α) : Prop where
  reached : ∃ x ∈ xs, le x x ∧ le x b
  bound : ∀ x ∈ xs, le x x → le b x

/-- A smallest and a largest comparable member. -/
def Extremes {α : Type} (le : α → α → Prop) (xs : List α) : Option (α × α) → Prop
  | none => ∀ x ∈ xs, ¬ le x x
  | some (lo, hi) => Least le xs lo ∧ Least (fun x y => le y x) xs hi

section Extremes

variable {α β : Type} {le : α → α → Prop} {xs ys : List α} {m m' : Option (α × α)}

theorem Least.congr_mem {b : α} (h : Least le xs b) (hmem : ∀ x, x ∈ xs ↔ x ∈ ys) :
    Least le ys b := by
  obtain ⟨x, hx, hreach⟩ := h.reached
  exact ⟨⟨x, (hmem x).mp hx, hreach⟩, fun y hy => h.bound y ((hmem y).mpr hy)⟩

/-- Only the members count. -/
theorem Extremes.congr_mem (h : Extremes le xs m) (hmem : ∀ x, x ∈ xs ↔ x ∈ ys) :
    Extremes le ys m := by
  cases m with
  | none => exact fun x hx => h x ((hmem x).mpr hx)
  | some p => exact ⟨h.1.congr_mem hmem, h.2.congr_mem hmem⟩

theorem Extremes.nil : Extremes le [] none := by
  intro x hx
  cases hx

/-- There are bounds exactly when something is comparable. -/
theorem Extremes.isSome (h : Extremes le xs m) : m.isSome ↔ ∃ x ∈ xs, le x x := by
  cases m with
  | none =>
    constructor
    · intro hm
      cases hm
    · rintro ⟨x, hx, hle⟩
      exact absurd hle (h x hx)
  | some p =>
    obtain ⟨x, hx, hle, _⟩ := h.1.reached
    exact iff_of_true rfl ⟨x, hx, hle⟩

/-- What holds of the members, and of everything as large as one of them, holds of the bound. -/
theorem Least.holds {P : α → Prop} {b : α} (h : Least le xs b) (hP : ∀ x ∈ xs, P x)
    (hequiv : ∀ x y, le x y → le y x → P x → P y) : P b := by
  obtain ⟨x, hx, hxx, hxb⟩ := h.reached
  exact hequiv x b hxb (h.bound x hx hxx) (hP x hx)

theorem Least.map {le' : β → β → Prop} {f : α → β} {P : α → Prop} {b : α} (h : Least le xs b)
    (hP : ∀ x ∈ xs, P x) (hb : P b) (hle : ∀ x y, P x → P y → (le' (f x) (f y) ↔ le x y)) :
    Least le' (xs.map f) (f b) := by
  obtain ⟨x, hx, hxx, hxb⟩ := h.reached
  have hPx := hP x hx
  refine ⟨⟨f x, List.mem_map_of_mem hx, (hle x x hPx hPx).mpr hxx, (hle x b hPx hb).mpr hxb⟩, ?_⟩
  intro y hy hyy
  obtain ⟨x, hx, rfl⟩ := List.mem_map.mp hy
  have hPx := hP x hx
  exact (hle b x hb hPx).mpr (h.bound x hx ((hle x x hPx hPx).mp hyy))

/-- A function that keeps the relation on `P` carries the extremes along. -/
theorem Extremes.map {le' : β → β → Prop} {f : α → β} (P : α → Prop) (h : Extremes le xs m)
    (hP : ∀ x ∈ xs, P x) (hequiv : ∀ x y, le x y → le y x → P x → P y)
    (hle : ∀ x y, P x → P y → (le' (f x) (f y) ↔ le x y)) :
    Extremes le' (xs.map f) (m.map fun p => (f p.1, f p.2)) := by
  cases m with
  | none =>
    intro y hy hyy
    obtain ⟨x, hx, rfl⟩ := List.mem_map.mp hy
    have hPx := hP x hx
    exact h x hx ((hle x x hPx hPx).mp hyy)
  | some p =>
    have hlo : P p.1 := h.1.holds hP hequiv
    have hhi : P p.2 := h.2.holds hP fun x y hyx hxy => hequiv x y hxy hyx
    exact ⟨h.1.map hP hlo hle, h.2.map hP hhi fun x y hx hy => hle y x hy hx⟩

theorem Least.unique (hanti : ∀ x y, le x y → le y x → x = y) {b b' : α} (h : Least le xs b)
    (h' : Least le xs b') : b = b' := by
  have hmem : ∀ {c : α}, Least le xs c → ∃ x ∈ xs, le x x ∧ x = c := by
    intro c hc
    obtain ⟨x, hx, hxx, hxc⟩ := hc.reached
    exact ⟨x, hx, hxx, hanti x c hxc (hc.bound x hx hxx)⟩
  obtain ⟨_, hx, hxx, rfl⟩ := hmem h
  obtain ⟨_, hy, hyy, rfl⟩ := hmem h'
  exact hanti _ _ (h.bound _ hy hyy) (h'.bound _ hx hxx)

/-- Where no two values are `le` each other there is one answer. -/
theorem Extremes.unique (hanti : ∀ x y, le x y → le y x → x = y) (h : Extremes le xs m)
    (h' : Extremes le xs m') : m = m' := by
  have hsome := h.isSome.trans h'.isSome.symm
  cases m with
  | none =>
    cases m' with
    | none => rfl
    | some p' => cases hsome.mpr rfl
  | some p =>
    cases m' with
    | none => cases hsome.mp rfl
    | some p' =>
      have hlo := h.1.unique hanti h'.1
      have hhi := h.2.unique (fun x y hyx hxy => hanti x y hxy hyx) h'.2
      rw [Prod.ext hlo hhi]

/-! ## Finding them -/

/-- Members that are not comparable may be left out. -/
theorem Extremes.of_filter {le : α → α → Bool}
    (h : Extremes (fun a b => le a b) (xs.filter fun x => le x x) m) :
    Extremes (fun a b => le a b) xs m := by
  have hmem : ∀ {x}, x ∈ xs → le x x = true → x ∈ xs.filter fun x => le x x :=
    fun hx hxx => List.mem_filter.mpr ⟨hx, hxx⟩
  cases m with
  | none => exact fun x hx hxx => h x (hmem hx hxx) hxx
  | some p =>
    obtain ⟨⟨⟨x, hx, hreach⟩, hlo⟩, ⟨y, hy, hreach'⟩, hhi⟩ := h
    exact ⟨⟨⟨x, (List.mem_filter.mp hx).1, hreach⟩, fun z hz hzz => hlo z (hmem hz hzz) hzz⟩,
      ⟨y, (List.mem_filter.mp hy).1, hreach'⟩, fun z hz hzz => hhi z (hmem hz hzz) hzz⟩

/-- **A scan that keeps the smaller of two finds a smallest.** -/
theorem Least.foldl {le : α → α → Bool} (htotal : ∀ a b, le a a → le b b → le a b ∨ le b a)
    (htrans : ∀ a b c, le a b → le b c → le a c) (vs : List α) :
    ∀ v, (∀ x ∈ v :: vs, le x x) →
      Least (fun a b => le a b) (v :: vs) (vs.foldl (fun a b => if le b a then b else a) v) := by
  induction vs with
  | nil =>
    intro v hrefl
    have hv := hrefl v List.mem_cons_self
    refine ⟨⟨v, List.mem_cons_self, hv, hv⟩, fun x hx _ => ?_⟩
    rw [List.mem_singleton.mp hx]
    exact hv
  | cons b vs ih =>
    intro v hrefl
    have hv := hrefl v List.mem_cons_self
    have hb := hrefl b (List.mem_cons_of_mem v List.mem_cons_self)
    rw [List.foldl_cons]
    by_cases hle : le b v = true
    · rw [if_pos hle]
      have h := ih b fun x hx => hrefl x (List.mem_cons_of_mem v hx)
      obtain ⟨x, hx, hreach⟩ := h.reached
      refine ⟨⟨x, List.mem_cons_of_mem v hx, hreach⟩, fun y hy hyy => ?_⟩
      rcases List.mem_cons.mp hy with rfl | hy
      · exact htrans _ _ _ (h.bound b List.mem_cons_self hb) hle
      · exact h.bound y hy hyy
    · rw [if_neg hle]
      have hvb : le v b = true := (htotal v b hv hb).resolve_right hle
      have hsub : ∀ x ∈ v :: vs, x ∈ v :: b :: vs := by
        intro x hx
        rcases List.mem_cons.mp hx with rfl | hx
        · exact List.mem_cons_self
        · exact List.mem_cons_of_mem v (List.mem_cons_of_mem b hx)
      have h := ih v fun x hx => hrefl x (hsub x hx)
      obtain ⟨x, hx, hreach⟩ := h.reached
      refine ⟨⟨x, hsub x hx, hreach⟩, fun y hy hyy => ?_⟩
      have hbound := h.bound v List.mem_cons_self hv
      rcases List.mem_cons.mp hy with rfl | hy
      · exact hbound
      rcases List.mem_cons.mp hy with rfl | hy
      · exact htrans _ _ _ hbound hvb
      · exact h.bound y (List.mem_cons_of_mem v hy) hyy

end Extremes
