import Mathlib.Data.List.Basic
import Mathlib.Data.List.Flatten

/-!
# Trees and their pre-order lists

A tree is stored as the pre-order list of its labels, each label saying how many children its
node has (`count`).  `decode` is the reader: it scans the list from its end and keeps the trees
read so far, and a label takes its children from them.

* `decode_preorder` — a tree whose labels count its children is read back from its pre-order list.
* `preorder_injective` — so such a list describes one tree only.
* `paths` — the label paths from the root to the nodes that satisfy a predicate, in pre-order.
-/

namespace Preorder

inductive RoseTree (α : Type) where
  | node (label : α) (children : List (RoseTree α))

namespace RoseTree

variable {α β : Type}

def label : RoseTree α → α
  | node a _ => a

mutual
def preorder : RoseTree α → List α
  | node a ts => a :: preorders ts

def preorders : List (RoseTree α) → List α
  | [] => []
  | t :: ts => preorder t ++ preorders ts
end

mutual
/-- Every label counts its node's children. -/
def Counted (count : α → Nat) : RoseTree α → Prop
  | node a ts => count a = ts.length ∧ CountedAll count ts

def CountedAll (count : α → Nat) : List (RoseTree α) → Prop
  | [] => True
  | t :: ts => Counted count t ∧ CountedAll count ts
end

mutual
def map (f : α → β) : RoseTree α → RoseTree β
  | node a ts => node (f a) (maps f ts)

def maps (f : α → β) : List (RoseTree α) → List (RoseTree β)
  | [] => []
  | t :: ts => map f t :: maps f ts
end

mutual
/-- Paths from the root to the nodes whose label satisfies `p`; such a node ends its path. -/
def paths (p : α → Bool) : RoseTree α → List (List α)
  | node a ts => if p a then [[a]] else (pathsAll p ts).map (a :: ·)

def pathsAll (p : α → Bool) : List (RoseTree α) → List (List α)
  | [] => []
  | t :: ts => paths p t ++ pathsAll p ts
end

/-! ## Forests -/

@[simp] theorem length_maps (f : α → β) (ts : List (RoseTree α)) :
    (maps f ts).length = ts.length := by
  induction ts with
  | nil => rfl
  | cons t ts ih => simp [maps, ih]

mutual
theorem preorder_map (f : α → β) : ∀ t : RoseTree α, (map f t).preorder = t.preorder.map f
  | node a ts => by simp [map, preorder, preorders_maps f ts]

theorem preorders_maps (f : α → β) :
    ∀ ts : List (RoseTree α), preorders (maps f ts) = (preorders ts).map f
  | [] => rfl
  | t :: ts => by simp [maps, preorders, preorder_map f t, preorders_maps f ts]
end

mutual
theorem counted_map {f : α → β} {count : β → Nat} :
    ∀ t : RoseTree α, Counted count (map f t) ↔ Counted (fun a => count (f a)) t
  | node a ts => by simp [map, Counted, countedAll_maps ts]

theorem countedAll_maps {f : α → β} {count : β → Nat} :
    ∀ ts : List (RoseTree α), CountedAll count (maps f ts) ↔ CountedAll (fun a => count (f a)) ts
  | [] => by simp [maps, CountedAll]
  | t :: ts => by simp [maps, CountedAll, counted_map t, countedAll_maps ts]
end

mutual
theorem paths_map (f : α → β) (p : β → Bool) :
    ∀ t : RoseTree α, paths p (map f t) = (paths (fun a => p (f a)) t).map (List.map f)
  | node a ts => by
    simp only [map, paths, pathsAll_maps f p ts]
    split
    · rfl
    · simp [Function.comp_def]

theorem pathsAll_maps (f : α → β) (p : β → Bool) :
    ∀ ts : List (RoseTree α),
      pathsAll p (maps f ts) = (pathsAll (fun a => p (f a)) ts).map (List.map f)
  | [] => rfl
  | t :: ts => by simp [maps, pathsAll, paths_map f p t, pathsAll_maps f p ts]
end

end RoseTree

open RoseTree

variable {α : Type}

/-- One label: take its children off the trees read so far. -/
def step (count : α → Nat) (a : α) (stack : Option (List (RoseTree α))) :
    Option (List (RoseTree α)) :=
  match stack with
  | none => none
  | some ts =>
    if count a ≤ ts.length then some (node a (ts.take (count a)) :: ts.drop (count a)) else none

/-- Read a forest. -/
def decodeForest (count : α → Nat) (l : List α) : Option (List (RoseTree α)) :=
  l.foldr (step count) (some [])

/-- Read one tree, with nothing left over. -/
def decode (count : α → Nat) (l : List α) : Option (RoseTree α) :=
  match decodeForest count l with
  | some [t] => some t
  | _ => none

mutual
theorem foldr_step_preorder {count : α → Nat} : ∀ (t : RoseTree α), Counted count t →
    ∀ ts, t.preorder.foldr (step count) (some ts) = some (t :: ts)
  | node a cs, h, ts => by
    simp only [Counted] at h
    simp only [preorder, List.foldr_cons, foldr_step_preorders cs h.2 ts, step]
    simp [h.1]

theorem foldr_step_preorders {count : α → Nat} : ∀ (cs : List (RoseTree α)), CountedAll count cs →
    ∀ ts, (preorders cs).foldr (step count) (some ts) = some (cs ++ ts)
  | [], _, ts => rfl
  | c :: cs, h, ts => by
    simp only [CountedAll] at h
    rw [preorders, List.foldr_append, foldr_step_preorders cs h.2 ts, foldr_step_preorder c h.1]
    rfl
end

/-- **A counted tree is read back from its pre-order list.** -/
theorem decode_preorder {count : α → Nat} {t : RoseTree α} (h : Counted count t) :
    decode count t.preorder = some t := by
  unfold decode decodeForest
  rw [foldr_step_preorder t h []]

/-- A pre-order list with counts describes one tree only. -/
theorem preorder_injective {count : α → Nat} {t u : RoseTree α} (ht : Counted count t)
    (hu : Counted count u) (h : t.preorder = u.preorder) : t = u := by
  have h1 := decode_preorder ht
  rw [h, decode_preorder hu] at h1
  exact (Option.some.inj h1).symm

end Preorder
