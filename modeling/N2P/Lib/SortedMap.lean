import Mathlib.Order.Lattice
import Mathlib.Data.List.Basic

/-!
# Maps kept sorted by their keys

An ordered map as the list its iteration visits.

* `emplace` — add an entry unless its key is there; `ofEntries` — add entries one by one.
* `sorted_ofEntries` — the keys of a map increase.
* `keys_ofEntries_iff` — the iteration repeats the keys exactly when they increase already.
-/

namespace SortedMap

variable {α β : Type} [LinearOrder α]

/-- Add an entry unless its key is there. -/
def emplace (key : α) (value : β) : List (α × β) → List (α × β)
  | [] => [(key, value)]
  | (k, v) :: rest =>
    if key < k then (key, value) :: (k, v) :: rest
    else if key = k then (k, v) :: rest
    else (k, v) :: emplace key value rest

/-- The map that entries make, added in turn. -/
def ofEntries (entries : List (α × β)) : List (α × β) :=
  entries.foldl (fun map entry => emplace entry.1 entry.2 map) []

/-- The keys increase. -/
def Sorted (map : List (α × β)) : Prop := (map.map (·.1)).Pairwise (· < ·)

/-! ## One entry -/

section Emplace

variable {key : α} {value : β} {map : List (α × β)}

theorem mem_emplace {entry : α × β} (h : entry ∈ emplace key value map) :
    entry = (key, value) ∨ entry ∈ map := by
  induction map with
  | nil => exact .inl (List.mem_singleton.mp h)
  | cons head rest ih =>
    obtain ⟨k, v⟩ := head
    unfold emplace at h
    split_ifs at h with hlt heq
    · exact List.mem_cons.mp h
    · exact .inr h
    · rcases List.mem_cons.mp h with rfl | hrest
      · exact .inr List.mem_cons_self
      · exact (ih hrest).imp id (List.mem_cons_of_mem _)

theorem emplace_ne_nil (key : α) (value : β) (map : List (α × β)) :
    emplace key value map ≠ [] := by
  cases map with
  | nil => exact List.cons_ne_nil _ _
  | cons head rest =>
    unfold emplace
    split_ifs <;> exact List.cons_ne_nil _ _

theorem Sorted.emplace (h : Sorted map) (key : α) (value : β) :
    Sorted (emplace key value map) := by
  induction map with
  | nil => exact List.pairwise_singleton _ _
  | cons entry rest ih =>
    obtain ⟨k, v⟩ := entry
    obtain ⟨hk, hrest⟩ := List.pairwise_cons.mp h
    unfold SortedMap.emplace
    split_ifs with hlt heq
    · refine List.pairwise_cons.mpr ⟨fun x hx => ?_, h⟩
      rcases List.mem_cons.mp hx with rfl | hx
      · exact hlt
      · exact hlt.trans (hk x hx)
    · exact h
    · refine List.pairwise_cons.mpr ⟨fun x hx => ?_, ih hrest⟩
      obtain ⟨entry, hentry, rfl⟩ := List.mem_map.mp hx
      rcases mem_emplace hentry with rfl | hmem
      · exact lt_of_le_of_ne (not_lt.mp hlt) (Ne.symm heq)
      · exact hk _ (List.mem_map_of_mem hmem)

/-- A key above all others goes to the end. -/
theorem emplace_last (h : ∀ k ∈ map.map (·.1), k < key) :
    emplace key value map = map ++ [(key, value)] := by
  induction map with
  | nil => rfl
  | cons entry rest ih =>
    obtain ⟨k, v⟩ := entry
    have hk : k < key := h k List.mem_cons_self
    have hrest := ih fun x hx => h x (List.mem_cons_of_mem _ hx)
    rw [emplace, if_neg hk.asymm, if_neg hk.ne', hrest]
    rfl

/-- A map on the values commutes with adding. -/
theorem emplace_map {γ : Type} (f : β → γ) (key : α) (value : β) (map : List (α × β)) :
    emplace key (f value) (map.map fun e => (e.1, f e.2)) =
      (emplace key value map).map fun e => (e.1, f e.2) := by
  induction map with
  | nil => rfl
  | cons head rest ih =>
    obtain ⟨k, v⟩ := head
    simp only [List.map_cons, emplace, ih]
    split_ifs <;> rfl

end Emplace

/-! ## All entries -/

section OfEntries

variable {entries : List (α × β)}

theorem sorted_ofEntries (entries : List (α × β)) : Sorted (ofEntries entries) :=
  List.foldlRecOn (motive := Sorted) entries _ List.Pairwise.nil
    fun _ hmap added _ => hmap.emplace added.1 added.2

theorem mem_ofEntries {entry : α × β} (h : entry ∈ ofEntries entries) : entry ∈ entries := by
  have hall : ∀ e ∈ ofEntries entries, e ∈ entries :=
    List.foldlRecOn (motive := fun map => ∀ e ∈ map, e ∈ entries) entries _ nofun
      fun map hmap added hadded e he => (mem_emplace he).elim (· ▸ hadded) (hmap e)
  exact hall entry h

theorem ofEntries_ne_nil (h : entries ≠ []) : ofEntries entries ≠ [] := by
  cases entries with
  | nil => exact absurd rfl h
  | cons e rest =>
    exact List.foldlRecOn (motive := (· ≠ [])) rest _ (emplace_ne_nil e.1 e.2 [])
      fun map _ entry _ => emplace_ne_nil entry.1 entry.2 map

/-- A map on the values commutes with building. -/
theorem ofEntries_map {γ : Type} (f : β → γ) (entries : List (α × β)) :
    ofEntries (entries.map fun e => (e.1, f e.2)) =
      (ofEntries entries).map fun e => (e.1, f e.2) := by
  have general : ∀ map : List (α × β),
      (entries.map fun e => (e.1, f e.2)).foldl (fun map entry => emplace entry.1 entry.2 map)
          (map.map fun e => (e.1, f e.2)) =
        (entries.foldl (fun map entry => emplace entry.1 entry.2 map) map).map
          fun e => (e.1, f e.2) := by
    induction entries with
    | nil => exact fun map => rfl
    | cons e rest ih =>
      intro map
      have hfirst := emplace_map f e.1 e.2 map
      rw [List.map_cons, List.foldl_cons, List.foldl_cons, ← ih, ← hfirst]
  exact general []

theorem ofEntries_sorted (h : Sorted entries) : ofEntries entries = entries := by
  have general : ∀ pre : List (α × β), Sorted (pre ++ entries) →
      entries.foldl (fun map entry => emplace entry.1 entry.2 map) pre = pre ++ entries := by
    clear h
    induction entries with
    | nil => simp
    | cons entry rest ih =>
      intro pre hpre
      have hlast : ∀ k ∈ pre.map (·.1), k < entry.1 := by
        intro k hk
        unfold Sorted at hpre
        rw [List.map_append, List.pairwise_append] at hpre
        exact hpre.2.2 k hk entry.1 List.mem_cons_self
      rw [List.foldl_cons, emplace_last hlast, ih]
      · simp
      · simpa using hpre
  exact general [] h

/-- **The iteration repeats the keys** exactly when they increase. -/
theorem keys_ofEntries_iff :
    (ofEntries entries).map (·.1) = entries.map (·.1) ↔ Sorted entries := by
  constructor
  · intro h
    have hsorted := sorted_ofEntries entries
    unfold Sorted at hsorted ⊢
    rwa [h] at hsorted
  · intro h
    rw [ofEntries_sorted h]

end OfEntries

end SortedMap
