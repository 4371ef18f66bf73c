import Mathlib.Logic.Relation
import N2P.SchemaTree

/-!
# The calls of `flatten_node`

`NodeCall` is one call's arguments and `Calls` says which calls it makes, so that a fact about what
the recursion passes down (the steps, the child indices, the OPTIONAL flags) is an invariant of
`Calls`, and `LeafOf` is what a leaf call appends.

* `leafOf_of_flattenColumns` — every leaf of a record batch comes from a leaf call.
* `leaf_mapSteps` — a map's step goes to its key or its value.
* `NodeCall.Flat` — outside lists, the child indices and flags are those of the steps.
-/

namespace N2P

open Relation

/-- A call's arguments, but the lists it appends to. -/
structure NodeCall where
  node : ArrowSchema
  name : String
  optional : Bool
  idx : List Nat
  names : List String
  opt : List Bool
  steps : List PathStep

namespace NodeCall

/-- `node->format`, or the empty string. -/
def format (c : NodeCall) : String := c.node.format.getD ""

/-- The call for field `i` of a struct. -/
def field (c : NodeCall) (i : Nat) (child : ArrowSchema) : NodeCall :=
  { node := child, name := child.nameOr, optional := child.nullableChild, idx := c.idx ++ [i],
    names := c.names ++ [child.nameOr], opt := c.opt ++ [child.nullableChild],
    steps := c.steps ++ [{ kind := .struct, optional := c.optional, child := i, repLevel := 0 }] }

/-- The call for a list's element. -/
def element (c : NodeCall) (child : ArrowSchema) : NodeCall :=
  { node := child, name := "element", optional := child.nullableChild, idx := c.idx,
    names := c.names ++ ["list", "element"], opt := c.opt,
    steps := c.steps ++ [listStep c.format c.optional c.steps] }

/-- The call for a map's key (`0`), which is REQUIRED, or its value (`1`). -/
def entry (c : NodeCall) (i : Nat) (child : ArrowSchema) : NodeCall :=
  { node := child, name := if i = 0 then "key" else "value",
    optional := i ≠ 0 && child.nullableChild, idx := c.idx,
    names := c.names ++ ["key_value", if i = 0 then "key" else "value"], opt := c.opt,
    steps := c.steps ++ [mapStep i c.optional c.steps] }

/-- One call makes another. -/
inductive Calls : NodeCall → NodeCall → Prop where
  | field {c : NodeCall} {i : Nat} {child : ArrowSchema} (hf : c.format = "+s")
      (hc : c.node.children[i]? = some child) : Calls c (c.field i child)
  | element {c : NodeCall} {child : ArrowSchema} (hf : c.format = "+l" ∨ c.format = "+L")
      (hc : c.node.children = [child]) : Calls c (c.element child)
  | entry {c : NodeCall} {i : Nat} {entries child : ArrowSchema} (hf : c.format = "+m")
      (hc : c.node.children = [entries]) (he : entries.format = some "+s")
      (hn : entries.children.length = 2) (hi : entries.children[i]? = some child) :
      Calls c (c.entry i child)

/-- The call appends a leaf of this type. -/
structure IsLeaf (c : NodeCall) (spec : ColumnSpec) : Prop where
  struct : c.format ≠ "+s"
  list : ¬ (c.format = "+l" ∨ c.format = "+L")
  map : c.format ≠ "+m"
  spec : mapFormat c.node.format c.name c.optional = .ok spec

/-- The leaf it appends. -/
def leaf (c : NodeCall) (spec : ColumnSpec) : LeafSpec :=
  leafSpec spec c.idx c.names c.opt (c.steps ++ [leafStep spec])

/-- A leaf appended below a call. -/
def LeafOf (c : NodeCall) (leaf : LeafSpec) : Prop :=
  ∃ c' spec, ReflTransGen Calls c c' ∧ c'.IsLeaf spec ∧ leaf = c'.leaf spec

theorem LeafOf.head {c c' : NodeCall} {leaf : LeafSpec} (hc : Calls c c') (h : c'.LeafOf leaf) :
    c.LeafOf leaf := by
  obtain ⟨d, spec, hcalls, hleaf, rfl⟩ := h
  exact ⟨d, spec, .head hc hcalls, hleaf, rfl⟩

end NodeCall

mutual
/-- **Every leaf a call appends comes from a leaf call below it.** -/
theorem leafOf_of_flattenNode : ∀ (node : ArrowSchema) (name : String) (optional : Bool)
    (idx : List Nat) (names : List String) (opt : List Bool) (steps : List PathStep)
    (out out' : Flat), flattenNode node name optional idx names opt steps out = .ok out' →
    ∀ leaf ∈ out'.2, leaf ∈ out.2 ∨
      NodeCall.LeafOf ⟨node, name, optional, idx, names, opt, steps⟩ leaf
  | ⟨format, nm, flags, children, dict⟩, name, optional, idx, names, opt, steps, out, out', h => by
    intro leaf hleaf
    unfold flattenNode at h
    dsimp only at h
    by_cases hs : format.getD "" = "+s"
    · rw [if_pos hs] at h
      exact leafOf_of_flattenFields children
        ⟨⟨format, nm, flags, children, dict⟩, name, optional, idx, names, opt, steps⟩ hs 0 rfl _ _ h
        leaf hleaf
    rw [if_neg hs] at h
    by_cases hl : format.getD "" = "+l" ∨ format.getD "" = "+L"
    · rw [if_pos hl] at h
      match children, h with
      | [], h => cases h
      | _ :: _ :: _, h => cases h
      | [child], h =>
        rcases leafOf_of_flattenNode child _ _ _ _ _ _ _ _ h leaf hleaf with hmem | hof
        · exact .inl hmem
        · exact .inr (.head (.element hl rfl) hof)
    rw [if_neg hl] at h
    by_cases hm : format.getD "" = "+m"
    · rw [if_pos hm] at h
      match children, h with
      | [], h => cases h
      | ⟨_, _, _, [], _⟩ :: _ :: _, h => cases h
      | ⟨_, _, _, [_], _⟩ :: _ :: _, h => cases h
      | ⟨_, _, _, [_, _], _⟩ :: _ :: _, h => cases h
      | ⟨_, _, _, _ :: _ :: _ :: _, _⟩ :: _ :: _, h => cases h
      | [⟨_, _, _, [], _⟩], h => cases h
      | [⟨_, _, _, [_], _⟩], h => cases h
      | [⟨_, _, _, _ :: _ :: _ :: _, _⟩], h => cases h
      | [⟨entriesFormat, _, _, [key, value], _⟩], h =>
        by_cases he : entriesFormat = some "+s"
        swap
        · simp only [if_neg he] at h
          cases h
        simp only [if_pos he] at h
        split at h
        · cases h
        rename_i mid hkey
        rcases leafOf_of_flattenNode value _ _ _ _ _ _ _ _ h leaf hleaf with hmem | hof
        · rcases leafOf_of_flattenNode key _ _ _ _ _ _ _ _ hkey leaf hmem with hmem | hof
          · exact .inl hmem
          · exact .inr (.head (.entry (i := 0) hm rfl he rfl rfl) hof)
        · exact .inr (.head (.entry (i := 1) hm rfl he rfl rfl) hof)
    rw [if_neg hm] at h
    unfold flattenLeaf at h
    split at h
    · cases h
    rename_i spec hspec
    cases h
    rcases List.mem_append.mp hleaf with hmem | hmem
    · exact .inl hmem
    · rw [List.mem_singleton.mp hmem]
      exact .inr ⟨_, spec, .refl, ⟨hs, hl, hm, hspec⟩, rfl⟩

theorem leafOf_of_flattenFields : ∀ (children : List ArrowSchema) (c : NodeCall)
    (_ : c.format = "+s") (i : Nat) (_ : c.node.children.drop i = children) (out out' : Flat),
    flattenFields children i c.optional c.idx c.names c.opt c.steps out = .ok out' →
    ∀ leaf ∈ out'.2, leaf ∈ out.2 ∨ c.LeafOf leaf
  | [], c, hs, i, _, out, out', h => by
    unfold flattenFields at h
    cases h
    exact fun leaf hleaf => .inl hleaf
  | child :: rest, c, hs, i, hdrop, out, out', h => by
    unfold flattenFields at h
    split at h
    · cases h
    rename_i mid hmid
    intro leaf hleaf
    obtain ⟨hi, hrest⟩ := drop_eq_cons hdrop
    rcases leafOf_of_flattenFields rest c hs (i + 1) hrest mid out' h leaf hleaf with hmem | hof
    · rcases leafOf_of_flattenNode child _ _ _ _ _ _ _ _ hmid leaf hmem with hmem | hof
      · exact .inl hmem
      · exact .inr (.head (.field hs hi) hof)
    · exact .inr hof
end

/-- The call for a top-level column. -/
def columnCall (i : Nat) (child : ArrowSchema) : NodeCall :=
  { node := child, name := child.nameOr, optional := child.nullableChild, idx := [i],
    names := [child.nameOr], opt := [child.nullableChild], steps := [] }

/-- A leaf of a record batch's columns. -/
def LeafOfColumns (columns : List ArrowSchema) (leaf : LeafSpec) : Prop :=
  ∃ i child, columns[i]? = some child ∧ (columnCall i child).LeafOf leaf

theorem leafOf_of_flattenColumns_from {columns : List ArrowSchema} (rest : List ArrowSchema)
    (i : Nat) (out out' : Flat) (hdrop : columns.drop i = rest)
    (h : flattenColumns rest i out = .ok out') :
    ∀ leaf ∈ out'.2, leaf ∈ out.2 ∨ LeafOfColumns columns leaf := by
  induction rest generalizing i out with
  | nil =>
    unfold flattenColumns at h
    cases h
    exact fun leaf hleaf => .inl hleaf
  | cons child rest ih =>
    unfold flattenColumns at h
    split at h
    · cases h
    rename_i mid hmid
    intro leaf hleaf
    obtain ⟨hi, hrest⟩ := drop_eq_cons hdrop
    rcases ih (i + 1) mid hrest h leaf hleaf with hmem | hof
    · rcases leafOf_of_flattenNode child _ _ _ _ _ _ _ _ hmid leaf hmem with hmem | hof
      · exact .inl hmem
      · exact .inr ⟨i, child, hi, hof⟩
    · exact .inr hof

/-- **Every leaf of a record batch comes from a leaf call.** -/
theorem leafOf_of_flattenColumns {columns : List ArrowSchema} {nodes : List SchemaNode}
    {leaves : List LeafSpec} (h : flattenColumns columns 0 ([], []) = .ok (nodes, leaves)) :
    ∀ leaf ∈ leaves, LeafOfColumns columns leaf := by
  intro leaf hleaf
  exact (leafOf_of_flattenColumns_from columns 0 _ _ rfl h leaf hleaf).resolve_left (by simp)

/-- The bit widths of a leaf's levels. -/
theorem leaf_bitWidths {columns : List ArrowSchema} {leaf : LeafSpec}
    (h : LeafOfColumns columns leaf) :
    leaf.repBitWidth = dictionaryBitWidth (leaf.maxRepLevel + 1) ∧
      leaf.defBitWidth = dictionaryBitWidth (leaf.maxDefLevel + 1) := by
  obtain ⟨i, child, _, c, spec, _, _, rfl⟩ := h
  exact ⟨rfl, rfl⟩

/-! ## What the calls pass down -/

namespace NodeCall

/-- A property of the steps that each kind of step has holds of all of them. -/
theorem forall_steps {P : PathStep → Prop} {c c' : NodeCall} (h : ReflTransGen Calls c c')
    (hc : ∀ st ∈ c.steps, P st)
    (hstruct : ∀ optional i, P { kind := .struct, optional, child := i, repLevel := 0 })
    (hlist : ∀ format optional steps, P (listStep format optional steps))
    (hmap : ∀ i < 2, ∀ optional steps, P (mapStep i optional steps)) : ∀ st ∈ c'.steps, P st := by
  induction h with
  | refl => exact hc
  | tail _ hstep ih =>
    intro st hst
    cases hstep with
    | field =>
      rcases List.mem_append.mp hst with hst | hst
      · exact ih st hst
      · rw [List.mem_singleton.mp hst]
        exact hstruct _ _
    | element =>
      rcases List.mem_append.mp hst with hst | hst
      · exact ih st hst
      · rw [List.mem_singleton.mp hst]
        exact hlist _ _ _
    | entry _ _ _ hn hi =>
      rcases List.mem_append.mp hst with hst | hst
      · exact ih st hst
      · rw [List.mem_singleton.mp hst]
        have hlt := (List.getElem?_eq_some_iff.mp hi).1
        exact hmap _ (by omega) _ _

end NodeCall

/-- The path to a leaf begins with its column. -/
theorem leaf_pathIdx {columns : List ArrowSchema} {leaf : LeafSpec}
    (h : LeafOfColumns columns leaf) : leaf.pathIdx ≠ [] := by
  obtain ⟨i, child, _, c, spec, hcalls, hleaf, rfl⟩ := h
  show c.idx ≠ []
  clear hleaf
  induction hcalls with
  | refl => exact List.cons_ne_nil i []
  | tail _ hstep ih =>
    cases hstep with
    | field => exact List.append_ne_nil_of_left_ne_nil ih _
    | element => exact ih
    | entry => exact ih

theorem leaf_steps_subset (spec : ColumnSpec) (idx : List Nat) (names : List String)
    (opt : List Bool) (steps : List PathStep) :
    (leafSpec spec idx names opt steps).steps ⊆ steps := by
  unfold leafSpec
  dsimp only
  split
  · exact List.Subset.refl steps
  · exact List.nil_subset steps

/-- A map's step goes to its key or its value. -/
theorem leaf_mapSteps {columns : List ArrowSchema} {leaf : LeafSpec}
    (h : LeafOfColumns columns leaf) : ∀ st ∈ leaf.steps, st.kind = .map → st.child < 2 := by
  obtain ⟨i, child, _, c, spec, hcalls, _, rfl⟩ := h
  intro st hst
  have hmem := leaf_steps_subset _ _ _ _ _ hst
  have hall := NodeCall.forall_steps (P := fun st => st.kind = .map → st.child < 2) hcalls
    (fun st hst => by cases hst) (fun _ _ hk => by cases hk)
    (fun format _ _ hk => by unfold listStep at hk; dsimp only at hk; split at hk <;> cases hk)
    (fun i hi _ _ _ => hi)
  rcases List.mem_append.mp hmem with hmem | hmem
  · exact hall st hmem
  · rw [List.mem_singleton.mp hmem]
    intro hk
    cases hk

/-! ## Outside lists -/

/-- What a call outside lists has been passed, below column `i`. -/
structure NodeCall.Flat (i : Nat) (c : NodeCall) : Prop where
  kinds : ∀ st ∈ c.steps, st.kind = .struct
  idx : c.idx = i :: c.steps.map (·.child)
  opt : c.opt = c.steps.map (·.optional) ++ [c.optional]
  flag : c.optional = c.node.nullableChild

theorem NodeCall.flat_of_calls {i : Nat} {child : ArrowSchema} {c : NodeCall}
    (h : ReflTransGen NodeCall.Calls (columnCall i child) c) (hflat : repLevels c.steps = 0) :
    c.Flat i := by
  induction h with
  | refl => exact ⟨fun st hst => (List.not_mem_nil hst).elim, rfl, rfl, rfl⟩
  | @tail c _ _ hstep ih =>
    cases hstep with
    | @field j node _ _ =>
      have hc : c.Flat i := ih (by
        rw [NodeCall.field, repLevels_append] at hflat
        omega)
      constructor
      · intro st hst
        rcases List.mem_append.mp hst with hst | hst
        · exact hc.kinds st hst
        · rw [List.mem_singleton.mp hst]
      · simp [NodeCall.field, hc.idx]
      · simp [NodeCall.field, hc.opt]
      · rfl
    | element =>
      rw [NodeCall.element, repLevels_append] at hflat
      unfold listStep at hflat
      split at hflat <;> simp [repLevels, StepKind.isList] at hflat
    | entry =>
      rw [NodeCall.entry, repLevels_append] at hflat
      simp [repLevels, StepKind.isList, mapStep] at hflat

/-- The steps `flatten_node` has at a leaf, which it drops outside lists. -/
def LeafSteps (columns : List ArrowSchema) (leaf : LeafSpec) (steps : List PathStep) : Prop :=
  ∃ i child c spec, columns[i]? = some child ∧
    ReflTransGen NodeCall.Calls (columnCall i child) c ∧ c.IsLeaf spec ∧ leaf = c.leaf spec ∧
    steps = c.steps ++ [leafStep spec]

theorem LeafOfColumns.steps {columns : List ArrowSchema} {leaf : LeafSpec}
    (h : LeafOfColumns columns leaf) : ∃ steps, LeafSteps columns leaf steps := by
  obtain ⟨i, child, hc, c, spec, hcalls, hleaf, rfl⟩ := h
  exact ⟨_, i, child, c, spec, hc, hcalls, hleaf, rfl, rfl⟩

/-- A leaf's steps outside lists: structs, then the leaf. -/
structure FlatSteps (leaf : LeafSpec) (steps : List PathStep) : Prop where
  structs : ∃ ss st, steps = ss ++ [st] ∧ st.kind = .leaf ∧ (∀ s ∈ ss, s.kind = .struct) ∧
    ∃ i, leaf.pathIdx = i :: ss.map (·.child)
  opt : leaf.pathOptional = steps.map (·.optional)
  maxDef : leaf.maxDefLevel = defLevels steps
  nullType : leaf.col.extract = .null → ∀ st ∈ steps, st.kind = .leaf → st.optional = true

/-- **Outside lists the path's indices and flags are those of its steps.** -/
theorem LeafSteps.flat {columns : List ArrowSchema} {leaf : LeafSpec} {steps : List PathStep}
    (h : LeafSteps columns leaf steps) (hflat : leaf.hasList = false) : FlatSteps leaf steps := by
  obtain ⟨i, child, c, spec, _, hcalls, hleaf, rfl, rfl⟩ := h
  have hzero : repLevels (c.steps ++ [leafStep spec]) = 0 := by
    simpa [NodeCall.leaf, leafSpec] using hflat
  have hc : c.Flat i := NodeCall.flat_of_calls hcalls (by
    rw [repLevels_append] at hzero
    omega)
  obtain ⟨k, hk, hnull⟩ := mapFormat_kind hleaf.spec
  have hnullable : spec.nullable = c.optional := by
    by_cases hn : k = .null
    · -- a null-typed field counts as nullable wherever it stands
      have hfmt := hnull.mp hn
      rw [hc.flag, hk, hn]
      simp [ColumnKind.spec, ArrowSchema.nullableChild, hfmt]
    · rw [hk]
      cases k <;> first | exact absurd rfl hn | rfl
  constructor
  · exact ⟨c.steps, leafStep spec, rfl, rfl, hc.kinds, i, hc.idx⟩
  · show c.opt = _
    rw [hc.opt, List.map_append, ← hnullable]
    rfl
  · rfl
  · intro hext st hst hkind
    rcases List.mem_append.mp hst with hst | hst
    · rw [hc.kinds st hst] at hkind
      cases hkind
    · have hext : spec.extract = .null := hext
      rw [List.mem_singleton.mp hst]
      show spec.nullable = true
      rw [hk] at hext ⊢
      cases k <;> first | rfl | cases hext

end N2P
