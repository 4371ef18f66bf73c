import Mathlib.Data.List.Forall2
import N2P.Lib.Preorder
import N2P.ColumnKinds
import N2P.Writer

/-!
# What flattening produces

`flattenNode` threads five accumulators.  A `Branch` is one leaf below a schema node with what
each accumulator gained between the node and the leaf, and `Branch.leaf` puts it under the
accumulators' values at the node.  `flattenNode_spec` says all there is to say about a successful
call: the nodes it appends are the pre-order of one tree whose groups count their children, the
leaves it appends are the branches of that tree in order, and each branch agrees with its path
(`BranchOk`).  `flattenColumns_spec` is the same for a whole record batch.

`Conforms` and `leafArrays` give an array tree of a schema's shape and the arrays of its leaves in
depth-first order; a branch outside lists reaches its own (`ReachedBy`).
-/

namespace N2P

open Preorder Preorder.RoseTree

/-! ## Repetitions and steps -/

/-- The repetition of a schema node, as `schemaElement` gives it. -/
def SchemaNode.repetition (s : SchemaNode) : FieldRepetitionType :=
  if s.repeated then .repeated else if s.optional then .optional else .required

/-- The Parquet nodes one Arrow node stands for. -/
def PathStep.repetitions (st : PathStep) : List FieldRepetitionType :=
  (if st.optional then .optional else .required) :: if st.kind.isList then [.repeated] else []

def stepRepetitions (sts : List PathStep) : List FieldRepetitionType :=
  sts.flatMap PathStep.repetitions

@[simp] theorem stepRepetitions_nil : stepRepetitions [] = [] := rfl

@[simp] theorem stepRepetitions_cons (st : PathStep) (sts : List PathStep) :
    stepRepetitions (st :: sts) = st.repetitions ++ stepRepetitions sts := rfl

theorem maxDef_stepRepetitions (sts : List PathStep) :
    Dremel.maxDef (stepRepetitions sts) = defLevels sts := by
  induction sts with
  | nil => rfl
  | cons st sts ih =>
    unfold Dremel.maxDef at *
    rw [stepRepetitions_cons, List.countP_append, ih, defLevels]
    congr 1
    unfold PathStep.repetitions
    cases st.optional <;> cases st.kind <;> rfl

theorem maxRep_stepRepetitions (sts : List PathStep) :
    Dremel.maxRep (stepRepetitions sts) = repLevels sts := by
  induction sts with
  | nil => rfl
  | cons st sts ih =>
    unfold Dremel.maxRep at *
    rw [stepRepetitions_cons, List.countP_append, ih, repLevels]
    congr 1
    unfold PathStep.repetitions
    cases st.optional <;> cases st.kind <;> rfl

theorem repLevels_append (xs ys : List PathStep) :
    repLevels (xs ++ ys) = repLevels xs + repLevels ys := by
  induction xs with
  | nil => simp [repLevels]
  | cons x xs ih => simp only [List.cons_append, repLevels, ih]; omega

/-- A list of steps below `k` lists: every list carries its own level and the leaf comes last. -/
def StepsFrom : Nat → List PathStep → Prop
  | _, [] => False
  | k, st :: rest =>
    match st.kind with
    | .leaf => rest = []
    | .struct => StepsFrom k rest
    | _ => st.repLevel = k + 1 ∧ StepsFrom (k + 1) rest

theorem StepsFrom.leaf {k : Nat} {st : PathStep} {rest : List PathStep}
    (h : StepsFrom k (st :: rest)) (hk : st.kind = .leaf) : rest = [] := by
  simpa [StepsFrom, hk] using h

theorem StepsFrom.struct {k : Nat} {st : PathStep} {rest : List PathStep}
    (h : StepsFrom k (st :: rest)) (hk : st.kind = .struct) : StepsFrom k rest := by
  simpa [StepsFrom, hk] using h

theorem StepsFrom.list {k : Nat} {st : PathStep} {rest : List PathStep}
    (h : StepsFrom k (st :: rest)) (hk : st.kind.isList) :
    st.repLevel = k + 1 ∧ StepsFrom (k + 1) rest := by
  unfold StepsFrom at h
  cases hkind : st.kind <;> simp_all [StepKind.isList]

/-! ## Arrays of a schema's shape -/

/-- The formats whose arrays have child arrays: structs, lists, large lists and maps. -/
def IsNested (format : String) : Prop := format ∈ ["+s", "+l", "+L", "+m"]

mutual
/-- The array tree has the schema's children at every nested node.  What the children pointer of a
    leaf's array is does not matter; it is mostly null. -/
def Conforms : ArrowSchema → ArrowArray → Prop
  | ⟨format, _, _, children, _⟩, a =>
    IsNested (format.getD "") → a.nChildren = (a.children.getD []).length ∧
      ConformsAll children (a.children.getD [])

def ConformsAll : List ArrowSchema → List ArrowArray → Prop
  | [], arrays => arrays = []
  | c :: cs, arrays => ∃ x xs, arrays = x :: xs ∧ Conforms c x ∧ ConformsAll cs xs
end

mutual
/-- The arrays of the leaves, in depth-first order. -/
def leafArrays : ArrowSchema → ArrowArray → List ArrowArray
  | ⟨format, _, _, children, _⟩, a =>
    let f := format.getD ""
    if f = "+s" then fieldArrays children (a.children.getD [])
    else if f = "+l" ∨ f = "+L" then
      match children, a.children.getD [] with
      | [child], [x] => leafArrays child x
      | _, _ => []
    else if f = "+m" then
      match children, a.children.getD [] with
      | [⟨_, _, _, [key, value], _⟩], [entries] =>
        match entries.children.getD [] with
        | [x, y] => leafArrays key x ++ leafArrays value y
        | _ => []
      | _, _ => []
    else [a]

def fieldArrays : List ArrowSchema → List ArrowArray → List ArrowArray
  | [], _ => []
  | _ :: _, [] => []
  | c :: cs, x :: xs => leafArrays c x ++ fieldArrays cs xs
end

/-- Following the child indices from an array reaches another. -/
def ReachedBy (a : ArrowArray) (idx : List Nat) (x : ArrowArray) : Prop :=
  ∃ nodes, followIdx idx a = .ok nodes ∧ (a :: nodes).getLast? = some x

theorem ReachedBy.refl (a : ArrowArray) : ReachedBy a [] a := ⟨[], rfl, rfl⟩

theorem ReachedBy.child {a c x : ArrowArray} {i : Nat} {idx : List Nat}
    (hn : a.nChildren = (a.children.getD []).length) (hi : (a.children.getD [])[i]? = some c)
    (h : ReachedBy c idx x) : ReachedBy a (i :: idx) x := by
  obtain ⟨nodes, hf, hl⟩ := h
  obtain ⟨arrays, ha⟩ : ∃ arrays, a.children = some arrays := by
    cases ha : a.children with
    | none =>
      rw [ha] at hi
      cases hi
    | some arrays => exact ⟨arrays, rfl⟩
  rw [ha, Option.getD_some] at hn hi
  have hlt : i < arrays.length := (List.getElem?_eq_some_iff.mp hi).1
  refine ⟨c :: nodes, ?_, ?_⟩
  · unfold followIdx
    rw [if_neg (by rw [ha, hn]; simp; omega)]
    simp only [ArrowArray.child, ha, hi, hf]
    rfl
  · rw [List.getLast?_cons_cons]; exact hl

/-! ## Branches -/

/-- One leaf below a schema node: its path of schema nodes and what the accumulators gained. -/
structure Branch where
  path : List SchemaNode
  steps : List PathStep
  idx : List Nat
  opt : List Bool
  spec : ColumnSpec

/-- The leaf, under the accumulators' values at the node. -/
def Branch.leaf (idx : List Nat) (names : List String) (opt : List Bool) (steps : List PathStep)
    (b : Branch) : LeafSpec :=
  leafSpec b.spec (idx ++ b.idx) (names ++ b.path.tail.map (·.name)) (opt ++ b.opt)
    (steps ++ b.steps)

/-- The same branch seen from above: through the nodes `g :: pre` that step `st` stands for. -/
def Branch.under (b : Branch) (g : SchemaNode) (pre : List SchemaNode) (st : PathStep)
    (idx : List Nat) (opt : List Bool) : Branch :=
  { path := g :: (pre ++ b.path), steps := st :: b.steps, idx := idx ++ b.idx, opt := opt ++ b.opt,
    spec := b.spec }

/-- A branch agrees with its path; `flagged` says the node's OPTIONAL flag is its schema's. -/
structure BranchOk (name : String) (optional : Bool) (flagged : Prop) (k : Nat) (b : Branch) :
    Prop where
  steps : StepsFrom k b.steps
  reps : stepRepetitions b.steps = b.path.map (·.repetition)
  head : ∃ g below, b.path = g :: below ∧ g.name = name
  leaf : b.path.getLast? = some (leafNode b.spec)
  kind : ∃ (k : ColumnKind) (nm : String) (o : Bool), b.spec = k.spec nm o
  flat : repLevels b.steps = 0 → flagged → b.path.map (·.optional) = optional :: b.opt

/-- Going up one Arrow node moves its share of the accumulators into the branch. -/
theorem Branch.leaf_under {b : Branch} {name : String} {optional : Bool} {flagged : Prop} {k : Nat}
    (h : BranchOk name optional flagged k b) (g : SchemaNode) (pre : List SchemaNode)
    (st : PathStep) (is : List Nat) (os : List Bool) (idx : List Nat) (names : List String)
    (opt : List Bool) (steps : List PathStep) :
    b.leaf (idx ++ is) (names ++ (pre.map (·.name) ++ [name])) (opt ++ os) (steps ++ [st]) =
      (b.under g pre st is os).leaf idx names opt steps := by
  obtain ⟨g', below, hp, hn⟩ := h.head
  simp [Branch.leaf, Branch.under, hp, hn]

/-- A branch stays in agreement below a struct. -/
theorem BranchOk.struct {b : Branch} {name : String} {optional : Bool} {flagged : Prop} {k i : Nat}
    (h : BranchOk name optional flagged k b) (hf : flagged) {g : SchemaNode}
    (hr : g.repeated = false) :
    BranchOk g.name g.optional True k
      (b.under g [] { kind := .struct, optional := g.optional, child := i } [i] [optional]) where
  steps := h.steps
  reps := by
    simp [Branch.under, h.reps, PathStep.repetitions, StepKind.isList, SchemaNode.repetition, hr]
  head := ⟨g, b.path, by simp [Branch.under], rfl⟩
  leaf := by
    obtain ⟨g', below, hp, _⟩ := h.head
    have hl := h.leaf
    simp only [Branch.under, List.nil_append]
    rw [hp] at hl ⊢
    rw [List.getLast?_cons_cons, hl]
  kind := h.kind
  flat := fun h0 _ => by
    have h0' : repLevels b.steps = 0 := by
      simpa [Branch.under, repLevels, StepKind.isList] using h0
    simpa [Branch.under] using h.flat h0' hf

/-- A branch stays in agreement below a list or map. -/
theorem BranchOk.list {b : Branch} {name : String} {optional flag : Bool} {flagged flagged' : Prop}
    {k : Nat} (h : BranchOk name optional flagged (k + 1) b) {st : PathStep}
    (hst : st.kind.isList = true) (ho : st.optional = flag) (hk : st.repLevel = k + 1)
    {g r : SchemaNode} (hg : g.repetition = if flag then .optional else .required)
    (hr : r.repetition = .repeated) (is : List Nat) (os : List Bool) :
    BranchOk g.name flag flagged' k (b.under g [r] st is os) where
  steps := by
    have hs := h.steps
    simp only [Branch.under, StepsFrom]
    cases hkind : st.kind <;> simp_all [StepKind.isList]
  reps := by
    simp [Branch.under, h.reps, PathStep.repetitions, hst, ho, hg, hr]
  head := ⟨g, r :: b.path, by simp [Branch.under], rfl⟩
  leaf := by
    obtain ⟨g', below, hp, _⟩ := h.head
    have hl := h.leaf
    simp only [Branch.under, List.cons_append, List.nil_append]
    rw [hp] at hl ⊢
    rw [List.getLast?_cons_cons, List.getLast?_cons_cons, hl]
  kind := h.kind
  flat := fun h0 => by
    simp [Branch.under, repLevels, hst] at h0

/-- The child count a footer node declares. -/
def SchemaNode.childCount (s : SchemaNode) : Nat := if s.isGroup then s.numChildren else 0

/-- A leaf node: no group. -/
def SchemaNode.isLeaf (s : SchemaNode) : Bool := !s.isGroup

/-- A branch outside lists reaches its leaf array. -/
def Reaches (a : ArrowArray) (b : Branch) (x : ArrowArray) : Prop :=
  repLevels b.steps = 0 → ReachedBy a b.idx x

/-! ## One call of `flatten_node` -/

/-- The tree and the branches a call appends. -/
structure Flattened (node : ArrowSchema) (name : String) (optional : Bool) (idx : List Nat)
    (names : List String) (opt : List Bool) (steps : List PathStep) (out out' : Flat)
    (t : RoseTree SchemaNode) (bs : List Branch) : Prop where
  nodes : out'.1 = out.1 ++ t.preorder
  leaves : out'.2 = out.2 ++ bs.map (Branch.leaf idx names opt steps)
  counted : Counted SchemaNode.childCount t
  paths : paths SchemaNode.isLeaf t = bs.map (·.path)
  ok : ∀ b ∈ bs, BranchOk name optional (optional = node.nullableChild) (repLevels steps) b
  arrays : ∀ a, Conforms node a → List.Forall₂ (Reaches a) bs (leafArrays node a)

/-- The same for the children of the struct group `g`, from child `i` on. -/
structure FieldsFlattened (children : List ArrowSchema) (i : Nat) (g : SchemaNode)
    (idx : List Nat) (names : List String) (opt : List Bool) (steps : List PathStep)
    (out out' : Flat) (ts : List (RoseTree SchemaNode)) (bs : List Branch) : Prop where
  nodes : out'.1 = out.1 ++ preorders ts
  leaves : out'.2 = out.2 ++ bs.map (Branch.leaf idx names opt steps)
  length : ts.length = children.length
  counted : CountedAll SchemaNode.childCount ts
  paths : (pathsAll SchemaNode.isLeaf ts).map (g :: ·) = bs.map (·.path)
  ok : ∀ b ∈ bs, BranchOk g.name g.optional True (repLevels steps) b
  arrays : ∀ a, a.nChildren = (a.children.getD []).length →
    ConformsAll children ((a.children.getD []).drop i) →
      List.Forall₂ (Reaches a) bs (fieldArrays children ((a.children.getD []).drop i))

/-- The step a leaf stands for. -/
def leafStep (spec : ColumnSpec) : PathStep :=
  { kind := .leaf, optional := spec.nullable, child := 0, repLevel := 0 }

/-- A leaf as a branch of itself. -/
def leafBranch (spec : ColumnSpec) : Branch :=
  { path := [leafNode spec], steps := [leafStep spec], idx := [], opt := [], spec }

theorem flattenLeaf_spec {node : ArrowSchema} {name : String} {optional : Bool} {idx : List Nat}
    {names : List String} {opt : List Bool} {steps : List PathStep} {out out' : Flat}
    (hs : node.format.getD "" ≠ "+s")
    (hl : ¬(node.format.getD "" = "+l" ∨ node.format.getD "" = "+L"))
    (hm : node.format.getD "" ≠ "+m")
    (h : flattenLeaf node.format name optional idx names opt steps out = .ok out') :
    ∃ t bs, Flattened node name optional idx names opt steps out out' t bs := by
  unfold flattenLeaf at h
  split at h
  · cases h
  rename_i spec hspec
  cases h
  obtain ⟨k, hk, hnull⟩ := mapFormat_kind hspec
  have hname : spec.name = name := by rw [hk]; exact k.spec_name name optional
  refine ⟨.node (leafNode spec) [], [leafBranch spec], ?_⟩
  constructor
  · simp [preorder, preorders]
  · simp [Branch.leaf, leafBranch, leafStep]
  · simp [Counted, CountedAll, SchemaNode.childCount, leafNode]
  · simp [RoseTree.paths, SchemaNode.isLeaf, leafNode, leafBranch]
  · intro b hb
    rw [List.mem_singleton] at hb
    subst hb
    constructor
    · simp [leafBranch, leafStep, StepsFrom]
    · simp [leafBranch, leafStep, PathStep.repetitions, StepKind.isList, leafNode,
        SchemaNode.repetition]
    · exact ⟨leafNode spec, [], rfl, hname⟩
    · rfl
    · exact ⟨k, name, optional, hk⟩
    · intro _ hflag
      simp only [leafBranch, List.map_cons, List.map_nil, leafNode, List.cons.injEq, and_true]
      by_cases hn : k = .null
      · -- the null type is OPTIONAL whatever its flag, and so is every parent's view of it
        have hfmt := hnull.mp hn
        rw [hk, hn, hflag]
        simp [ColumnKind.spec, ArrowSchema.nullableChild, hfmt]
      · rw [hk]
        cases k <;> first | exact absurd rfl hn | rfl
  · intro a _
    obtain ⟨format, nm, flags, children, dict⟩ := node
    have harr : leafArrays ⟨format, nm, flags, children, dict⟩ a = [a] := by
      unfold leafArrays
      simp only at hs hl hm
      simp only [if_neg hs, if_neg hl, if_neg hm]
    rw [harr]
    exact .cons (fun _ => ReachedBy.refl a) .nil

/-- The head and the tail of what is left after `i` elements. -/
theorem drop_eq_cons {α : Type} {l xs : List α} {x : α} {i : Nat} (h : l.drop i = x :: xs) :
    l[i]? = some x ∧ l.drop (i + 1) = xs := by
  refine ⟨?_, ?_⟩
  · rw [← List.head?_drop, h, List.head?_cons]
  · rw [← List.tail_drop, h, List.tail_cons]

/-- A struct node: its group above the trees of its fields. -/
theorem Flattened.ofFields {children : List ArrowSchema} {format nm : Option String} {flags : Nat}
    {dict : Option ArrowSchema} {name : String} {optional : Bool} {idx : List Nat}
    {names : List String} {opt : List Bool} {steps : List PathStep} {out out' : Flat}
    {ts : List (RoseTree SchemaNode)} {bs : List Branch} {g : SchemaNode}
    (hs : format.getD "" = "+s")
    (hg : g =
      { isGroup := true, name := name, optional := optional, numChildren := children.length })
    (h : FieldsFlattened children 0 g idx names opt steps (out.1 ++ [g], out.2) out' ts bs) :
    Flattened ⟨format, nm, flags, children, dict⟩ name optional idx names opt steps out out'
      (.node g ts) bs := by
  constructor
  · rw [h.nodes, preorder]; simp
  · exact h.leaves
  · refine ⟨?_, h.counted⟩
    rw [h.length, hg]
    rfl
  · rw [RoseTree.paths, if_neg (by rw [hg]; simp [SchemaNode.isLeaf])]
    exact h.paths
  · intro b hb
    have hok := h.ok b hb
    rw [hg] at hok
    exact ⟨hok.steps, hok.reps, hok.head, hok.leaf, hok.kind, fun h0 _ => hok.flat h0 trivial⟩
  · intro a ha
    rw [Conforms] at ha
    obtain ⟨hn, hall⟩ := ha (by rw [hs]; simp [IsNested])
    have := h.arrays a hn (by simpa using hall)
    unfold leafArrays
    simpa [hs] using this

/-- The fields of a struct: one field's branches before those of the rest. -/
theorem FieldsFlattened.cons {child : ArrowSchema} {rest : List ArrowSchema} {i : Nat}
    {g : SchemaNode} {idx : List Nat} {names : List String} {opt : List Bool}
    {steps : List PathStep} {out mid out' : Flat} {t : RoseTree SchemaNode}
    {ts : List (RoseTree SchemaNode)} {bs cs : List Branch} (hr : g.repeated = false)
    (h1 : Flattened child child.nameOr child.nullableChild (idx ++ [i]) (names ++ [child.nameOr])
      (opt ++ [child.nullableChild])
      (steps ++ [{ kind := .struct, optional := g.optional, child := i, repLevel := 0 }])
      out mid t bs)
    (h2 : FieldsFlattened rest (i + 1) g idx names opt steps mid out' ts cs) :
    ∃ ds, FieldsFlattened (child :: rest) i g idx names opt steps out out' (t :: ts) ds := by
  let up (b : Branch) : Branch :=
    b.under g [] { kind := .struct, optional := g.optional, child := i } [i] [child.nullableChild]
  have hk : repLevels (steps ++ [{ kind := .struct, optional := g.optional, child := i }]) =
      repLevels steps := by
    simp [repLevels_append, repLevels, StepKind.isList]
  have hok : ∀ b ∈ bs, BranchOk child.nameOr child.nullableChild
      (child.nullableChild = child.nullableChild) (repLevels steps) b := by
    intro b hb
    have := h1.ok b hb
    rwa [hk] at this
  refine ⟨bs.map up ++ cs, ?_⟩
  constructor
  · rw [h2.nodes, h1.nodes, preorders, List.append_assoc]
  · rw [h2.leaves, h1.leaves, List.map_append, List.map_map, List.append_assoc]
    congr 2
    refine List.map_congr_left fun b hb => ?_
    exact Branch.leaf_under (hok b hb) g [] _ [i] [child.nullableChild] idx names opt steps
  · simp [h2.length]
  · exact ⟨h1.counted, h2.counted⟩
  · rw [pathsAll, List.map_append, h2.paths, h1.paths, List.map_append, List.map_map, List.map_map]
    rfl
  · intro b hb
    rcases List.mem_append.mp hb with hb | hb
    · obtain ⟨b0, hb0, rfl⟩ := List.mem_map.mp hb
      exact (hok b0 hb0).struct rfl hr
    · exact h2.ok b hb
  · intro a hn hall
    simp only [ConformsAll] at hall
    obtain ⟨x, xs, hx, hcx, hcxs⟩ := hall
    obtain ⟨hi, hxs⟩ := drop_eq_cons hx
    rw [hx, fieldArrays]
    refine List.rel_append ?_ ?_
    · rw [List.forall₂_map_left_iff]
      refine (h1.arrays x hcx).imp fun b y hby h0 => ?_
      have h0' : repLevels b.steps = 0 := by
        simpa [up, Branch.under, repLevels, StepKind.isList] using h0
      exact ReachedBy.child hn hi (hby h0')
    · rw [← hxs]
      exact h2.arrays a hn (by rw [hxs]; exact hcxs)

/-- The branches below a list or map, seen from its group `g` through the repeated group `r`. -/
def upList (g r : SchemaNode) (st : PathStep) (bs : List Branch) : List Branch :=
  bs.map fun b => b.under g [r] st [] []

theorem upList_paths (g r : SchemaNode) (st : PathStep) (bs : List Branch) :
    (upList g r st bs).map Branch.path = (bs.map Branch.path).map fun p => g :: r :: p := by
  simp [upList, Branch.under, Function.comp_def]

/-- What a list's or map's child contributes to it. -/
structure ListChild (child : ArrowSchema) (optional : Bool) (g : SchemaNode) (idx : List Nat)
    (names : List String) (opt : List Bool) (steps : List PathStep) (out mid : Flat)
    (t : RoseTree SchemaNode) (ds : List Branch) : Prop where
  nodes : mid.1 = out.1 ++ t.preorder
  leaves : mid.2 = out.2 ++ ds.map (Branch.leaf idx names opt steps)
  counted : Counted SchemaNode.childCount t
  ok : ∀ flagged : Prop, ∀ b ∈ ds, BranchOk g.name optional flagged (repLevels steps) b
  arrays : ∀ a x, Conforms child x → List.Forall₂ (Reaches a) ds (leafArrays child x)

theorem Flattened.listChild {child : ArrowSchema} {cname : String} {copt optional : Bool}
    {idx : List Nat} (names : List String) {opt : List Bool} {steps : List PathStep}
    {out mid : Flat} {t : RoseTree SchemaNode} {bs : List Branch} {g r : SchemaNode} {st : PathStep}
    (hst : st.kind.isList = true) (ho : st.optional = optional)
    (hk : st.repLevel = repLevels steps + 1)
    (hg : g.repetition = if optional then .optional else .required)
    (hr : r.repetition = .repeated)
    (h : Flattened child cname copt idx (names ++ [r.name, cname]) opt (steps ++ [st])
      out mid t bs) :
    ListChild child optional g idx names opt steps out mid t (upList g r st bs) := by
  have hlv : repLevels (steps ++ [st]) = repLevels steps + 1 := by
    simp [repLevels_append, repLevels, hst]
  have hok : ∀ b ∈ bs,
      BranchOk cname copt (copt = child.nullableChild) (repLevels steps + 1) b := by
    intro b hb
    have := h.ok b hb
    rwa [hlv] at this
  constructor
  · exact h.nodes
  · rw [h.leaves, upList, List.map_map]
    congr 1
    refine List.map_congr_left fun b hb => ?_
    have := Branch.leaf_under (hok b hb) g [r] st [] [] idx names opt steps
    simpa using this
  · exact h.counted
  · intro flagged b hb
    obtain ⟨b0, hb0, rfl⟩ := List.mem_map.mp hb
    exact (hok b0 hb0).list hst ho hk hg hr [] []
  · intro a x hx
    unfold upList
    rw [List.forall₂_map_left_iff]
    refine (h.arrays x hx).imp fun b y _ h0 => ?_
    simp [Branch.under, repLevels, hst] at h0

/-- The group a list or map opens. -/
def outerGroup (name : String) (optional isMap : Bool) : SchemaNode :=
  { isGroup := true, name := name, optional := optional, numChildren := 1,
    listGroup := !isMap, mapGroup := isMap }

/-- The repeated group inside it. -/
def repeatedGroup (isMap : Bool) : SchemaNode :=
  { isGroup := true, name := if isMap then "key_value" else "list", repeated := true,
    numChildren := if isMap then 2 else 1 }

theorem listNodes_eq (name : String) (optional isMap : Bool) :
    listNodes name optional isMap = [outerGroup name optional isMap, repeatedGroup isMap] := rfl

theorem outerGroup_repetition (name : String) (optional isMap : Bool) :
    (outerGroup name optional isMap).repetition = if optional then .optional else .required := by
  cases optional <;> rfl

/-- The step a list pushes. -/
def listStep (format : String) (optional : Bool) (steps : List PathStep) : PathStep :=
  { kind := if format = "+L" then .largeList else .list, optional, child := 0,
    repLevel := repLevels steps + 1 }

/-- The step a map pushes towards its key (`0`) or value (`1`). -/
def mapStep (child : Nat) (optional : Bool) (steps : List PathStep) : PathStep :=
  { kind := .map, optional, child, repLevel := repLevels steps + 1 }

theorem Flattened.ofList {format : Option String} {nm : Option String} {flags : Nat}
    {child : ArrowSchema} {dict : Option ArrowSchema} {name : String} {optional : Bool}
    {idx : List Nat} {names : List String} {opt : List Bool} {steps : List PathStep}
    {out out' : Flat} {t : RoseTree SchemaNode} {bs : List Branch}
    (hs : format.getD "" ≠ "+s") (hl : format.getD "" = "+l" ∨ format.getD "" = "+L")
    (hc : Flattened child "element" child.nullableChild idx (names ++ ["list", "element"]) opt
      (steps ++ [listStep (format.getD "") optional steps])
      (out.1 ++ listNodes name optional false, out.2) out' t bs) :
    Flattened ⟨format, nm, flags, [child], dict⟩ name optional idx names opt steps out out'
      (.node (outerGroup name optional false) [.node (repeatedGroup false) [t]])
      (upList (outerGroup name optional false) (repeatedGroup false)
        (listStep (format.getD "") optional steps) bs) := by
  have hkind : (listStep (format.getD "") optional steps).kind.isList = true := by
    unfold listStep
    split <;> rfl
  have hlc := hc.listChild names (g := outerGroup name optional false)
    (r := repeatedGroup false) hkind rfl rfl (outerGroup_repetition ..) rfl
  refine ⟨?_, hlc.leaves, ?_, ?_, hlc.ok _, ?_⟩
  · rw [hlc.nodes, listNodes_eq]
    simp [preorder, preorders]
  · simp [Counted, CountedAll, SchemaNode.childCount, outerGroup, repeatedGroup, hc.counted]
  · rw [upList_paths, ← hc.paths]
    simp [RoseTree.paths, pathsAll, SchemaNode.isLeaf, outerGroup, repeatedGroup, Function.comp_def]
  · intro a ha
    rw [Conforms] at ha
    obtain ⟨_, x, _, hch, hx, rfl⟩ := ha (by rcases hl with hl | hl <;> rw [hl] <;> simp [IsNested])
    have := hlc.arrays a x hx
    unfold leafArrays
    simpa [hs, hl, hch] using this

theorem Flattened.ofMap {format nm : Option String} {flags : Nat}
    {entriesFormat entriesName : Option String} {entriesFlags : Nat} {key value : ArrowSchema}
    {entriesDict dict : Option ArrowSchema} {name : String} {optional : Bool}
    {idx : List Nat} {names : List String} {opt : List Bool} {steps : List PathStep}
    {out mid out' : Flat} {tk tv : RoseTree SchemaNode} {bk bv : List Branch}
    (hs : format.getD "" ≠ "+s") (hl : ¬ (format.getD "" = "+l" ∨ format.getD "" = "+L"))
    (hm : format.getD "" = "+m") (hentries : entriesFormat = some "+s")
    (hk : Flattened key "key" false idx (names ++ ["key_value", "key"]) opt
      (steps ++ [mapStep 0 optional steps]) (out.1 ++ listNodes name optional true, out.2)
      mid tk bk)
    (hv : Flattened value "value" value.nullableChild idx (names ++ ["key_value", "value"]) opt
      (steps ++ [mapStep 1 optional steps]) mid out' tv bv) :
    Flattened ⟨format, nm, flags,
        [⟨entriesFormat, entriesName, entriesFlags, [key, value], entriesDict⟩], dict⟩
      name optional idx names opt steps out out'
      (.node (outerGroup name optional true) [.node (repeatedGroup true) [tk, tv]])
      (upList (outerGroup name optional true) (repeatedGroup true) (mapStep 0 optional steps) bk ++
        upList (outerGroup name optional true) (repeatedGroup true) (mapStep 1 optional steps)
          bv) := by
  have hlk := hk.listChild names (g := outerGroup name optional true)
    (r := repeatedGroup true) rfl rfl rfl (outerGroup_repetition ..) rfl
  have hlv := hv.listChild names (g := outerGroup name optional true)
    (r := repeatedGroup true) rfl rfl rfl (outerGroup_repetition ..) rfl
  refine ⟨?_, ?_, ?_, ?_, ?_, ?_⟩
  · rw [hlv.nodes, hlk.nodes, listNodes_eq]
    simp [preorder, preorders]
  · rw [hlv.leaves, hlk.leaves, List.map_append, List.append_assoc]
  · simp [Counted, CountedAll, SchemaNode.childCount, outerGroup, repeatedGroup, hk.counted,
      hv.counted]
  · rw [List.map_append, upList_paths, upList_paths, ← hk.paths, ← hv.paths]
    simp [RoseTree.paths, pathsAll, SchemaNode.isLeaf, outerGroup, repeatedGroup, Function.comp_def]
  · intro b hb
    rcases List.mem_append.mp hb with hb | hb
    · exact hlk.ok _ b hb
    · exact hlv.ok _ b hb
  · intro a ha
    rw [Conforms] at ha
    obtain ⟨_, e, _, hch, he, rfl⟩ := ha (by rw [hm]; simp [IsNested])
    rw [Conforms] at he
    obtain ⟨_, x, _, hche, hx, y, _, rfl, hy, rfl⟩ := he (by rw [hentries]; simp [IsNested])
    have := List.rel_append (hlk.arrays a x hx) (hlv.arrays a y hy)
    unfold leafArrays
    rw [if_neg hs, if_neg hl, if_pos hm]
    simpa [hch, hche] using this

mutual
/-- **A successful `flatten_node` appends one tree and its branches.** -/
theorem flattenNode_spec : ∀ (node : ArrowSchema) (name : String) (optional : Bool)
    (idx : List Nat) (names : List String) (opt : List Bool) (steps : List PathStep)
    (out out' : Flat), flattenNode node name optional idx names opt steps out = .ok out' →
    ∃ t bs, Flattened node name optional idx names opt steps out out' t bs
  | ⟨format, nm, flags, children, dict⟩, name, optional, idx, names, opt, steps, out, out', h => by
    unfold flattenNode at h
    dsimp only at h
    by_cases hs : format.getD "" = "+s"
    · rw [if_pos hs] at h
      obtain ⟨ts, bs, hf⟩ := flattenFields_spec children 0
        { isGroup := true, name := name, optional := optional, numChildren := children.length }
        rfl idx names opt steps _ _ h
      exact ⟨_, _, .ofFields hs rfl hf⟩
    rw [if_neg hs] at h
    by_cases hl : format.getD "" = "+l" ∨ format.getD "" = "+L"
    · rw [if_pos hl] at h
      match children, h with
      | [], h => cases h
      | _ :: _ :: _, h => cases h
      | [child], h =>
        obtain ⟨t, bs, hc⟩ := flattenNode_spec child _ _ _ _ _ _ _ _ h
        exact ⟨_, _, .ofList hs hl hc⟩
    rw [if_neg hl] at h
    by_cases hm : format.getD "" = "+m"
    · rw [if_pos hm] at h
      match children, h with
      | [], h => cases h
      | ⟨_, _, _, [], _⟩ :: _ :: _, h => cases h
      | ⟨_, _, _, [_], _⟩ :: _ :: _, h => cases h
      | ⟨_, _, _, [_, _], _⟩ :: _ :: _, h => cases h
      | ⟨_, _, _, _ :: _ :: _ :: _, _⟩ :: _ :: _, h => cases h
      | [⟨_, _, _, [], _⟩], h => cases h
      | [⟨_, _, _, [_], _⟩], h => cases h
      | [⟨_, _, _, _ :: _ :: _ :: _, _⟩], h => cases h
      | [⟨entriesFormat, _, _, [key, value], _⟩], h =>
        by_cases he : entriesFormat = some "+s"
        swap
        · simp only [if_neg he] at h
          cases h
        simp only [if_pos he] at h
        split at h
        · cases h
        rename_i mid hkey
        obtain ⟨tk, bk, hck⟩ := flattenNode_spec key _ _ _ _ _ _ _ _ hkey
        obtain ⟨tv, bv, hcv⟩ := flattenNode_spec value _ _ _ _ _ _ _ _ h
        exact ⟨_, _, .ofMap hs hl hm he hck hcv⟩
    rw [if_neg hm] at h
    exact flattenLeaf_spec hs hl hm h

theorem flattenFields_spec : ∀ (children : List ArrowSchema) (i : Nat) (g : SchemaNode)
    (_ : g.repeated = false) (idx : List Nat) (names : List String) (opt : List Bool)
    (steps : List PathStep) (out out' : Flat),
    flattenFields children i g.optional idx names opt steps out = .ok out' →
    ∃ ts bs, FieldsFlattened children i g idx names opt steps out out' ts bs
  | [], i, g, _, idx, names, opt, steps, out, out', h => by
    unfold flattenFields at h
    cases h
    refine ⟨[], [], by simp [preorders], by simp, rfl, trivial, rfl, by simp, ?_⟩
    intro a _ _
    exact .nil
  | child :: rest, i, g, hr, idx, names, opt, steps, out, out', h => by
    unfold flattenFields at h
    split at h
    · cases h
    rename_i mid hc
    obtain ⟨t, bs, h1⟩ := flattenNode_spec child _ _ _ _ _ _ _ _ hc
    obtain ⟨ts, cs, h2⟩ := flattenFields_spec rest (i + 1) g hr idx names opt steps mid out' h
    obtain ⟨ds, hd⟩ := FieldsFlattened.cons hr h1 h2
    exact ⟨_, ds, hd⟩
end

/-! ## A record batch -/

/-- A branch from the record batch, as the leaf column it is. -/
def Branch.column (b : Branch) : LeafSpec :=
  leafSpec b.spec b.idx (b.path.map (·.name)) b.opt b.steps

/-- A column's branch agrees with its path. -/
structure ColumnOk (b : Branch) : Prop where
  steps : StepsFrom 0 b.steps
  reps : stepRepetitions b.steps = b.path.map (·.repetition)
  leaf : b.path.getLast? = some (leafNode b.spec)
  kind : ∃ (k : ColumnKind) (nm : String) (o : Bool), b.spec = k.spec nm o
  flat : repLevels b.steps = 0 → b.path.map (·.optional) = b.opt

/-- The trees and branches `flattenColumns` appends from column `i` on. -/
structure ColumnsFlattened (columns : List ArrowSchema) (i : Nat) (out out' : Flat)
    (ts : List (RoseTree SchemaNode)) (bs : List Branch) : Prop where
  nodes : out'.1 = out.1 ++ preorders ts
  leaves : out'.2 = out.2 ++ bs.map Branch.column
  length : ts.length = columns.length
  counted : CountedAll SchemaNode.childCount ts
  paths : pathsAll SchemaNode.isLeaf ts = bs.map (·.path)
  ok : ∀ b ∈ bs, ColumnOk b
  arrays : ∀ a, a.nChildren = (a.children.getD []).length →
    ConformsAll columns ((a.children.getD []).drop i) →
      List.Forall₂ (Reaches a) bs (fieldArrays columns ((a.children.getD []).drop i))

/-- One column's branch, seen from the record batch. -/
def Branch.atColumn (b : Branch) (i : Nat) (optional : Bool) : Branch :=
  { b with idx := i :: b.idx, opt := optional :: b.opt }

theorem Branch.column_atColumn {b : Branch} {name : String} {optional : Bool} {flagged : Prop}
    {k i : Nat} (h : BranchOk name optional flagged k b) :
    b.leaf [i] [name] [optional] [] = (b.atColumn i optional).column := by
  obtain ⟨g, below, hp, hn⟩ := h.head
  simp [Branch.leaf, Branch.column, Branch.atColumn, hp, hn]

/-- Following index `i` enters child `i`. -/
theorem Reaches.child {a x y : ArrowArray} {b : Branch} {i : Nat} {optional : Bool}
    (hn : a.nChildren = (a.children.getD []).length) (hi : (a.children.getD [])[i]? = some x)
    (h : Reaches x b y) : Reaches a (b.atColumn i optional) y :=
  fun h0 => ReachedBy.child hn hi (h h0)

theorem flattenColumns_spec (columns : List ArrowSchema) (i : Nat) (out out' : Flat)
    (h : flattenColumns columns i out = .ok out') :
    ∃ ts bs, ColumnsFlattened columns i out out' ts bs := by
  induction columns generalizing i out with
  | nil =>
    unfold flattenColumns at h
    cases h
    refine ⟨[], [], by simp [preorders], by simp, rfl, trivial, rfl, by simp, ?_⟩
    intro a _ _
    exact .nil
  | cons child rest ih =>
    unfold flattenColumns at h
    split at h
    · cases h
    rename_i mid hc
    obtain ⟨t, bs, h1⟩ := flattenNode_spec child _ _ _ _ _ _ _ _ hc
    obtain ⟨ts, cs, h2⟩ := ih (i + 1) mid h
    refine ⟨t :: ts, bs.map (Branch.atColumn · i child.nullableChild) ++ cs, ?_⟩
    constructor
    · rw [h2.nodes, h1.nodes, preorders, List.append_assoc]
    · rw [h2.leaves, h1.leaves, List.map_append, List.map_map, List.append_assoc]
      congr 2
      exact List.map_congr_left fun b hb => Branch.column_atColumn (h1.ok b hb)
    · simp [h2.length]
    · exact ⟨h1.counted, h2.counted⟩
    · rw [pathsAll, h1.paths, h2.paths, List.map_append, List.map_map]
      rfl
    · intro b hb
      rcases List.mem_append.mp hb with hb | hb
      · obtain ⟨b0, hb0, rfl⟩ := List.mem_map.mp hb
        have hok := h1.ok b0 hb0
        exact ⟨hok.steps, hok.reps, hok.leaf, hok.kind, fun h0 => hok.flat h0 rfl⟩
      · exact h2.ok b hb
    · intro a hn hall
      obtain ⟨x, xs, hx, hcx, hcxs⟩ := hall
      obtain ⟨hi, hxs⟩ := drop_eq_cons hx
      rw [hx, fieldArrays]
      refine List.rel_append ?_ ?_
      · rw [List.forall₂_map_left_iff]
        exact (h1.arrays x hcx).imp fun b y h => h.child hn hi
      · rw [← hxs]
        exact h2.arrays a hn (by rw [hxs]; exact hcxs)

end N2P
