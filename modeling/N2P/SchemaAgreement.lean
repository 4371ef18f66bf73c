import N2P.SchemaTree

/-!
# The footer's schema and the writer's leaves

A reader of the file has only the footer's list of schema elements.  It rebuilds the tree from the
child counts and recomputes every leaf's name path and levels from the repetitions on its path.

* `footerSchema_agrees` — the list decodes to one tree, whose leaves are the writer's leaves in
  order and agree with them in everything a reader recomputes; outside lists, `pathIdx` reaches the
  leaf's array and `pathOptional` marks the OPTIONAL nodes.
-/

namespace N2P

open Preorder Preorder.RoseTree

/-! ## A reader of the footer -/

/-- The child count of an element; a primitive has none. -/
def SchemaElement.childCount (e : SchemaElement) : Nat := e.numChildren.getD 0

/-- `num_children` is not set when the element is a primitive type. -/
def SchemaElement.isPrimitive (e : SchemaElement) : Bool := e.numChildren.isNone

/-- The definition levels of a path: one per OPTIONAL or REPEATED node. -/
def readerMaxDef (path : List SchemaElement) : Nat :=
  path.countP fun e => e.repetitionType = some .optional ∨ e.repetitionType = some .repeated

/-- The repetition levels of a path: one per REPEATED node. -/
def readerMaxRep (path : List SchemaElement) : Nat :=
  path.countP fun e => e.repetitionType = some .repeated

/-- A leaf column agrees with its path in the decoded tree, root excluded. -/
structure LeafAgrees (path : List SchemaElement) (leaf : LeafSpec) : Prop where
  names : path.map (·.name) = leaf.pathNames
  maxDef : readerMaxDef path = leaf.maxDefLevel
  maxRep : readerMaxRep path = leaf.maxRepLevel
  type : ∃ e, path.getLast? = some e ∧ e.type = some leaf.col.type ∧
    e.typeLength.getD 0 = leaf.col.typeLength ∧
    (e.typeLength.isSome ↔ leaf.col.type = .fixedLenByteArray)
  flat : leaf.hasList = false →
    path.map (fun e => decide (e.repetitionType = some .optional)) = leaf.pathOptional ∧
    leaf.pathOptional.count true = leaf.maxDefLevel

/-! ## Elements and nodes -/

theorem childCount_schemaElement (s : SchemaNode) :
    (schemaElement s).childCount = s.childCount := by
  unfold SchemaElement.childCount SchemaNode.childCount schemaElement
  cases s.isGroup <;> rfl

theorem isPrimitive_schemaElement (s : SchemaNode) :
    (schemaElement s).isPrimitive = s.isLeaf := by
  unfold SchemaElement.isPrimitive SchemaNode.isLeaf schemaElement
  cases s.isGroup <;> rfl

@[simp] theorem schemaElement_repetition (s : SchemaNode) :
    (schemaElement s).repetitionType = some s.repetition := rfl

theorem countP_repetition (path : List SchemaNode) (p : FieldRepetitionType → Bool) :
    (path.map (·.repetition)).countP p = path.countP fun s => p s.repetition := by
  rw [List.countP_map]
  rfl

theorem readerMaxDef_schemaElement (path : List SchemaNode) :
    readerMaxDef (path.map schemaElement) = Dremel.maxDef (path.map (·.repetition)) := by
  unfold readerMaxDef Dremel.maxDef
  rw [List.countP_map, countP_repetition]
  refine List.countP_congr fun s _ => ?_
  cases h : s.repetition <;> simp [h]

theorem readerMaxRep_schemaElement (path : List SchemaNode) :
    readerMaxRep (path.map schemaElement) = Dremel.maxRep (path.map (·.repetition)) := by
  unfold readerMaxRep Dremel.maxRep
  rw [List.countP_map, countP_repetition]
  refine List.countP_congr fun s _ => ?_
  cases h : s.repetition <;> simp [h]

/-- On a path with no REPEATED node an element is OPTIONAL exactly when its node is. -/
theorem optional_of_not_repeated {path : List SchemaNode}
    (h : Dremel.maxRep (path.map (·.repetition)) = 0) :
    path.map (fun s => decide (s.repetition = .optional)) = path.map (·.optional) := by
  unfold Dremel.maxRep at h
  rw [List.countP_eq_zero] at h
  refine List.map_congr_left fun s hs => ?_
  have hr := h s.repetition (List.mem_map_of_mem hs)
  unfold SchemaNode.repetition at hr ⊢
  cases hr' : s.repeated <;> cases s.optional <;> simp [hr'] at hr ⊢

theorem maxDef_of_not_repeated {path : List SchemaNode}
    (h : Dremel.maxRep (path.map (·.repetition)) = 0) :
    Dremel.maxDef (path.map (·.repetition)) = (path.map (·.optional)).count true := by
  rw [← optional_of_not_repeated h]
  unfold Dremel.maxDef Dremel.maxRep at *
  rw [List.countP_eq_zero] at h
  rw [List.count, List.countP_map, List.countP_map]
  refine List.countP_congr fun s hs => ?_
  have hr := h s.repetition (List.mem_map_of_mem hs)
  cases hk : s.repetition <;> simp_all

theorem ColumnOk.agrees {b : Branch} (h : ColumnOk b) :
    LeafAgrees (b.path.map schemaElement) b.column := by
  have hreps : b.path.map (·.repetition) = stepRepetitions b.steps := h.reps.symm
  constructor
  · simp [Branch.column, leafSpec, schemaElement, Function.comp_def]
  · rw [readerMaxDef_schemaElement, hreps, maxDef_stepRepetitions]; rfl
  · rw [readerMaxRep_schemaElement, hreps, maxRep_stepRepetitions]; rfl
  · refine ⟨schemaElement (leafNode b.spec), by rw [List.getLast?_map, h.leaf]; rfl, rfl, ?_, ?_⟩
    · obtain ⟨k, name, optional, hk⟩ := h.kind
      simp only [Branch.column, leafSpec, hk]
      cases k <;> rfl
    · simp only [schemaElement, leafNode, Branch.column, leafSpec]
      by_cases ht : b.spec.type = .fixedLenByteArray <;> simp [ht]
  · intro hflat
    have h0 : repLevels b.steps = 0 := by
      simpa [Branch.column, leafSpec] using hflat
    have hrep : Dremel.maxRep (b.path.map (·.repetition)) = 0 := by
      rw [hreps, maxRep_stepRepetitions, h0]
    have hopt : b.path.map (·.optional) = b.opt := h.flat h0
    refine ⟨?_, ?_⟩
    · rw [List.map_map]
      simp only [Function.comp_def, schemaElement_repetition, Option.some.injEq]
      rw [optional_of_not_repeated hrep, hopt]
      rfl
    · have hd := maxDef_of_not_repeated hrep
      rw [hreps, maxDef_stepRepetitions, hopt] at hd
      exact hd.symm

/-! ## The whole list -/

theorem paths_rootTree (w : Writer) (ts : List (RoseTree SchemaNode)) :
    (paths SchemaElement.isPrimitive
        (.node (rootElement w.topChildren) (maps schemaElement ts))).map List.tail =
      (pathsAll SchemaNode.isLeaf ts).map (List.map schemaElement) := by
  have hp : (fun s => (schemaElement s).isPrimitive) = SchemaNode.isLeaf :=
    funext isPrimitive_schemaElement
  rw [paths, if_neg (by simp [SchemaElement.isPrimitive, rootElement]), List.map_map,
    pathsAll_maps, hp]
  simp [Function.comp_def]

/-- The tree behind the footer's list, with the writer's leaves on its paths. -/
structure FooterTree (w : Writer) (t : RoseTree SchemaElement) : Prop where
  counted : Counted SchemaElement.childCount t
  preorder : t.preorder = (fileMetaData w).schema
  leaves : List.Forall₂ LeafAgrees ((paths SchemaElement.isPrimitive t).map List.tail) w.leaves

theorem FooterTree.decode {w : Writer} {t : RoseTree SchemaElement} (h : FooterTree w t) :
    decode SchemaElement.childCount (fileMetaData w).schema = some t := by
  rw [← h.preorder, decode_preorder h.counted]

theorem footerTree_of_flattened {w : Writer} {columns : List ArrowSchema}
    {ts : List (RoseTree SchemaNode)} {bs : List Branch}
    (hf : ColumnsFlattened columns 0 ([], []) (w.schemaNodes, w.leaves) ts bs)
    (htop : w.topChildren = columns.length) :
    FooterTree w (.node (rootElement w.topChildren) (maps schemaElement ts)) := by
  have hleaves : w.leaves = bs.map Branch.column := by simpa using hf.leaves
  have hnodes : w.schemaNodes = preorders ts := by simpa using hf.nodes
  refine ⟨⟨?_, ?_⟩, ?_, ?_⟩
  · rw [length_maps, hf.length, ← htop]; rfl
  · rw [countedAll_maps, funext childCount_schemaElement]
    exact hf.counted
  · rw [RoseTree.preorder, preorders_maps, ← hnodes]
    rfl
  · rw [paths_rootTree, hf.paths, hleaves, List.map_map, List.forall₂_map_left_iff,
      List.forall₂_map_right_iff, List.forall₂_same]
    exact fun b hb => (hf.ok b hb).agrees

/-- **Schema agreement between writer and reader.** -/
theorem footerSchema_agrees (w : Writer) (columns : List ArrowSchema)
    (h : flattenColumns columns 0 ([], []) = .ok (w.schemaNodes, w.leaves))
    (htop : w.topChildren = columns.length) :
    ∃ t : RoseTree SchemaElement,
      decode SchemaElement.childCount (fileMetaData w).schema = some t ∧
      (∀ u, Counted SchemaElement.childCount u ∧ u.preorder = (fileMetaData w).schema ↔ u = t) ∧
      List.Forall₂ LeafAgrees ((paths SchemaElement.isPrimitive t).map List.tail) w.leaves ∧
      ∀ batch : ArrowArray, batch.nChildren = (batch.children.getD []).length →
        ConformsAll columns (batch.children.getD []) →
        List.Forall₂ (fun leaf x => leaf.hasList = false → ReachedBy batch leaf.pathIdx x)
          w.leaves (fieldArrays columns (batch.children.getD [])) := by
  obtain ⟨ts, bs, hf⟩ := flattenColumns_spec columns 0 _ _ h
  have hleaves : w.leaves = bs.map Branch.column := by simpa using hf.leaves
  have htree := footerTree_of_flattened hf htop
  refine ⟨_, htree.decode, fun u => ?_, htree.leaves, ?_⟩
  · constructor
    · rintro ⟨hu, hup⟩
      exact preorder_injective hu htree.counted (hup.trans htree.preorder.symm)
    · rintro rfl
      exact ⟨htree.counted, htree.preorder⟩
  · intro batch hn hall
    rw [hleaves, List.forall₂_map_left_iff]
    refine (hf.arrays batch hn (by simpa using hall)).imp fun b x hr hlist => ?_
    exact hr (by simpa [Branch.column, leafSpec] using hlist)

/-- A list column, and a struct of a null-typed and a required field. -/
def mixedColumns : List ArrowSchema :=
  [.nested "+l" "tags" true [.leaf "u" "item" false],
   .nested "+s" "point" true [.leaf "n" "x" false, .leaf "g" "y" false]]

/-- A writer locked to it. -/
def mixedWriter : Writer :=
  match flattenColumns mixedColumns 0 ([], []) with
  | .error _ => { out := .fresh 0 none, path := "" }
  | .ok (nodes, leaves) =>
    { out := .fresh 0 none, path := "", schemaLocked := true, schemaNodes := nodes,
      leaves := leaves, topChildren := 2 }

/-- Three tags. -/
def mixedTags : ArrowArray := .strings [0, 1, 2, 3] [97, 98, 99] none 0

/-- A null column: no buffers. -/
def mixedX : ArrowArray :=
  { length := 2, nullCount := 2, offset := 0, nBuffers := 0, nChildren := 0, buffers := none,
    children := none }

/-- Two doubles. -/
def mixedY : ArrowArray :=
  { length := 2, nullCount := 0, offset := 0, nBuffers := 2, nChildren := 0,
    buffers := some [none, some (packed 8 [0, 1])], children := none }

/-- Two rows of the columns. -/
def mixedBatch : ArrowArray :=
  .struct 2 none 0 [.list [0, 1, 3] none 0 mixedTags, .struct 2 none 0 [mixedX, mixedY]]

theorem mixedBatch_conforms : ConformsAll mixedColumns (mixedBatch.children.getD []) := by
  have hleaf : ∀ format name a, ¬ IsNested format → Conforms (.leaf format name false) a :=
    fun _ _ _ h hn => absurd hn h
  exact ⟨_, _, rfl, fun _ => ⟨rfl, _, _, rfl, hleaf "u" "item" _ (by simp [IsNested]), rfl⟩,
    _, _, rfl, fun _ => ⟨rfl, _, _, rfl, hleaf "n" "x" _ (by simp [IsNested]),
      _, _, rfl, hleaf "g" "y" _ (by simp [IsNested]), rfl⟩, rfl⟩

theorem footerSchema_agrees_mixed :
    (∃ t : RoseTree SchemaElement,
      decode SchemaElement.childCount (fileMetaData mixedWriter).schema = some t ∧
      (∀ u, Counted SchemaElement.childCount u ∧
        u.preorder = (fileMetaData mixedWriter).schema ↔ u = t) ∧
      List.Forall₂ LeafAgrees ((paths SchemaElement.isPrimitive t).map List.tail)
        mixedWriter.leaves) ∧
      ∃ tags x y, mixedWriter.leaves = [tags, x, y] ∧ tags.hasList = true ∧
        ReachedBy mixedBatch x.pathIdx mixedX ∧ ReachedBy mixedBatch y.pathIdx mixedY := by
  obtain ⟨t, hdecode, hunique, hleaves, hreach⟩ :=
    footerSchema_agrees mixedWriter mixedColumns rfl rfl
  have hreached := hreach mixedBatch rfl mixedBatch_conforms
  obtain ⟨tags, x, y, hw⟩ : ∃ tags x y, mixedWriter.leaves = [tags, x, y] := ⟨_, _, _, rfl⟩
  have hlists : mixedWriter.leaves.map (·.hasList) = [true, false, false] := rfl
  rw [hw] at hreached hlists
  have hflags : tags.hasList = true ∧ x.hasList = false ∧ y.hasList = false := by
    simpa using hlists
  obtain ⟨htags, hx, hy⟩ := hflags
  cases hreached with
  | cons _ h => cases h with
    | cons hreachX h => cases h with
      | cons hreachY _ =>
        exact ⟨⟨t, hdecode, hunique, hleaves⟩, tags, x, y, hw, htags, hreachX hx, hreachY hy⟩

end N2P
