import N2P.Columnar
import N2P.LeafColumns
import N2P.SchemaAcceptance

/-!
# The table a batch denotes

What the rows of a record batch without lists are as Parquet columns, without a look at how they
are written, and that the writer's columns are these.

* `tableOf` — one column for each leaf of the type, from the rows a batch denotes.
* `flattenColumns_leaves` — the writer's leaves follow those of the type.
* `batchColumns_denoted` — what the batch holds on them is that table.
-/

namespace N2P.Columnar

open Dremel

/-! ## Leaves of a type -/

/-- A node on the path to a leaf: its place among its siblings, its name, and whether it may be
    null. -/
structure PathNode where
  index : Nat
  name : String
  nullable : Bool
  deriving DecidableEq, Repr

def PathNode.repetition (node : PathNode) : FieldRepetitionType :=
  if node.nullable then .optional else .required

/-- The path of a leaf, and the leaf's type. -/
abbrev LeafPath := List PathNode × ArrowType

mutual

/-- The leaves below a node. -/
def Shape.leaves : Shape → List LeafPath
  | .leaf t => [([], t)]
  | .struct fields => fields.leaves 0

/-- The leaves of a struct's fields, from field `i` on. -/
def Members.leaves : Members → Nat → List LeafPath
  | .nil, _ => []
  | .cons name nullable shape rest, i =>
    shape.leaves.map (fun (path, t) => (⟨i, name, nullable⟩ :: path, t)) ++ rest.leaves (i + 1)

end

/-! ## Records -/

/-- A value at the Parquet type of its column: the bits of a wide unsigned number are kept. -/
def ArrowType.value (t : ArrowType) : Scalar → Value
  | .bool b => .boolean b
  | .int v =>
    match t with
    | .int _ 8 => .int64 (Int.bmod v (256 ^ 8))
    | _ => .int32 (Int.bmod v (256 ^ 4))
  | .float bits =>
    match t with
    | .float 8 => .double bits
    | _ => .float bits
  | .bytes bs =>
    match t with
    | .fixedSizeBinary _ => .fixed bs
    | _ => .byteArray bs

def Cells.get? : Cells → Nat → Option Cell
  | .nil, _ => none
  | .cons c _, 0 => some c
  | .cons _ rest, i + 1 => rest.get? i

/-- What a cell holds on the path below it.  There is no record where a REQUIRED node is null. -/
def record (t : ArrowType) : List PathNode → (reps : List Repetition) → Cell →
    Option (Val Value reps)
  | [], [], .scalar v => some (t.value v)
  | node :: path, .required :: reps, .struct cells =>
    (cells.get? node.index).bind (record t path reps)
  | node :: path, .optional :: reps, .struct cells =>
    (cells.get? node.index).bind fun cell =>
      match cell with
      | .null => some none
      | cell => (record t path reps cell).map some
  | _, _, _ => none

theorem record_null (t : ArrowType) (path : List PathNode) (reps : List Repetition) :
    record t path reps .null = none := by
  cases path with
  | nil => cases reps <;> rfl
  | cons node path =>
    cases reps with
    | nil => rfl
    | cons r reps => cases r <;> rfl

/-- A leaf's column of a list of rows. -/
def leafTable (leaf : LeafPath) (rows : List Cells) : Option TableColumn :=
  let repetitions := leaf.1.map (·.repetition)
  (rows.mapM fun row => record leaf.2 leaf.1 repetitions (.struct row)).map fun records =>
    { path := leaf.1.map (·.name), repetitions, records }

/-- **The columns of a list of rows.** -/
def tableOf (fields : Members) (rows : List Cells) : Option (List TableColumn) :=
  (fields.leaves 0).mapM (leafTable · rows)

mutual

/-- A cell of the type: a value or a struct of cells. -/
def Shape.Holds : Shape → Cell → Prop
  | .leaf _, .scalar _ => True
  | .struct fields, .struct cells => fields.Holds cells
  | _, _ => False

/-- The cells of a struct, null only where they may be. -/
def Members.Holds : Members → Cells → Prop
  | .nil, .nil => True
  | .cons _ nullable shape rest, .cons cell cells =>
    (nullable = true ∧ cell = .null ∨ shape.Holds cell) ∧ rest.Holds cells
  | _, _ => False

end

theorem nil_not_mem_leaves {t : ArrowType} : (fields : Members) → (i : Nat) →
    ([], t) ∉ fields.leaves i
  | .nil, i => by
    rw [Members.leaves]
    exact List.not_mem_nil
  | .cons name nullable shape rest, i => by
    rw [Members.leaves]
    intro h
    rcases List.mem_append.mp h with h | h
    · obtain ⟨_, _, heq⟩ := List.mem_map.mp h
      cases heq
    · exact nil_not_mem_leaves rest (i + 1) h

theorem holds_of_mem {node : PathNode} {path : List PathNode} {t : ArrowType} :
    {fields : Members} → {i : Nat} → {cells : Cells} → (node :: path, t) ∈ fields.leaves i →
    fields.Holds cells →
    ∃ (shape : Shape) (cell : Cell), i ≤ node.index ∧ cells.get? (node.index - i) = some cell ∧
      (path, t) ∈ shape.leaves ∧ (node.nullable = true ∧ cell = .null ∨ shape.Holds cell)
  | .nil, i, cells, h, _ => by
    rw [Members.leaves] at h
    cases h
  | .cons name nullable shape rest, i, .nil, _, hcells => by simp [Members.Holds] at hcells
  | .cons name nullable shape rest, i, .cons cell cells, h, hcells => by
    rw [Members.Holds] at hcells
    rw [Members.leaves] at h
    rcases List.mem_append.mp h with h | h
    · obtain ⟨⟨below, t'⟩, hleaf, heq⟩ := List.mem_map.mp h
      cases heq
      refine ⟨shape, cell, Nat.le_refl i, ?_, hleaf, hcells.1⟩
      rw [Nat.sub_self, Cells.get?]
    · obtain ⟨shape', cell', hle, hget, hleaf, hcell⟩ := holds_of_mem h hcells.2
      refine ⟨shape', cell', by omega, ?_, hleaf, hcell⟩
      rw [show node.index - i = node.index - (i + 1) + 1 by omega, Cells.get?]
      exact hget

/-- There is a record where no REQUIRED node is null. -/
theorem record_of_holds {t : ArrowType} {path : List PathNode} {shape : Shape} {cell : Cell}
    (hleaf : (path, t) ∈ shape.leaves) (h : shape.Holds cell) :
    ∃ x, record t path (path.map (·.repetition)) cell = some x := by
  induction path generalizing shape cell with
  | nil =>
    cases shape with
    | leaf t' =>
      cases cell with
      | scalar v => exact ⟨_, rfl⟩
      | null => simp [Shape.Holds] at h
      | struct cells => simp [Shape.Holds] at h
    | struct fields =>
      rw [Shape.leaves] at hleaf
      exact absurd hleaf (nil_not_mem_leaves fields 0)
  | cons node path ih =>
    cases shape with
    | leaf t' =>
      rw [Shape.leaves] at hleaf
      cases List.mem_singleton.mp hleaf
    | struct fields =>
      rw [Shape.leaves] at hleaf
      cases cell with
      | null => simp [Shape.Holds] at h
      | scalar v => simp [Shape.Holds] at h
      | struct cells =>
        rw [Shape.Holds] at h
        obtain ⟨shape', cell', _, hget, hbelow, hcell⟩ := holds_of_mem hleaf h
        rw [Nat.sub_zero] at hget
        obtain ⟨index, name, nullable⟩ := node
        cases nullable with
        | true =>
          show ∃ x, ((cells.get? index).bind _) = some x
          rw [hget]
          rcases hcell with ⟨_, rfl⟩ | hcell
          · exact ⟨none, rfl⟩
          · obtain ⟨x, hx⟩ := ih hbelow hcell
            refine ⟨some x, ?_⟩
            cases cell' with
            | null => cases shape' <;> simp [Shape.Holds] at hcell
            | scalar v => exact congrArg (Option.map some) hx
            | struct inner => exact congrArg (Option.map some) hx
        | false =>
          show ∃ x, ((cells.get? index).bind _) = some x
          rw [hget]
          rcases hcell with ⟨hfalse, _⟩ | hcell
          · cases hfalse
          · exact ih hbelow hcell

/-- **Rows of the type make a table.** -/
theorem tableOf_of_holds {fields : Members} {rows : List Cells} (h : ∀ row ∈ rows, fields.Holds row) :
    ∃ table, tableOf fields rows = some table := by
  have hmap : ∀ {α β : Type} {f : α → Option β} {l : List α}, (∀ a ∈ l, ∃ b, f a = some b) →
      ∃ bs, l.mapM f = some bs := by
    intro α β f l hl
    induction l with
    | nil => exact ⟨[], rfl⟩
    | cons a l ih =>
      obtain ⟨b, hb⟩ := hl a List.mem_cons_self
      obtain ⟨bs, hbs⟩ := ih fun a' ha' => hl a' (List.mem_cons_of_mem a ha')
      exact ⟨b :: bs, by rw [List.mapM_cons, hb, hbs]; rfl⟩
  refine hmap fun p hp => ?_
  have hrecord : ∀ row ∈ rows, ∃ x,
      record p.2 p.1 (p.1.map (·.repetition)) (.struct row) = some x := by
    intro row hrow
    refine @record_of_holds p.2 p.1 (.struct fields) (.struct row) ?_ ?_
    · rw [Shape.leaves]
      exact hp
    · rw [Shape.Holds]
      exact h row hrow
  obtain ⟨records, hrecords⟩ := hmap hrecord
  exact ⟨_, congrArg (Option.map _) hrecords⟩

/-! ## Kinds -/

/-- How the writer stores a type. -/
def ArrowType.kind : ArrowType → Option ColumnKind
  | .bool => some .bool
  | .int signed 1 => some (.narrow 1 signed (.inl rfl))
  | .int signed 2 => some (.narrow 2 signed (.inr rfl))
  | .int signed 4 => some (.int32 !signed)
  | .int signed 8 => some (.int64 !signed)
  | .float 4 => some .float
  | .float 8 => some .double
  | .fixedSizeBinary w => if pos : 0 < w then some (.fixed w pos) else none
  | .binary text 4 => some (.bytes text false)
  | .binary text 8 => some (.bytes text true)
  | _ => none

theorem ArrowType.kind_ne_null (t : ArrowType) {k : ColumnKind} (h : t.kind = some k) :
    k ≠ .null := by
  rintro rfl
  unfold ArrowType.kind at h
  split at h
  case h_8 =>
    split at h
    · cases h
    · cases h
  all_goals cases h

/-- **An accepted format is stored as its type asks.** -/
theorem mapFormat_typed {format name : String} {nullable : Bool} {t : ArrowType}
    {spec : ColumnSpec} (ht : ArrowType.ofFormat format = some t)
    (h : mapFormat (some format) name nullable = .ok spec) :
    ∃ k, t.kind = some k ∧ spec = k.spec name nullable := by
  have pick : ∀ {f : String} {k : ColumnKind}, format.toList = f.toList → t.kind = some k →
      mapFormat (some f) name nullable = .ok (k.spec name nullable) →
      ∃ k, t.kind = some k ∧ spec = k.spec name nullable := by
    intro f k hf hk hspec
    rw [String.toList_inj.mp hf, hspec] at h
    exact ⟨k, hk, (Except.ok.inj h).symm⟩
  unfold ArrowType.ofFormat at ht
  split at ht
  case h_1 hf => cases ht; exact pick (f := "b") hf rfl rfl
  case h_2 hf => cases ht; exact pick (f := "c") hf rfl rfl
  case h_3 hf => cases ht; exact pick (f := "C") hf rfl rfl
  case h_4 hf => cases ht; exact pick (f := "s") hf rfl rfl
  case h_5 hf => cases ht; exact pick (f := "S") hf rfl rfl
  case h_6 hf => cases ht; exact pick (f := "i") hf rfl rfl
  case h_7 hf => cases ht; exact pick (f := "I") hf rfl rfl
  case h_8 hf => cases ht; exact pick (f := "l") hf rfl rfl
  case h_9 hf => cases ht; exact pick (f := "L") hf rfl rfl
  case h_10 hf => cases ht; exact pick (f := "f") hf rfl rfl
  case h_11 hf => cases ht; exact pick (f := "g") hf rfl rfl
  case h_12 hf => cases ht; exact pick (f := "u") hf rfl rfl
  case h_13 hf => cases ht; exact pick (f := "z") hf rfl rfl
  case h_14 hf => cases ht; exact pick (f := "U") hf rfl rfl
  case h_15 hf => cases ht; exact pick (f := "Z") hf rfl rfl
  case h_16 digits hf =>
    split at ht
    · rename_i hdigits
      cases ht
      obtain ⟨hne, hall⟩ := Bool.and_eq_true_iff.mp hdigits
      have hne : digits ≠ [] := by simpa using hne
      have hwidth : Nat.ofDigitChars 10 digits 0 = decimal digits := Nat.ofDigitChars_eq_foldl
      have hother : ∀ g : String, g.toList.head? ≠ some 'w' → format ≠ g := by
        rintro g hg rfl
        rw [hf] at hg
        exact hg rfl
      unfold mapFormat at h
      dsimp only at h
      rw [if_neg (hother "n" (by decide)), if_neg (hother "b" (by decide)),
        if_neg (hother "c" (by decide)), if_neg (hother "C" (by decide)),
        if_neg (hother "s" (by decide)), if_neg (hother "S" (by decide)),
        if_neg (hother "i" (by decide)), if_neg (hother "I" (by decide)),
        if_neg (hother "l" (by decide)), if_neg (hother "L" (by decide)),
        if_neg (hother "f" (by decide)), if_neg (hother "g" (by decide)), hf,
        if_pos (show ('w' :: ':' :: digits).take 2 = ['w', ':'] from rfl),
        show ('w' :: ':' :: digits).drop 2 = digits from rfl, atoi_numeral hne hall] at h
      by_cases hfits : decimal digits < 2 ^ 31
      · rw [if_pos hfits] at h
        dsimp only at h
        rcases ite_eq_ok h with ⟨_, h⟩ | ⟨hpos, h⟩
        · cases h
        · cases h
          rw [Int.toNat_natCast, hwidth]
          exact ⟨.fixed (decimal digits) (by omega), dif_pos (by omega), rfl⟩
      · rw [if_neg hfits] at h
        cases h
    · cases ht
  case h_17 => cases ht

/-! ## The writer's leaves -/

/-- A leaf of the writer, on a path of the type. -/
structure LeafAt (path : List PathNode) (t : ArrowType) (leaf : LeafSpec) : Prop where
  idx : leaf.pathIdx = path.map (·.index)
  names : leaf.pathNames = path.map (·.name)
  optional : leaf.pathOptional = path.map (·.nullable)
  flat : leaf.hasList = false
  kind : ∃ k name nullable, t.kind = some k ∧ leaf.col = k.spec name nullable

/-- What a schema with a type is. -/
theorem shapeOf_cases {node : ArrowSchema} {shape : Shape} (h : shapeOf node = some shape) :
    (∃ format t, node.format = some format ∧ ArrowType.ofFormat format = some t ∧
      shape = .leaf t) ∨
    node.format = some "+s" ∧ ∃ fields, membersOf node.children = some fields ∧
      shape = .struct fields := by
  obtain ⟨format, name, flags, children, dictionary⟩ := node
  cases format with
  | none => simp [shapeOf] at h
  | some format =>
    cases dictionary with
    | some _ => simp [shapeOf] at h
    | none =>
      rw [shapeOf] at h
      split at h
      · rename_i hstruct
        obtain ⟨fields, hfields, rfl⟩ := Option.map_eq_some_iff.mp h
        exact .inr ⟨by rw [hstruct], fields, hfields, rfl⟩
      · split at h
        · obtain ⟨t, ht, rfl⟩ := Option.map_eq_some_iff.mp h
          exact .inl ⟨format, t, rfl, ht, rfl⟩
        · cases h

/-- A node with a type is as nullable as its flag says. -/
theorem nullableChild_of_shape {node : ArrowSchema} {shape : Shape} (h : shapeOf node = some shape) :
    node.nullableChild = (node.flags &&& ARROW_FLAG_NULLABLE != 0) := by
  have hne : node.format ≠ some "n" := by
    intro hn
    rcases shapeOf_cases h with ⟨format, t, hf, ht, _⟩ | ⟨hf, _⟩
    · rw [hn] at hf
      cases hf
      have hnone : ArrowType.ofFormat "n" = none := by decide
      rw [hnone] at ht
      cases ht
    · rw [hn] at hf
      exact absurd hf (by decide)
  unfold ArrowSchema.nullableChild
  simp [hne]

/-- A leaf is appended under its own path. -/
theorem flattenNode_leaf {node : ArrowSchema} {format : String} {t : ArrowType} {name : String}
    {optional : Bool} {path : List PathNode} {steps : List PathStep} {out out' : Flat}
    (hformat : node.format = some format) (ht : ArrowType.ofFormat format = some t)
    (hsteps : repLevels steps = 0)
    (h : flattenNode node name optional (path.map (·.index)) (path.map (·.name))
      (path.map (·.nullable)) steps out = .ok out') :
    ∃ leaf, out'.2 = out.2 ++ [leaf] ∧ LeafAt path t leaf := by
  have hne : ∀ nested, ArrowType.ofFormat nested = none → format ≠ nested := by
    rintro nested hnone rfl
    rw [hnone] at ht
    cases ht
  obtain ⟨_, _, _, children, _⟩ := node
  cases hformat
  unfold flattenNode at h
  dsimp only [Option.getD_some] at h
  rw [if_neg (hne "+s" (by decide)),
    if_neg (not_or.mpr ⟨hne "+l" (by decide), hne "+L" (by decide)⟩),
    if_neg (hne "+m" (by decide))] at h
  unfold flattenLeaf at h
  split at h
  · cases h
  · rename_i spec hspec
    obtain ⟨k, hk, rfl⟩ := mapFormat_typed ht hspec
    cases h
    refine ⟨_, rfl, rfl, rfl, rfl, ?_, k, name, optional, hk, rfl⟩
    show decide (0 < repLevels (steps ++ _)) = false
    rw [repLevels_append, hsteps]
    rfl

theorem repLevels_struct {steps : List PathStep} (h : repLevels steps = 0) (optional : Bool)
    (i : Nat) :
    repLevels (steps ++ [{ kind := .struct, optional, child := i, repLevel := 0 }]) = 0 := by
  rw [repLevels_append, h]
  rfl

mutual

/-- The leaves a node appends are those of its type. -/
theorem flattenNode_leaves {name : String} {optional : Bool} {path : List PathNode}
    {steps : List PathStep} {out out' : Flat} : (shape : Shape) → {node : ArrowSchema} →
    shapeOf node = some shape → repLevels steps = 0 →
    flattenNode node name optional (path.map (·.index)) (path.map (·.name))
      (path.map (·.nullable)) steps out = .ok out' →
    ∃ leaves, out'.2 = out.2 ++ leaves ∧
      List.Forall₂ (fun below leaf => LeafAt (path ++ below.1) below.2 leaf) shape.leaves leaves
  | .leaf t, node, hshape, hsteps, h => by
    rcases shapeOf_cases hshape with ⟨format, t', hformat, ht, heq⟩ | ⟨_, _, _, heq⟩
    · cases heq
      obtain ⟨leaf, hout, hleaf⟩ := flattenNode_leaf hformat ht hsteps h
      refine ⟨[leaf], hout, ?_⟩
      rw [Shape.leaves]
      exact .cons (by rw [List.append_nil]; exact hleaf) .nil
    · cases heq
  | .struct fields, node, hshape, hsteps, h => by
    rcases shapeOf_cases hshape with ⟨_, _, _, _, heq⟩ | ⟨hformat, fields', hfields, heq⟩
    · cases heq
    · cases heq
      obtain ⟨_, _, _, children, _⟩ := node
      cases hformat
      unfold flattenNode at h
      dsimp only [Option.getD_some] at h
      rw [if_pos rfl] at h
      obtain ⟨leaves, hout, hall⟩ := flattenFields_leaves fields 0 hfields hsteps h
      rw [Shape.leaves]
      exact ⟨leaves, hout, hall⟩

theorem flattenFields_leaves {optional : Bool} {path : List PathNode} {steps : List PathStep}
    {out out' : Flat} : (fields : Members) → (i : Nat) → {children : List ArrowSchema} →
    membersOf children = some fields → repLevels steps = 0 →
    flattenFields children i optional (path.map (·.index)) (path.map (·.name))
      (path.map (·.nullable)) steps out = .ok out' →
    ∃ leaves, out'.2 = out.2 ++ leaves ∧
      List.Forall₂ (fun below leaf => LeafAt (path ++ below.1) below.2 leaf) (fields.leaves i)
        leaves
  | .nil, i, children, hfields, _, h => by
    cases children with
    | cons c cs =>
      rw [membersOf] at hfields
      obtain ⟨_, _, hrest⟩ := Option.bind_eq_some_iff.mp hfields
      obtain ⟨_, _, hcons⟩ := Option.map_eq_some_iff.mp hrest
      cases hcons
    | nil =>
      rw [flattenFields] at h
      cases h
      rw [Members.leaves]
      exact ⟨[], by simp, .nil⟩
  | .cons name nullable shape rest, i, children, hfields, hsteps, h => by
    cases children with
    | nil =>
      rw [membersOf] at hfields
      cases hfields
    | cons c cs =>
      rw [membersOf] at hfields
      obtain ⟨shape', hshape, hrest⟩ := Option.bind_eq_some_iff.mp hfields
      obtain ⟨rest', hcs, hcons⟩ := Option.map_eq_some_iff.mp hrest
      cases hcons
      rw [flattenFields] at h
      split at h
      · cases h
      rename_i out1 h1
      let node : PathNode := ⟨i, c.nameOr, c.flags &&& ARROW_FLAG_NULLABLE != 0⟩
      have hpath : ∀ {α : Type} (f : PathNode → α),
          path.map f ++ [f node] = (path ++ [node]).map f := by
        intro α f
        rw [List.map_append, List.map_singleton]
      rw [nullableChild_of_shape hshape] at h1
      change flattenNode c _ _ (path.map (·.index) ++ [node.index])
        (path.map (·.name) ++ [node.name]) (path.map (·.nullable) ++ [node.nullable]) _ _ = _ at h1
      rw [hpath (·.index), hpath (·.name), hpath (·.nullable)] at h1
      obtain ⟨first, hfirst, hall⟩ :=
        flattenNode_leaves shape hshape (repLevels_struct hsteps optional i) h1
      obtain ⟨others, hothers, hall'⟩ := flattenFields_leaves rest (i + 1) hcs hsteps h
      refine ⟨first ++ others, by rw [hothers, hfirst, List.append_assoc], ?_⟩
      rw [Members.leaves]
      refine List.rel_append ?_ hall'
      rw [List.forall₂_map_left_iff]
      exact hall.imp fun below leaf hleaf => by
        rw [List.append_assoc] at hleaf
        exact hleaf

end

/-- **The writer's leaves follow those of the type.** -/
theorem flattenColumns_leaves {out out' : Flat} : (fields : Members) → (i : Nat) →
    {columns : List ArrowSchema} → membersOf columns = some fields →
    flattenColumns columns i out = .ok out' →
    ∃ leaves, out'.2 = out.2 ++ leaves ∧
      List.Forall₂ (fun p leaf => LeafAt p.1 p.2 leaf) (fields.leaves i) leaves
  | .nil, i, columns, hfields, h => by
    cases columns with
    | cons c cs =>
      rw [membersOf] at hfields
      obtain ⟨_, _, hrest⟩ := Option.bind_eq_some_iff.mp hfields
      obtain ⟨_, _, hcons⟩ := Option.map_eq_some_iff.mp hrest
      cases hcons
    | nil =>
      rw [flattenColumns] at h
      cases h
      rw [Members.leaves]
      exact ⟨[], by simp, .nil⟩
  | .cons name nullable shape rest, i, columns, hfields, h => by
    cases columns with
    | nil =>
      rw [membersOf] at hfields
      cases hfields
    | cons c cs =>
      rw [membersOf] at hfields
      obtain ⟨shape', hshape, hrest⟩ := Option.bind_eq_some_iff.mp hfields
      obtain ⟨rest', hcs, hcons⟩ := Option.map_eq_some_iff.mp hrest
      cases hcons
      rw [flattenColumns] at h
      split at h
      · cases h
      rename_i out1 h1
      rw [flattenSchema, nullableChild_of_shape hshape] at h1
      obtain ⟨first, hfirst, hall⟩ := @flattenNode_leaves _ _
        [⟨i, c.nameOr, c.flags &&& ARROW_FLAG_NULLABLE != 0⟩] [] _ _ shape c hshape rfl h1
      obtain ⟨others, hothers, hall'⟩ := flattenColumns_leaves rest (i + 1) hcs h
      refine ⟨first ++ others, by rw [hothers, hfirst, List.append_assoc], ?_⟩
      rw [Members.leaves]
      refine List.rel_append ?_ hall'
      rw [List.forall₂_map_left_iff]
      exact hall

/-! ## Slots -/

section Slots

variable {a : ArrowArray} {n e : Nat}

theorem bitAt_of_validBit {validity : Option Bytes} {there : Bool} (hn : 1 ≤ a.nBuffers)
    (hb : a.buffer 0 = .ok validity) (hbit : validBit validity e = .ok there) :
    a.bitAt e = there := by
  unfold ArrowArray.bitAt
  rw [if_neg (by omega)]
  cases validity with
  | none =>
    have hnone : a.buffer? 0 = none := by
      cases hsome : a.buffer? 0 with
      | none => rfl
      | some bm =>
        rw [ArrowArray.buffer_eq_ok.mpr hsome] at hb
        cases hb
    rw [hnone]
    cases hbit
    rfl
  | some bm =>
    rw [ArrowArray.buffer_eq_ok.mp hb]
    change readBit bm e = .ok there at hbit
    unfold readBit at hbit
    dsimp only
    cases hget : ByteSeq.getBit bm e with
    | none =>
      rw [hget] at hbit
      cases hbit
    | some b =>
      rw [hget] at hbit
      cases hbit
      rfl

/-- The slot of a leaf: null, or a value. -/
theorem cellAt_leaf_cases {t : ArrowType} {cell : Cell} (ha : Exact n (.leaf t) a) (he : e < n)
    (h : cellAt (.leaf t) a e = .ok cell) :
    cell = .null ∧ a.bitAt e = false ∨
      ∃ v, cell = .scalar v ∧ scalarAt t a e = .ok v ∧ a.bitAt e = true := by
  rw [Exact] at ha
  obtain ⟨⟨hlen, hoff, ⟨hbuf, _⟩, _, _⟩, _⟩ := ha
  have hpos : 1 ≤ a.nBuffers := by
    rw [hbuf]
    cases t <;> simp [ArrowType.buffers]
  rw [cellAt, slotOf_unsliced hlen hoff he] at h
  obtain ⟨_, hslot, h⟩ := Outcome.bind_eq_ok.mp h
  cases hslot
  obtain ⟨validity, hb, h⟩ := Outcome.bind_eq_ok.mp h
  obtain ⟨there, hbit, h⟩ := Outcome.bind_eq_ok.mp h
  have hat := bitAt_of_validBit hpos hb hbit
  cases there with
  | false =>
    cases h
    exact .inl ⟨rfl, hat⟩
  | true =>
    obtain ⟨v, hv, rfl⟩ := Outcome.map_eq_ok.mp h
    exact .inr ⟨v, rfl, hv, hat⟩

/-- The slot of a struct: null, or its fields'. -/
theorem cellAt_struct_cases {fields : Members} {cell : Cell} (ha : Exact n (.struct fields) a)
    (he : e < n) (h : cellAt (.struct fields) a e = .ok cell) :
    ∃ children, a.children = some children ∧ ExactAll n fields children ∧
      (cell = .null ∧ a.bitAt e = false ∨
        ∃ cells, cell = .struct cells ∧ cellsAt fields children e = .ok cells ∧
          a.bitAt e = true) := by
  rw [Exact] at ha
  obtain ⟨⟨hlen, hoff, ⟨hbuf, _⟩, _, _⟩, children, hc, hall⟩ := ha
  refine ⟨children, hc, hall, ?_⟩
  rw [cellAt, slotOf_unsliced hlen hoff he] at h
  obtain ⟨_, hslot, h⟩ := Outcome.bind_eq_ok.mp h
  cases hslot
  obtain ⟨validity, hb, h⟩ := Outcome.bind_eq_ok.mp h
  obtain ⟨there, hbit, h⟩ := Outcome.bind_eq_ok.mp h
  have hat := bitAt_of_validBit (by omega) hb hbit
  cases there with
  | false =>
    cases h
    exact .inl ⟨rfl, hat⟩
  | true =>
    rw [hc] at h
    obtain ⟨cells, hcells, rfl⟩ := Outcome.map_eq_ok.mp h
    exact .inr ⟨cells, rfl, hcells, hat⟩

end Slots

/-- A number of one or two bytes is the same at four. -/
theorem bmod_narrow {w : Nat} {bs : Bytes} (hw : w = 1 ∨ w = 2) (hlen : bs.length = w)
    (signed : Bool) :
    Int.bmod (if signed then signedLE bs else ByteSeq.ofLE bs) (256 ^ 4) =
      if signed then signedLE bs else ByteSeq.ofLE bs := by
  have hlt := ByteSeq.ofLE_lt bs
  have hpow : 256 ^ bs.length ≤ 65536 := by
    rw [hlen]
    rcases hw with rfl | rfl <;> decide
  cases signed with
  | false => exact Int.bmod_eq_of_le (by simp) (by simp; omega)
  | true =>
    have hlo := Int.le_bmod (x := ByteSeq.ofLE bs) (Nat.pow_pos (by decide) : 0 < 256 ^ bs.length)
    have hhi := Int.bmod_lt (x := ByteSeq.ofLE bs) (Nat.pow_pos (by decide) : 0 < 256 ^ bs.length)
    unfold signedLE
    exact Int.bmod_eq_of_le (by simp; omega) (by simp; omega)

/-- A string between two offsets is stored. -/
theorem value_binary {text large : Bool} {a : ArrowArray} {e : Nat} {data : Bytes} {v : Scalar}
    (hdata : a.data 1 = .ok data)
    (h : (do
      let start ← readOffset (if large then 8 else 4) data e
      let stop ← readOffset (if large then 8 else 4) data (e + 1)
      let bytes ← a.data 2
      if 0 ≤ start ∧ start ≤ stop ∧ stop ≤ bytes.length then
        pure (.bytes ((bytes.drop start.toNat).take (stop - start).toNat))
      else throw .undefined : Except Fault Scalar) = .ok v) :
    (ColumnKind.bytes text large).value a e =
      (ArrowType.binary text (if large then 8 else 4)).value v := by
  obtain ⟨start, hstart, h⟩ := Outcome.bind_eq_ok.mp h
  obtain ⟨stop, hstop, h⟩ := Outcome.bind_eq_ok.mp h
  obtain ⟨bytes, hbytes, h⟩ := Outcome.bind_eq_ok.mp h
  split at h
  · cases h
    have hread : ∀ {w j : Nat} {x : Int}, readOffset w data j = .ok x →
        signedLE (ByteSeq.element w data j) = x := by
      intro w j x hx
      obtain ⟨bs, hbs, rfl⟩ := Outcome.map_eq_ok.mp hx
      unfold readElem at hbs
      split at hbs
      · cases hbs
        rfl
      · cases hbs
    show Value.byteArray (byteStringAt _ (a.bytes 1) (a.bytes 2) e) = .byteArray _
    unfold byteStringAt ArrowArray.bytes
    rw [hdata, hbytes]
    dsimp only
    rw [hread hstart, hread hstop]
  · cases h

/-- **A value is stored at its type.** -/
theorem value_of_scalarAt {t : ArrowType} {k : ColumnKind} {a : ArrowArray} {e : Nat} {v : Scalar}
    (hk : t.kind = some k) (h : scalarAt t a e = .ok v) : k.value a e = t.value v := by
  unfold scalarAt at h
  obtain ⟨data, hdata, hread⟩ := Outcome.bind_eq_ok.mp h
  have hbytes : a.bytes 1 = data := by
    unfold ArrowArray.bytes
    rw [hdata]
  have helem : ∀ {w : Nat} {bs : Bytes}, readElem w data e = .ok bs →
      ByteSeq.element w data e = bs ∧ bs.length = w := by
    intro w bs hbs
    unfold readElem at hbs
    split at hbs
    · rename_i hin
      cases hbs
      exact ⟨rfl, ByteSeq.length_element hin⟩
    · cases hbs
  have hnumber : ∀ {w : Nat} {bs : Bytes}, ByteSeq.element w data e = bs ∧ bs.length = w →
      signedLE bs = Int.bmod (signedLE bs) (256 ^ w) ∧
        signedLE bs = Int.bmod (ByteSeq.ofLE bs) (256 ^ w) := by
    rintro w bs ⟨_, hlen⟩
    unfold signedLE
    rw [hlen, Int.bmod_bmod]
    exact ⟨rfl, rfl⟩
  unfold ArrowType.kind at hk
  split at hk
  case h_1 =>
    cases hk
    obtain ⟨b, hb, rfl⟩ := Outcome.map_eq_ok.mp hread
    unfold readBit at hb
    cases hget : ByteSeq.getBit data e with
    | none =>
      rw [hget] at hb
      cases hb
    | some b' =>
      rw [hget] at hb
      cases hb
      show Value.boolean ((ByteSeq.getBit (a.bytes 1) e).getD false) = _
      rw [hbytes, hget]
      rfl
  case h_2 signed =>
    cases hk
    obtain ⟨bs, hbs, rfl⟩ := Outcome.map_eq_ok.mp hread
    show Value.int32 (if signed then signedLE (ByteSeq.element 1 (a.bytes 1) e)
      else ByteSeq.ofLE (ByteSeq.element 1 (a.bytes 1) e)) = .int32 (Int.bmod _ (256 ^ 4))
    rw [hbytes, (helem hbs).1, bmod_narrow (.inl rfl) (helem hbs).2]
  case h_3 signed =>
    cases hk
    obtain ⟨bs, hbs, rfl⟩ := Outcome.map_eq_ok.mp hread
    show Value.int32 (if signed then signedLE (ByteSeq.element 2 (a.bytes 1) e)
      else ByteSeq.ofLE (ByteSeq.element 2 (a.bytes 1) e)) = .int32 (Int.bmod _ (256 ^ 4))
    rw [hbytes, (helem hbs).1, bmod_narrow (.inr rfl) (helem hbs).2]
  case h_4 signed =>
    cases hk
    obtain ⟨bs, hbs, rfl⟩ := Outcome.map_eq_ok.mp hread
    obtain ⟨hsame, hbits⟩ := hnumber (helem hbs)
    show Value.int32 (signedLE (ByteSeq.element 4 (a.bytes 1) e)) = .int32 (Int.bmod _ (256 ^ 4))
    rw [hbytes, (helem hbs).1]
    cases signed
    · exact congrArg Value.int32 hbits
    · exact congrArg Value.int32 hsame
  case h_5 signed =>
    cases hk
    obtain ⟨bs, hbs, rfl⟩ := Outcome.map_eq_ok.mp hread
    obtain ⟨hsame, hbits⟩ := hnumber (helem hbs)
    show Value.int64 (signedLE (ByteSeq.element 8 (a.bytes 1) e)) = .int64 (Int.bmod _ (256 ^ 8))
    rw [hbytes, (helem hbs).1]
    cases signed
    · exact congrArg Value.int64 hbits
    · exact congrArg Value.int64 hsame
  case h_6 =>
    cases hk
    obtain ⟨bs, hbs, rfl⟩ := Outcome.map_eq_ok.mp hread
    show Value.float (ByteSeq.ofLE (ByteSeq.element 4 (a.bytes 1) e)) = _
    rw [hbytes, (helem hbs).1]
    rfl
  case h_7 =>
    cases hk
    obtain ⟨bs, hbs, rfl⟩ := Outcome.map_eq_ok.mp hread
    show Value.double (ByteSeq.ofLE (ByteSeq.element 8 (a.bytes 1) e)) = _
    rw [hbytes, (helem hbs).1]
    rfl
  case h_8 w =>
    split at hk
    · cases hk
      obtain ⟨bs, hbs, rfl⟩ := Outcome.map_eq_ok.mp hread
      show Value.fixed (ByteSeq.element w (a.bytes 1) e) = _
      rw [hbytes, (helem hbs).1]
      rfl
    · cases hk
  case h_9 text =>
    cases hk
    exact value_binary hdata hread
  case h_10 text =>
    cases hk
    exact value_binary hdata hread
  case h_11 => cases hk

/-! ## Records -/

mutual

/-- The buffers of every leaf are as long as the format promises. -/
def Buffered : Shape → ArrowArray → Prop
  | .leaf t, a => ∀ k, t.kind = some k → k.BuffersOk a
  | .struct fields, a => ∀ children, a.children = some children → BufferedAll fields children

def BufferedAll : Members → List ArrowArray → Prop
  | .cons _ _ shape rest, a :: as => Buffered shape a ∧ BufferedAll rest as
  | _, _ => True

end

/-- A leaf of a struct lies below one of its fields. -/
structure Below (fields : Members) (i n : Nat) (children : List ArrowArray) (node : PathNode)
    (path : List PathNode) (t : ArrowType) (shape : Shape) (c : ArrowArray) : Prop where
  leaf : (path, t) ∈ shape.leaves
  index : i ≤ node.index
  child : children[node.index - i]? = some c
  exact : Exact n shape c
  cell : ∀ {e cells}, cellsAt fields children e = .ok cells →
    ∃ cell, cells.get? (node.index - i) = some cell ∧ cellAt shape c e = .ok cell
  buffered : BufferedAll fields children → Buffered shape c

theorem below_of_mem {path : List PathNode} {t : ArrowType} {n : Nat} : {fields : Members} →
    {i : Nat} → {children : List ArrowArray} → (path, t) ∈ fields.leaves i →
    ExactAll n fields children →
    ∃ node rest shape c, path = node :: rest ∧ Below fields i n children node rest t shape c
  | .nil, i, children, h, _ => by
    rw [Members.leaves] at h
    cases h
  | .cons name nullable shape others, i, [], h, hexact => by
    simp [ExactAll] at hexact
  | .cons name nullable shape others, i, a :: as, h, hexact => by
    rw [ExactAll] at hexact
    rw [Members.leaves] at h
    rcases List.mem_append.mp h with h | h
    · obtain ⟨⟨rest, t'⟩, hleaf, heq⟩ := List.mem_map.mp h
      cases heq
      refine ⟨_, rest, shape, a, rfl, hleaf, Nat.le_refl i, ?_, hexact.1, ?_, ?_⟩
      · rw [Nat.sub_self]
        rfl
      · intro e cells hcells
        rw [cellsAt] at hcells
        obtain ⟨cell, hcell, hrest⟩ := Outcome.bind_eq_ok.mp hcells
        obtain ⟨_, _, rfl⟩ := Outcome.map_eq_ok.mp hrest
        refine ⟨cell, ?_, hcell⟩
        rw [Nat.sub_self, Cells.get?]
      · intro hall
        rw [BufferedAll] at hall
        exact hall.1
    · obtain ⟨node, rest, shape', c, rfl, hb⟩ := below_of_mem h hexact.2
      have hidx := hb.index
      have hsucc : node.index - i = node.index - (i + 1) + 1 := by omega
      refine ⟨node, rest, shape', c, rfl, hb.leaf, by omega, ?_, hb.exact, ?_, ?_⟩
      · rw [hsucc, List.getElem?_cons_succ]
        exact hb.child
      · intro e cells hcells
        rw [cellsAt] at hcells
        obtain ⟨cell, hcell, hrest⟩ := Outcome.bind_eq_ok.mp hcells
        obtain ⟨cs, hcs, rfl⟩ := Outcome.map_eq_ok.mp hrest
        obtain ⟨cell', hget, hcell'⟩ := hb.cell hcs
        refine ⟨cell', ?_, hcell'⟩
        rw [hsucc, Cells.get?]
        exact hget
      · intro hall
        rw [BufferedAll] at hall
        exact hb.buffered hall.2

/-- The Arrow nodes from a node of the path down. -/
abbrev stepsFrom (node : PathNode) (path : List PathNode) : List PathStep :=
  structSteps (path.map (·.index)) (node.nullable :: path.map (·.nullable))

/-- What the leaf below a node holds, by the arrays and by the rows. -/
structure Recorded (leaf : LeafSpec) (t : ArrowType) (k : ColumnKind) (n : Nat) (shape : Shape)
    (a : ArrowArray) (node : PathNode) (path : List PathNode) (arr : ArrowArray) : Prop where
  leafOf : leafOf? (stepsFrom node path) a = some arr
  offsets : ∀ x ∈ pathArrays (stepsFrom node path) a, x.offset = 0
  buffers : Buffered shape a → k.BuffersOk arr
  record : ∀ {e cell cells}, e < n → cellAt shape a e = .ok cell →
    cells.get? node.index = some cell → ∀ {x},
    record t (node :: path) (stepRepetitions (stepsFrom node path)) (.struct cells) = some x →
    project leaf (k.value arr) (stepsFrom node path) a e = x

theorem recorded {leaf : LeafSpec} {t : ArrowType} {k : ColumnKind} (hk : t.kind = some k)
    (hnull : leaf.col.extract ≠ .null) {n : Nat} {path : List PathNode} {shape : Shape}
    {a : ArrowArray} {node : PathNode} (hleaf : (path, t) ∈ shape.leaves) (ha : Exact n shape a) :
    ∃ arr, Recorded leaf t k n shape a node path arr := by
  have hstep : ∀ {st : PathStep} {c : ArrowArray} {e : Nat},
      leaf.nullAt st c e = !c.bitAt e := by
    intro st c e
    unfold LeafSpec.nullAt LeafSpec.nullStep ArrowArray.slotNull
    simp [hnull]
  induction path generalizing shape a node with
  | nil =>
    obtain rfl : shape = .leaf t := by
      cases shape with
      | leaf t' =>
        rw [Shape.leaves] at hleaf
        cases List.mem_singleton.mp hleaf
        rfl
      | struct fields =>
        rw [Shape.leaves] at hleaf
        exact absurd hleaf (nil_not_mem_leaves fields 0)
    rw [Exact] at ha
    refine ⟨a, rfl, fun x hx => ?_, fun hb => ?_, fun {e cell cells} he hcell hget {x} hx => ?_⟩
    · obtain rfl : x = a := List.mem_singleton.mp hx
      exact ha.1.offset
    · rw [Buffered] at hb
      exact hb k hk
    · obtain ⟨i, name, nullable⟩ := node
      cases nullable with
      | true =>
        change ((cells.get? i).bind _) = some x at hx
        rw [hget] at hx
        show atNode true (leaf.nullAt _ a e) (k.value a e) = x
        rw [hstep]
        rcases cellAt_leaf_cases ha he hcell with ⟨rfl, hbit⟩ | ⟨v, rfl, hv, hbit⟩
        · cases hx
          rw [hbit]
          rfl
        · cases hx
          rw [hbit, value_of_scalarAt hk hv]
          rfl
      | false =>
        change ((cells.get? i).bind _) = some x at hx
        rw [hget] at hx
        show k.value a e = x
        rcases cellAt_leaf_cases ha he hcell with ⟨rfl, hbit⟩ | ⟨v, rfl, hv, hbit⟩
        · cases hx
        · cases hx
          exact value_of_scalarAt hk hv
  | cons next path ih =>
    cases shape with
    | leaf t' =>
      rw [Shape.leaves] at hleaf
      cases List.mem_singleton.mp hleaf
    | struct fields =>
      rw [Shape.leaves] at hleaf
      have hexact := ha
      rw [Exact] at hexact
      obtain ⟨hnode, children, hc, hall⟩ := hexact
      obtain ⟨_, _, shape', c, hpath, hbelow⟩ := below_of_mem hleaf hall
      cases hpath
      have hchild : children[next.index]? = some c := hbelow.child
      obtain ⟨arr, harr⟩ := @ih shape' c next hbelow.leaf hbelow.exact
      have htarget : a.child? next.index = some c := by
        unfold ArrowArray.child?
        rw [hc]
        exact hchild
      refine ⟨arr, ?_, fun x hx => ?_, fun hb => ?_, fun {e cell cells} he hcell hget {x} hx => ?_⟩
      · show (a.child? next.index).bind (leafOf? (stepsFrom next path)) = some arr
        rw [htarget]
        exact harr.leafOf
      · change x ∈ a :: ((a.child? next.index).map (pathArrays (stepsFrom next path))).getD [] at hx
        rw [htarget] at hx
        rcases List.mem_cons.mp hx with rfl | hx
        · exact hnode.offset
        · exact harr.offsets x hx
      · rw [Buffered] at hb
        exact harr.buffers (hbelow.buffered (hb children hc))
      · obtain ⟨children', hc', _, hslot⟩ := cellAt_struct_cases ha he hcell
        rw [hc] at hc'
        cases hc'
        have hproject : ∀ inner, cellsAt fields children e = .ok inner → ∀ {y},
            record t (next :: path) (stepRepetitions (stepsFrom next path)) (.struct inner) =
              some y → project leaf (k.value arr) (stepsFrom next path) c e = y := by
          intro inner hinner y hy
          obtain ⟨cell', hget', hcell'⟩ := hbelow.cell hinner
          exact harr.record he hcell' hget' hy
        obtain ⟨i, name, nullable⟩ := node
        cases nullable with
        | true =>
          change ((cells.get? i).bind _) = some x at hx
          rw [hget] at hx
          show atNode true (leaf.nullAt _ a e)
            (project leaf (k.value arr) (stepsFrom next path) ((a.child? next.index).getD a) e) = x
          rw [hstep, htarget]
          rcases hslot with ⟨rfl, hbit⟩ | ⟨inner, rfl, hinner, hbit⟩
          · cases hx
            rw [hbit]
            rfl
          · obtain ⟨y, hy, rfl⟩ := Option.map_eq_some_iff.mp hx
            rw [hbit]
            exact congrArg some (hproject inner hinner hy)
        | false =>
          change ((cells.get? i).bind _) = some x at hx
          rw [hget] at hx
          show project leaf (k.value arr) (stepsFrom next path) ((a.child? next.index).getD a) e = x
          rw [htarget]
          rcases hslot with ⟨rfl, hbit⟩ | ⟨inner, rfl, hinner, hbit⟩
          · have hnone := record_null t (next :: path) (stepRepetitions (stepsFrom next path))
            exact absurd (hnone.symm.trans hx) nofun
          · exact hproject inner hinner hx

/-- The nodes on a flat leaf's path. -/
theorem LeafAt.arrowSteps {leaf : LeafSpec} {node : PathNode} {path : List PathNode}
    {t : ArrowType} (h : LeafAt (node :: path) t leaf) : leaf.arrowSteps = stepsFrom node path := by
  unfold LeafSpec.arrowSteps
  rw [if_neg (by simp [h.flat]), h.idx, h.optional]
  rfl

/-- The repetitions of a path. -/
theorem stepRepetitions_stepsFrom (node : PathNode) (path : List PathNode) :
    stepRepetitions (stepsFrom node path) = (node :: path).map (·.repetition) := by
  induction path generalizing node with
  | nil => rfl
  | cons next path ih =>
    show (_ : List Repetition) ++ stepRepetitions (stepsFrom next path) = _
    rw [ih next]
    rfl

/-- A batch that denotes these rows, from buffers as long as the format promises. -/
structure Denotes (fields : Members) (rows : List Cells) (batch : ArrowArray) : Prop where
  exact : Exact rows.length (.struct fields) batch
  buffered : Buffered (.struct fields) batch
  cells : ∀ {i row}, rows[i]? = some row → cellAt (.struct fields) batch i = .ok (.struct row)

theorem exactAll_length {n : Nat} : {fields : Members} → {children : List ArrowArray} →
    ExactAll n fields children → children.length = fields.length
  | .nil, [], _ => rfl
  | .nil, _ :: _, h => by simp [ExactAll] at h
  | .cons _ _ _ _, [], h => by simp [ExactAll] at h
  | .cons _ _ _ rest, _ :: as, h => by
    rw [ExactAll] at h
    rw [List.length_cons, exactAll_length h.2, Members.length]

/-- Two lists whose elements correspond, one being read from the other. -/
theorem map_range_eq {α β : Type} {f : α → Option β} {g : Nat → β} {l : List α} {bs : List β}
    (h : l.mapM f = some bs) (hg : ∀ i a b, l[i]? = some a → f a = some b → g i = b) :
    (List.range l.length).map g = bs := by
  induction l generalizing bs g with
  | nil =>
    cases h
    rfl
  | cons a l ih =>
    rw [List.mapM_cons] at h
    obtain ⟨b, hb, h⟩ := Option.bind_eq_some_iff.mp h
    obtain ⟨bs, hbs, h⟩ := Option.bind_eq_some_iff.mp h
    cases h
    rw [List.length_cons, List.range_succ_eq_map, List.map_cons, List.map_map, hg 0 a b rfl hb,
      ← ih hbs fun i a b ha hb => hg (i + 1) a b ha hb]
    rfl

section Batch

variable {fields : Members} {rows : List Cells} {batch : ArrowArray}

theorem Denotes.length (h : Denotes fields rows batch) : batch.length = (rows.length : Int) := by
  have hexact := h.exact
  rw [Exact] at hexact
  exact hexact.1.length

/-- **What a batch holds on a leaf is the leaf's column of the rows it denotes.** -/
theorem Denotes.leafColumn (h : Denotes fields rows batch) {p : LeafPath}
    (hp : p ∈ fields.leaves 0) {leaf : LeafSpec} (hleaf : LeafAt p.1 p.2 leaf) :
    LeafArrays leaf batch ∧
      ∀ {c}, leafTable p rows = some c → N2P.leafColumn leaf batch = some c := by
  obtain ⟨path, t⟩ := p
  have hexact := h.exact
  rw [Exact] at hexact
  obtain ⟨hnode, children, hchildren, hall⟩ := hexact
  obtain ⟨node, path, shape, a, rfl, hbelow⟩ := below_of_mem hp hall
  change LeafAt (node :: path) t leaf at hleaf
  obtain ⟨k, name, nullable, hk, hcol⟩ := hleaf.kind
  have hkind : leaf.col.kind? = some k := by rw [hcol, ColumnKind.kind?_spec]
  have hnull : leaf.col.extract ≠ .null := by
    rw [hcol, Ne, ColumnKind.spec_extract_null]
    exact t.kind_ne_null hk
  obtain ⟨arr, harr⟩ := @recorded leaf t k hk hnull rows.length path shape a node hbelow.leaf
    hbelow.exact
  have hchild : children[node.index]? = some a := hbelow.child
  have htop : topColumn leaf batch = .ok a := by
    have hlt : node.index < children.length := (List.getElem?_eq_some_iff.mp hchild).1
    rw [exactAll_length hall] at hlt
    unfold topColumn
    rw [hleaf.idx]
    show (if batch.children.isNone ∨ (node.index : Int) ≥ batch.nChildren then _ else _) = _
    rw [if_neg (by rw [hnode.children, hchildren]; simp; omega)]
    unfold ArrowArray.child
    rw [hchildren]
    dsimp only
    rw [hchild]
  have hbuf := h.buffered
  rw [Buffered] at hbuf
  have hok := harr.buffers (hbelow.buffered (hbuf children hchildren))
  have hsteps := hleaf.arrowSteps
  have hunsliced : StartsAtZero leaf batch a := ⟨hnode.offset, hsteps ▸ harr.offsets⟩
  refine ⟨⟨fun column hcolumn => ?_, by simp [hleaf.flat],
    fun column arr' k' hcolumn harr' hk' => ?_⟩, fun {c} hc => ?_⟩
  · rw [htop] at hcolumn
    cases hcolumn
    exact hunsliced
  · rw [htop] at hcolumn
    cases hcolumn
    rw [hsteps, harr.leafOf] at harr'
    cases harr'
    rw [hkind] at hk'
    cases hk'
    exact hok
  · have hkey : ∀ recs : List (Val Value (stepRepetitions (stepsFrom node path))),
        (rows.mapM fun row => record t (node :: path) (stepRepetitions (stepsFrom node path))
          (.struct row)) = some recs →
        (List.range rows.length).map (project leaf (k.value arr) (stepsFrom node path) a) = recs := by
      intro recs hrecs
      refine map_range_eq hrecs fun i row x hrow hx => ?_
      obtain ⟨hi, _⟩ := List.getElem?_eq_some_iff.mp hrow
      obtain ⟨children', hc', _, hslot⟩ := cellAt_struct_cases h.exact hi (h.cells hrow)
      rw [hchildren] at hc'
      cases hc'
      rcases hslot with ⟨hnone, _⟩ | ⟨cells, heq, hcells, _⟩
      · cases hnone
      · cases heq
        obtain ⟨cell, hget, hcell⟩ := hbelow.cell hcells
        exact harr.record hi hcell hget hx
    rw [leafColumn_eq htop hunsliced (hsteps ▸ harr.leafOf) hkind]
    unfold leafRows
    rw [hsteps, hleaf.names, hnode.length]
    unfold leafTable at hc
    dsimp only at hc
    rw [← stepRepetitions_stepsFrom] at hc
    obtain ⟨recs, hrecs, rfl⟩ := Option.map_eq_some_iff.mp hc
    rw [Int.toNat_natCast, hkey recs hrecs]

/-- **What a batch holds is the table its rows make.** -/
theorem batchColumns_denoted {columns : List ArrowSchema} {nodes : List SchemaNode}
    {leaves : List LeafSpec} (hfields : membersOf columns = some fields)
    (hflat : flattenColumns columns 0 ([], []) = .ok (nodes, leaves))
    (h : Denotes fields rows batch) :
    (∀ leaf ∈ leaves, LeafArrays leaf batch) ∧
      ∀ {table}, tableOf fields rows = some table →
        leaves.mapM (N2P.leafColumn · batch) = some table := by
  obtain ⟨leaves', hout, hall⟩ := flattenColumns_leaves fields 0 hfields hflat
  rw [List.nil_append] at hout
  change leaves = leaves' at hout
  subst hout
  have hleaf : ∀ p ∈ fields.leaves 0, ∀ leaf, LeafAt p.1 p.2 leaf →
      LeafArrays leaf batch ∧
        ∀ {c}, leafTable p rows = some c → N2P.leafColumn leaf batch = some c :=
    fun p hp leaf hat => h.leafColumn hp hat
  unfold tableOf
  clear hflat
  generalize fields.leaves 0 = ps at hall hleaf
  induction hall with
  | nil => exact ⟨fun _ hleaf => absurd hleaf List.not_mem_nil, fun htable => htable⟩
  | @cons p leaf ps leaves hat _ ih =>
    obtain ⟨harrays, hcolumn⟩ := hleaf p List.mem_cons_self leaf hat
    obtain ⟨harrays', hcolumns⟩ := ih fun q hq => hleaf q (List.mem_cons_of_mem p hq)
    refine ⟨fun l hl => ?_, fun {table} htable => ?_⟩
    · rcases List.mem_cons.mp hl with rfl | hl
      · exact harrays
      · exact harrays' l hl
    · rw [List.mapM_cons] at htable
      obtain ⟨c, hc, htable⟩ := Option.bind_eq_some_iff.mp htable
      obtain ⟨cs, hcs, htable⟩ := Option.bind_eq_some_iff.mp htable
      cases htable
      rw [List.mapM_cons, hcolumn hc, hcolumns hcs]
      rfl

end Batch

end N2P.Columnar
