import N2P.SoaBuffers
import N2P.Reference

/-!
# Ragged chunks of the columnar front-end

`build_node` sizes the offsets and the packed booleans by the first leaf's length, loops over the
caller's range, and reports a length mismatch only after the tree is built.

* `RefusedInBounds` — a ragged chunk is refused, and every index used on a buffer that
  `build_node` sized, or that a wrapper packed, lies inside it.
* `refusedInBounds_iff` — that holds exactly when, on an open writer, no string range is longer
  than the first leaf's and no boolean is true behind its packed bytes, and, on a closed one, the
  stored status already refuses a ragged chunk.
-/

namespace N2P.Soa

/-! ## Lengths -/

mutual

/-- The sizes of the ranges of a column's leaves, in order. -/
def leafSizes : {f : Field} → Column f → List Nat
  | .leaf _ _ _, .values vs => [vs.length]
  | .leaf _ _ _, .nullable vs _ => [vs.length]
  | .group _ _ _, .group children => sizes children
  | .group _ _ _, .nullableGroup _ children => sizes children

def sizes : {fs : Fields} → Columns fs → List Nat
  | _, .last c => leafSizes c
  | _, .cons c rest => leafSizes c ++ sizes rest

end

/-- Some leaf's range differs in length from the first leaf's. -/
def Ragged {fs : Fields} (cols : Columns fs) : Prop := ∃ k ∈ sizes cols, k ≠ firstSize cols

/-- The entries of a mask given for an OPTIONAL group. -/
def Presence.rows : Presence → List Nat
  | .mask m => [m.length]
  | .bits _ _ => []

mutual

/-- The entries of the masks given through `group_present`, in order. -/
def groupRows : {f : Field} → Column f → List Nat
  | .leaf _ _ _, .values _ => []
  | .leaf _ _ _, .nullable _ _ => []
  | .group _ _ _, .group children => groupsRows children
  | .group _ _ _, .nullableGroup p children => p.rows ++ groupsRows children

def groupsRows : {fs : Fields} → Columns fs → List Nat
  | _, .last c => groupRows c
  | _, .cons c rest => groupRows c ++ groupsRows rest

end

/-- What `build_node` finds wrong: a range of another length than the first leaf's, or a group's
    mask of another, unless it has the length that stands for an unknown one. -/
def Misshapen {fs : Fields} (cols : Columns fs) : Prop :=
  Ragged cols ∨ ∃ k ∈ groupsRows cols, k ≠ unknownRows ∧ k ≠ firstSize cols

/-- A leaf's loop stays in buffers sized for `n` values. -/
def LeafFits : (t : FieldType) → List t.Value → Nat → Prop
  | .element _, _, _ => True
  | .string _, vs, n => vs.length ≤ n
  | .bool, vs, n => ∀ i, vs[i]? = some true → i / 8 < (n + 7) / 8

mutual

/-- Every leaf's loop does. -/
def ColumnFits (n : Nat) : {f : Field} → Column f → Prop
  | .leaf _ t _, .values vs => LeafFits t vs n
  | .leaf _ t _, .nullable vs _ => LeafFits t vs n
  | .group _ _ _, .group children => ColumnsFit n children
  | .group _ _ _, .nullableGroup _ children => ColumnsFit n children

def ColumnsFit (n : Nat) : {fs : Fields} → Columns fs → Prop
  | _, .last c => ColumnFits n c
  | _, .cons c rest => ColumnFits n c ∧ ColumnsFit n rest

end

/-! ## Indices of a leaf -/

/-- Every index used lies in its buffer. -/
def AllInBounds (accesses : List Access) : Prop := ∀ a ∈ accesses, a.InBounds

@[simp] theorem allInBounds_append {xs ys : List Access} :
    AllInBounds (xs ++ ys) ↔ AllInBounds xs ∧ AllInBounds ys := by
  simp only [AllInBounds, List.mem_append]
  constructor
  · intro h
    exact ⟨fun a ha => h a (.inl ha), fun a ha => h a (.inr ha)⟩
  · rintro ⟨hx, hy⟩ a (ha | ha)
    · exact hx a ha
    · exact hy a ha

/-- The bitmap a wrapper packed, if any, has a bit for each of `k` values. -/
def Validity.Covers (v : Validity) (k : Nat) : Prop :=
  v.ownedBitmap ≠ [] → k ≤ 8 * v.ownedBitmap.length

theorem covers_column (p : Presence) (n : Nat) : (p.column n).Covers n := by
  intro hne
  cases p with
  | mask m =>
    have hlen : (present n m).ownedBitmap.length = (n + 7) / 8 := (packMask_spec n _).length
    show n ≤ 8 * (present n m).ownedBitmap.length
    omega
  | bits bitmap nullCount => exact absurd rfl hne

/-- `present_at` stays inside a packed bitmap. -/
theorem Validity.Covers.reads {v : Validity} {k i : Nat} (h : v.Covers k) (hi : i < k) :
    AllInBounds (v.reads i) := by
  unfold Validity.reads
  split
  · intro a ha
    cases ha
  · rename_i hne
    have hk := h (by simpa using hne)
    intro a ha
    rw [List.mem_singleton.mp ha]
    show i / 8 < v.ownedBitmap.length
    omega

/-- The string branch stays inside its buffers exactly when the range is not too long. -/
theorem strings_inBounds {t : StringType} {v : Validity} {n : Nat} {vs : List Bytes}
    {b : StringBuffers} (hb : b.After t v n vs) (hv : v.Covers vs.length) :
    AllInBounds b.accesses ↔ vs.length ≤ n := by
  rw [hb.accesses]
  constructor
  · intro h
    by_contra hlong
    have hlast : n < vs.length := by omega
    have hmem : (⟨.off, n + 1, n + 1⟩ : Access) ∈
        (List.range vs.length).flatMap (v.stringAccesses n) := by
      apply List.mem_flatMap.mpr
      exact ⟨n, List.mem_range.mpr hlast, List.mem_append_right _ (List.mem_singleton.mpr rfl)⟩
    have hin : n + 1 < n + 1 := h _ (List.mem_cons_of_mem _ hmem)
    omega
  · intro hle a ha
    rcases List.mem_cons.mp ha with rfl | ha
    · exact Nat.succ_pos n
    · obtain ⟨i, hi, ha⟩ := List.mem_flatMap.mp ha
      have hi := List.mem_range.mp hi
      rcases List.mem_append.mp ha with ha | ha
      · exact hv.reads hi a ha
      · rw [List.mem_singleton.mp ha]
        show i + 1 < n + 1
        omega

/-- The bool branch stays inside `packed` exactly when no value behind its bits is true. -/
theorem bools_inBounds {n : Nat} {vs : List Bool} {b : PackedBits} (hb : b.After n vs) :
    AllInBounds b.accesses ↔ ∀ i, vs[i]? = some true → i / 8 < (n + 7) / 8 := by
  have hmem : ∀ i, i ∈ trueIndices vs ↔ vs[i]? = some true := by
    intro i
    rw [trueIndices, List.mem_filter, List.mem_range, List.getD_eq_getElem?_getD]
    constructor
    · rintro ⟨hi, h⟩
      rw [List.getElem?_eq_getElem hi] at h ⊢
      exact congrArg some h
    · intro h
      obtain ⟨hi, _⟩ := List.getElem?_eq_some_iff.mp h
      exact ⟨hi, by rw [h]; rfl⟩
  rw [hb.accesses]
  constructor
  · intro h i hi
    exact h _ (List.mem_map.mpr ⟨i, (hmem i).mpr hi, rfl⟩)
  · intro h a ha
    obtain ⟨i, hi, rfl⟩ := List.mem_map.mp ha
    exact h i ((hmem i).mp hi)

/-- One lemma for the three branches. -/
theorem leaf_inBounds (t : FieldType) (vs : List t.Value) {v : Validity} {n : Nat}
    (hv : v.Covers vs.length) :
    AllInBounds (leafBuffers t vs v n).accesses ↔ LeafFits t vs n := by
  cases t with
  | element t =>
    constructor
    · intro _
      trivial
    · intro _ a ha
      cases ha
  | string t => exact strings_inBounds (stringBuffers_spec t v n vs) hv
  | bool => exact bools_inBounds (packedBits_spec n vs)

/-! ## The tree -/

mutual

/-- The tree's indices stay inside exactly when every leaf's do. -/
theorem node_inBounds (n : Nat) : {f : Field} → (c : Column f) →
    (AllInBounds (buildNode c n).accesses ↔ ColumnFits n c)
  | .leaf _ t _, .values vs => by
    rw [buildNode, ColumnFits]
    exact leaf_inBounds t vs fun h => absurd rfl h
  | .leaf _ t _, .nullable vs p => by
    rw [buildNode, ColumnFits]
    exact leaf_inBounds t vs (covers_column p vs.length)
  | .group _ _ _, .group children => by
    rw [buildNode, ColumnFits]
    exact nodes_inBounds n children
  | .group _ _ _, .nullableGroup _ children => by
    rw [buildNode, ColumnFits]
    exact nodes_inBounds n children

theorem nodes_inBounds (n : Nat) : {fs : Fields} → (cols : Columns fs) →
    (AllInBounds (buildNodes cols n).accesses ↔ ColumnsFit n cols)
  | _, .last c => by
    rw [buildNodes, ColumnsFit]
    exact node_inBounds n c
  | _, .cons c rest => by
    rw [buildNodes, ColumnsFit, ← node_inBounds n c, ← nodes_inBounds n rest]
    exact allInBounds_append

end

theorem group_ok (p : Presence) (n : Nat) :
    (p.group.rows = unknownRows || p.group.rows = n) = true ↔
      ∀ k ∈ p.rows, k = unknownRows ∨ k = n := by
  cases p with
  | mask m =>
    show (decide (m.length = unknownRows) || decide (m.length = n)) = true ↔ _
    rw [Bool.or_eq_true_iff, decide_eq_true_iff, decide_eq_true_iff]
    simp [Presence.rows]
  | bits bitmap nullCount => simp [Presence.group, groupValid, Presence.rows]

mutual

/-- The flag stays set exactly when every leaf and every group's mask has `n` entries. -/
theorem node_ok (n : Nat) : {f : Field} → (c : Column f) →
    ((buildNode c n).ok = true ↔
      (∀ k ∈ leafSizes c, k = n) ∧ ∀ k ∈ groupRows c, k = unknownRows ∨ k = n)
  | .leaf _ _ _, .values vs => by
    rw [buildNode, leafSizes, groupRows]
    simp [buildLeaf]
  | .leaf _ _ _, .nullable vs p => by
    rw [buildNode, leafSizes, groupRows]
    simp [buildLeaf]
  | .group _ _ _, .group children => by
    rw [buildNode, leafSizes, groupRows, ← nodes_ok n children]
    simp [buildGroup]
  | .group _ _ _, .nullableGroup p children => by
    have hp := group_ok p n
    have hrec := nodes_ok n children
    rw [buildNode, leafSizes, groupRows, List.forall_mem_append, ← hp]
    show (_ && (buildNodes children n).ok) = true ↔ _
    rw [Bool.and_eq_true_iff, hrec]
    tauto

theorem nodes_ok (n : Nat) : {fs : Fields} → (cols : Columns fs) →
    ((buildNodes cols n).ok = true ↔
      (∀ k ∈ sizes cols, k = n) ∧ ∀ k ∈ groupsRows cols, k = unknownRows ∨ k = n)
  | _, .last c => by
    rw [buildNodes, sizes, groupsRows]
    exact node_ok n c
  | _, .cons c rest => by
    have hc := node_ok n c
    have hrest := nodes_ok n rest
    rw [buildNodes, sizes, groupsRows, List.forall_mem_append, List.forall_mem_append]
    show (_ && _) = true ↔ _
    rw [Bool.and_eq_true_iff, hc, hrest]
    tauto

end

/-- **The chunk is passed on exactly when nothing is found wrong.** -/
theorem chunk_ok {fs : Fields} (cols : Columns fs) :
    (chunkNode cols).ok = true ↔ ¬Misshapen cols := by
  refine (nodes_ok (firstSize cols) cols).trans ?_
  unfold Misshapen Ragged
  push Not
  constructor
  · rintro ⟨hsizes, hrows⟩
    exact ⟨hsizes, fun k hk hne => (hrows k hk).resolve_left hne⟩
  · rintro ⟨hsizes, hrows⟩
    exact ⟨hsizes, fun k hk => or_iff_not_imp_left.mpr (hrows k hk)⟩

/-! ## A call -/

section Calls

variable {X : External} {S : Schema} {self : SoaWriter S} {cols : Columns S.fields}

/-- The batch a call hands to the writer, if it does. -/
def handedBatch (self : SoaWriter S) (cols : Columns S.fields) : Option (ArrowSchema × ArrowArray) :=
  let node := chunkNode cols
  if self.w.isSome && node.ok then some (node.schema, node.array) else none

/-- A call that returns without an index out of bounds. -/
def ChunkCall.Returns (call : ChunkCall S) (status : N2PStatus) : Prop :=
  AllInBounds call.accesses ∧ ∃ self', call.result = some (status, self')

def ChunkCall.Refuses (call : ChunkCall S) : Prop := ∃ status, call.Returns status ∧ status ≠ .ok

/-- A ragged chunk is refused, and no index leaves its buffer. -/
def RefusedInBounds (X : External) (self : SoaWriter S) (cols : Columns S.fields) : Prop :=
  (Ragged cols → ∃ self', (writeChunk X self cols).result = some (.invalidArgument, self')) ∧
    AllInBounds (writeChunk X self cols).accesses

/-- A closed writer only repeats its status. -/
theorem writeChunk_closed (hw : self.w = none) :
    writeChunk X self cols = { accesses := [], result := some (self.status, self) } := by
  unfold writeChunk
  rw [hw]

/-- An open writer refuses every misshapen chunk. -/
theorem writeChunk_misshapen {w : Writer} (hw : self.w = some w) (h : Misshapen cols) :
    writeChunk X self cols =
      { accesses := (chunkNode cols).accesses,
        result := some (.invalidArgument, { self with status := .invalidArgument }) } := by
  have hok : ¬(chunkNode cols).ok = true := fun hok => (chunk_ok cols).mp hok h
  unfold writeChunk
  rw [hw]
  simp only [if_neg hok]

/-- Every other chunk becomes the batch of one call of the writer. -/
theorem writeChunk_handed {w : Writer} {schema : ArrowSchema} {batch : ArrowArray}
    (hw : self.w = some w) (h : handedBatch self cols = some (schema, batch)) :
    (writeChunk X self cols).result =
      (n2pWriterWriteBatch X w (some schema) (some batch)).map fun (status, w) =>
        (status, { w := some w, status }) := by
  simp only [handedBatch, hw, Option.isSome_some, Bool.true_and] at h
  split at h
  · rename_i hok
    cases h
    unfold writeChunk
    rw [hw]
    simp only [if_pos hok]
  · cases h

theorem handedBatch_closed (hw : self.w = none) : handedBatch self cols = none := by
  simp [handedBatch, hw]

theorem handedBatch_misshapen (h : Misshapen cols) : handedBatch self cols = none := by
  have hok : ¬(chunkNode cols).ok = true := fun hok => (chunk_ok cols).mp hok h
  simp [handedBatch, hok]

theorem handedBatch_open {w : Writer} (hw : self.w = some w) (h : ¬Misshapen cols) :
    handedBatch self cols = some ((chunkNode cols).schema, (chunkNode cols).array) := by
  simp [handedBatch, hw, (chunk_ok cols).mpr h]

theorem returns_closed (hw : self.w = none) {status : N2PStatus} :
    (writeChunk X self cols).Returns status ↔ self.status = status := by
  rw [writeChunk_closed hw]
  constructor
  · rintro ⟨_, _, h⟩
    cases h
    rfl
  · rintro rfl
    refine ⟨fun a ha => ?_, _, rfl⟩
    cases ha

theorem returns_misshapen {w : Writer} (hw : self.w = some w) (h : Misshapen cols)
    {status : N2PStatus} :
    (writeChunk X self cols).Returns status ↔
      ColumnsFit (firstSize cols) cols ∧ status = .invalidArgument := by
  rw [writeChunk_misshapen hw h]
  constructor
  · rintro ⟨hin, _, hr⟩
    cases hr
    exact ⟨(nodes_inBounds (firstSize cols) cols).mp hin, rfl⟩
  · rintro ⟨hfit, rfl⟩
    exact ⟨(nodes_inBounds (firstSize cols) cols).mpr hfit, _, rfl⟩

theorem refuses_closed (hw : self.w = none) :
    (writeChunk X self cols).Refuses ↔ self.status ≠ .ok := by
  unfold ChunkCall.Refuses
  simp only [returns_closed hw, exists_eq_left']

theorem refuses_misshapen {w : Writer} (hw : self.w = some w) (h : Misshapen cols) :
    (writeChunk X self cols).Refuses ↔ ColumnsFit (firstSize cols) cols := by
  unfold ChunkCall.Refuses
  simp only [returns_misshapen hw h]
  constructor
  · rintro ⟨_, ⟨hfit, _⟩, _⟩
    exact hfit
  · intro hfit
    exact ⟨_, ⟨hfit, rfl⟩, by decide⟩

/-- **A ragged chunk is refused without an index out of bounds** exactly when the strings and the
    true booleans stay within the first leaf's length, and a closed writer has refused before. -/
theorem refusedInBounds_iff :
    RefusedInBounds X self cols ↔
      (self.w.isSome → ColumnsFit (firstSize cols) cols) ∧
      (self.w = none → Ragged cols → self.status = .invalidArgument) := by
  unfold RefusedInBounds
  cases hw : self.w with
  | none =>
    rw [writeChunk_closed hw]
    constructor
    · rintro ⟨h, _⟩
      refine ⟨fun h => by simp at h, fun _ hr => ?_⟩
      obtain ⟨self', hs⟩ := h hr
      cases self
      simp only [Option.some.injEq, Prod.mk.injEq] at hs
      exact hs.1
    · rintro ⟨_, h⟩
      refine ⟨fun hr => ⟨self, by rw [h rfl hr]⟩, ?_⟩
      intro a ha
      cases ha
  | some w =>
    have hacc : (writeChunk X self cols).accesses = (chunkNode cols).accesses := by
      unfold writeChunk
      rw [hw]
    rw [hacc]
    have htree : AllInBounds (chunkNode cols).accesses ↔ ColumnsFit (firstSize cols) cols :=
      nodes_inBounds (firstSize cols) cols
    rw [htree]
    constructor
    · rintro ⟨_, h⟩
      exact ⟨fun _ => h, fun h => by simp at h⟩
    · rintro ⟨h, _⟩
      refine ⟨fun hr => ?_, h (by simp)⟩
      rw [writeChunk_misshapen hw (.inl hr)]
      exact ⟨_, rfl⟩

end Calls

/-- A number, then a name. -/
def numberedNames : Schema where
  fields := .cons (.leaf "id" (.element .int32) false) (.last (.leaf "name" (.string .utf8) false))
  unique := by decide

/-- One number and three names. -/
def raggedColumns : Columns numberedNames.fields :=
  .cons (.values [7]) (.last (.values [[0x61], [0x62], [0x63]]))

/-- **Three names under one number**: the third and fourth offsets are stored past the end. -/
theorem not_refusedInBounds_names :
    ¬RefusedInBounds External.reference
      (openWriter numberedNames (.fresh 8191 none) "out.parquet") raggedColumns := by
  rintro ⟨_, h⟩
  have hin : (2 : Nat) < 2 := h ⟨.off, 2, 2⟩ (by decide +kernel)
  omega

end N2P.Soa
