import N2P.Records
import N2P.SoaRuns
import N2P.SoaDenotes

/-!
# Leaf paths of the columnar front-end

`names_unique` compares the names of the top-level fields; `field_ok`, which walks the whole tree,
looks at types only.

* `Fields.leafPaths` — the names from a top-level field down to each leaf, as C strings.
* `Clash`, `Distinct` — two fields that share a leaf path; no two siblings do, at any level.
* `flattenColumns_paths`, `Pathed` — every row group of every run lists the chunks under these
  paths.
* `uniquePaths_iff` — the paths are unique exactly when the fields are distinct.
-/

namespace N2P.Soa

open Columnar

/-! ## Paths -/

mutual

/-- The names below a field, down to each leaf. -/
def Field.pathsBelow : Field → List (List String)
  | .leaf _ _ _ => [[]]
  | .group _ _ children => children.leafPaths

/-- The names from a field of the pack down to each leaf. -/
def Fields.leafPaths : Fields → List (List String)
  | .last f => f.pathsBelow.map (cStr f.name :: ·)
  | .cons f rest => f.pathsBelow.map (cStr f.name :: ·) ++ rest.leafPaths

end

def Fields.toList : Fields → List Field
  | .last f => [f]
  | .cons f rest => f :: rest.toList

/-- Two fields of one name that share a path to a leaf: both leaves, or both groups with children
    that do. -/
inductive Clash : Field → Field → Prop where
  | leaf {a b : String} {t u : FieldType} {p q : Bool} (h : cStr a = cStr b) :
      Clash (.leaf a t p) (.leaf b u q)
  | group {a b : String} {p q : Bool} {fs gs : Fields} {f g : Field} (h : cStr a = cStr b)
      (hf : f ∈ fs.toList) (hg : g ∈ gs.toList) (hc : Clash f g) :
      Clash (.group a p fs) (.group b q gs)

mutual

/-- No two siblings clash, at any level. -/
def Field.Distinct : Field → Prop
  | .leaf _ _ _ => True
  | .group _ _ children => children.Distinct

def Fields.Distinct : Fields → Prop
  | .last f => f.Distinct
  | .cons f rest => f.Distinct ∧ (∀ g ∈ rest.toList, ¬Clash f g) ∧ rest.Distinct

end

/-! ## Clashes are shared paths -/

/-- The paths of a field, its own name in front. -/
def Field.paths (f : Field) : List (List String) := f.pathsBelow.map (cStr f.name :: ·)

theorem mem_leafPaths {p : List String} :
    (fs : Fields) → (p ∈ fs.leafPaths ↔ ∃ f ∈ fs.toList, p ∈ f.paths)
  | .last f => by simp [Fields.leafPaths, Fields.toList, Field.paths]
  | .cons f rest => by simp [Fields.leafPaths, Fields.toList, Field.paths, mem_leafPaths rest]

/-- Every path below a group names at least one child. -/
theorem nil_not_mem_leafPaths (fs : Fields) : [] ∉ fs.leafPaths := by
  rw [mem_leafPaths fs]
  rintro ⟨f, _, h⟩
  obtain ⟨p, _, hp⟩ := List.mem_map.mp h
  cases hp

theorem Clash.shared {f g : Field} (h : Clash f g) : ∃ p, p ∈ f.paths ∧ p ∈ g.paths := by
  induction h with
  | @leaf a b t u p q h =>
    refine ⟨[cStr a], by simp [Field.paths, Field.pathsBelow, Field.name], ?_⟩
    simp [Field.paths, Field.pathsBelow, Field.name, h]
  | @group a b p q fs gs f g h hf hg _ ih =>
    obtain ⟨r, hrf, hrg⟩ := ih
    refine ⟨cStr a :: r, ?_, ?_⟩
    · exact List.mem_map_of_mem ((mem_leafPaths fs).mpr ⟨f, hf, hrf⟩)
    · rw [h]
      exact List.mem_map_of_mem ((mem_leafPaths gs).mpr ⟨g, hg, hrg⟩)

/-- By the names on the path: a clash at each step, down to two leaves. -/
theorem clash_of_shared {p : List String} :
    ∀ {f g : Field}, p ∈ f.paths → p ∈ g.paths → Clash f g := by
  induction p with
  | nil =>
    intro f g hf _
    obtain ⟨_, _, hp⟩ := List.mem_map.mp hf
    cases hp
  | cons name rest ih =>
    intro f g hf hg
    obtain ⟨pf, hpf, heqf⟩ := List.mem_map.mp hf
    obtain ⟨pg, hpg, heqg⟩ := List.mem_map.mp hg
    cases heqf
    obtain ⟨hname, rfl⟩ := List.cons.inj heqg
    have hname := hname.symm
    cases f with
    | leaf a t p =>
      cases g with
      | leaf b u q => exact .leaf hname
      | group b q gs =>
        rw [List.mem_singleton.mp hpf] at hpg
        exact absurd hpg (nil_not_mem_leafPaths gs)
    | group a p fs =>
      cases g with
      | leaf b u q =>
        rw [List.mem_singleton.mp hpg] at hpf
        exact absurd hpf (nil_not_mem_leafPaths fs)
      | group b q gs =>
        obtain ⟨f, hf, hpf⟩ := (mem_leafPaths fs).mp hpf
        obtain ⟨g, hg, hpg⟩ := (mem_leafPaths gs).mp hpg
        exact .group hname hf hg (ih hpf hpg)

/-- One name in front of every path changes nothing. -/
theorem nodup_paths (f : Field) : f.paths.Nodup ↔ f.pathsBelow.Nodup := by
  apply List.nodup_map_iff
  intro p q h
  exact (List.cons.inj h).2

mutual

theorem pathsBelow_nodup : (f : Field) → (f.pathsBelow.Nodup ↔ f.Distinct)
  | .leaf _ _ _ => by simp [Field.pathsBelow, Field.Distinct]
  | .group _ _ children => by
    rw [Field.pathsBelow, Field.Distinct]
    exact leafPaths_nodup children

/-- **Leaf paths are pairwise distinct exactly when no two siblings clash.** -/
theorem leafPaths_nodup : (fs : Fields) → (fs.leafPaths.Nodup ↔ fs.Distinct)
  | .last f => by
    rw [Fields.leafPaths, Fields.Distinct, ← pathsBelow_nodup f]
    exact nodup_paths f
  | .cons f rest => by
    rw [Fields.leafPaths, Fields.Distinct, List.nodup_append', ← pathsBelow_nodup f,
      ← leafPaths_nodup rest]
    refine and_congr (nodup_paths f) ((and_comm).trans (and_congr_left' ?_))
    constructor
    · intro hdisjoint g hg hclash
      obtain ⟨p, hpf, hpg⟩ := hclash.shared
      exact hdisjoint hpf ((mem_leafPaths rest).mpr ⟨g, hg, hpg⟩)
    · intro h p hpf hp
      obtain ⟨g, hg, hpg⟩ := (mem_leafPaths rest).mp hp
      exact h g hg (clash_of_shared hpf hpg)

end

/-! ## What the writer records -/

theorem node_name {n : Nat} {f : Field} (c : Column f) :
    (buildNode c n).schema.nameOr = cStr f.name := by
  cases c with
  | values _ => rw [buildNode]; rfl
  | nullable _ _ => rw [buildNode]; rfl
  | group _ => rw [buildNode]; rfl
  | nullableGroup _ _ => rw [buildNode]; rfl

/-- The paths of the leaves a flattening step has appended. -/
def leafNames (out : Flat) : List (List String) := out.2.map (·.pathNames)

/-- A format that names a leaf's type is none of the nested ones. -/
theorem flattenLeaf_paths {format : String} {t : ArrowType} {own name : String}
    {nullable optional : Bool} {idx : List Nat} {names : List String} {opt : List Bool}
    {steps : List PathStep} {out out' : Flat} (ht : ArrowType.ofFormat format = some t)
    (h : flattenNode (.leaf format own nullable) name optional idx names opt steps out = .ok out') :
    leafNames out' = leafNames out ++ [names] := by
  have hne : ∀ nested, ArrowType.ofFormat nested = none → format ≠ nested := by
    rintro nested hnone rfl
    rw [hnone] at ht
    cases ht
  unfold ArrowSchema.leaf flattenNode at h
  dsimp only [Option.getD_some] at h
  rw [if_neg (hne "+s" (by decide)),
    if_neg (not_or.mpr ⟨hne "+l" (by decide), hne "+L" (by decide)⟩),
    if_neg (hne "+m" (by decide))] at h
  unfold flattenLeaf at h
  split at h
  · cases h
  · cases h
    simp [leafNames, leafSpec]

theorem flattenNode_struct {own name : String} {nullable optional : Bool}
    {children : List ArrowSchema} {idx : List Nat} {names : List String} {opt : List Bool}
    {steps : List PathStep} {out : Flat} :
    flattenNode (.nested "+s" own nullable children) name optional idx names opt steps out =
      flattenFields children 0 optional idx names opt steps
        (out.1 ++ [{ isGroup := true, name, optional, numChildren := children.length }], out.2) := by
  unfold ArrowSchema.nested flattenNode
  rfl

mutual

/-- A node's leaves are recorded under the field's paths. -/
theorem flattenNode_paths {n : Nat} {name : String} {optional : Bool} {idx : List Nat}
    {names : List String} {opt : List Bool} {steps : List PathStep} {out out' : Flat} :
    {f : Field} → (c : Column f) →
    flattenNode (buildNode c n).schema name optional idx names opt steps out = .ok out' →
    leafNames out' = leafNames out ++ f.pathsBelow.map (names ++ ·)
  | .leaf _ t _, .values vs, h => by
    rw [buildNode] at h
    rw [flattenLeaf_paths (ofFormat_leaf t vs (validBits none 0) n) h]
    simp [Field.pathsBelow]
  | .leaf _ t _, .nullable vs p, h => by
    rw [buildNode] at h
    rw [flattenLeaf_paths (ofFormat_leaf t vs (p.column vs.length) n) h]
    simp [Field.pathsBelow]
  | .group _ _ fs, .group children, h => by
    rw [buildNode, buildGroup, flattenNode_struct] at h
    rw [flattenFields_paths children h]
    rfl
  | .group _ _ fs, .nullableGroup p children, h => by
    rw [buildNode, buildGroup, flattenNode_struct] at h
    rw [flattenFields_paths children h]
    rfl

theorem flattenFields_paths {n i : Nat} {optional : Bool} {idx : List Nat} {names : List String}
    {opt : List Bool} {steps : List PathStep} {out out' : Flat} :
    {fs : Fields} → (cols : Columns fs) →
    flattenFields (buildNodes cols n).schemas i optional idx names opt steps out = .ok out' →
    leafNames out' = leafNames out ++ fs.leafPaths.map (names ++ ·)
  | .last f, .last c, h => by
    rw [buildNodes, flattenFields] at h
    split at h
    · cases h
    · rename_i out1 h1
      rw [flattenFields] at h
      cases h
      rw [flattenNode_paths c h1, node_name c, Fields.leafPaths]
      simp [List.map_map, Function.comp_def]
  | .cons f rest, .cons c cols, h => by
    rw [buildNodes, flattenFields] at h
    split at h
    · cases h
    · rename_i out1 h1
      rw [flattenFields_paths cols h, flattenNode_paths c h1, node_name c, Fields.leafPaths]
      simp [List.map_map, Function.comp_def]

end

/-- **Every chunk flattens to the schema's leaf paths.** -/
theorem flattenColumns_paths {n i : Nat} {out out' : Flat} : {fs : Fields} → (cols : Columns fs) →
    flattenColumns (buildNodes cols n).schemas i out = .ok out' →
    leafNames out' = leafNames out ++ fs.leafPaths
  | .last f, .last c, h => by
    rw [buildNodes, flattenColumns] at h
    split at h
    · cases h
    · rename_i out1 h1
      rw [flattenColumns] at h
      cases h
      rw [flattenSchema] at h1
      rw [flattenNode_paths c h1, node_name c, Fields.leafPaths]
      rfl
  | .cons f rest, .cons c cols, h => by
    rw [buildNodes, flattenColumns] at h
    split at h
    · cases h
    · rename_i out1 h1
      rw [flattenSchema] at h1
      rw [flattenColumns_paths cols h, flattenNode_paths c h1, node_name c, Fields.leafPaths]
      simp

/-- The locked leaves and every recorded row group have the paths `ps`. -/
structure Pathed (ps : List (List String)) (w : Writer) : Prop where
  leaves : w.schemaLocked = true → w.leaves.map (·.pathNames) = ps
  groups : ∀ rg ∈ w.rowGroups, rg.columns.map (·.path) = ps

section Pathed

variable {X : External} {S : Schema} {ps : List (List String)} {w w' : Writer}

theorem Pathed.of_eq (h : Pathed ps w) (hs : SameSchema w w') (hg : w'.rowGroups = w.rowGroups) :
    Pathed ps w' := by
  refine ⟨fun hl => ?_, hg ▸ h.groups⟩
  rw [hs.leaves]
  exact h.leaves (hs.locked ▸ hl)

theorem Pathed.lock (h : Pathed S.fields.leafPaths w) {cols : Columns S.fields}
    (hl : Locked (chunkNode cols).schema w w') : Pathed S.fields.leafPaths w' := by
  rcases hl with _ | ⟨nodes, leaves, _, hf, _⟩
  · exact h
  · refine ⟨fun _ => ?_, h.groups⟩
    have hpaths := flattenColumns_paths cols hf
    rwa [leafNames, leafNames, List.map_nil, List.nil_append] at hpaths

theorem Pathed.record (h : Pathed ps w) (hl : w.schemaLocked = true) {batch : ArrowArray}
    {xs : List Chunk} (hxs : Chunks X w batch xs) : Pathed ps (w.record batch xs) := by
  refine ⟨h.leaves, fun rg hrg => ?_⟩
  rcases List.mem_append.mp hrg with hrg | hrg
  · exact h.groups rg hrg
  · rw [List.mem_singleton.mp hrg, ← h.leaves hl, ← hxs.leaves]
    simp [batchGroup, RowGroupMeta.addAll, Chunk.entry, ChunkPages.entry, LeafInputs.start]

/-- **A chunk handed to the writer keeps the paths**, however the call ends. -/
theorem pathed_writeBatch (h : Pathed S.fields.leafPaths w) {cols : Columns S.fields}
    {status : N2PStatus}
    (hcall : n2pWriterWriteBatch X w (some (chunkNode cols).schema) (some (chunkNode cols).array) =
      some (status, w')) : Pathed S.fields.leafPaths w' := by
  have hargs : ∀ sc b, checkArguments (some (chunkNode cols).schema)
      (some (chunkNode cols).array) = .ok (sc, b) → sc = (chunkNode cols).schema := by
    intro sc b hok
    obtain ⟨hsc, _, _⟩ := checkArguments_eq_ok.mp hok
    exact (Option.some.inj hsc).symm
  rcases writeBatch_cases hcall with ⟨_, hok⟩ | ⟨_, ⟨e, t, msg, _, hfail, rfl⟩ | ⟨_, msg, rfl⟩⟩
  · obtain ⟨sc, b, w1, xs, ha, hlock, hxs, rfl, _⟩ := writeOneBatch_ok hok
    cases hargs sc b ha
    exact (h.lock hlock).record hlock.locked hxs
  · rcases hfail with ⟨_, _, _⟩ | ⟨sc, b, w1, _, ha, hlock, hleaves⟩ |
      ⟨sc, b, w1, xs, ha, hlock, hxs, _, _, _, _⟩
    · exact h.of_eq ⟨rfl, rfl, rfl, rfl⟩ rfl
    · cases hargs sc b ha
      obtain ⟨pieces, _, rfl⟩ := ((onlyStreams_writeLeaves _ _ _ _).error hleaves).1
      exact (h.lock hlock).of_eq ⟨rfl, rfl, rfl, rfl⟩ rfl
    · cases hargs sc b ha
      exact ((h.lock hlock).record hlock.locked hxs).of_eq ⟨rfl, rfl, rfl, rfl⟩ rfl
  · exact h.of_eq ⟨rfl, rfl, rfl, rfl⟩ rfl

theorem pathed_setting (h : Pathed ps w) {status : N2PStatus}
    (hset : (∃ codec, n2pWriterSetCodec w codec = (status, w')) ∨
      ∃ encoding, n2pWriterSetEncoding w encoding = (status, w')) : Pathed ps w' := by
  rcases hset with ⟨codec, hset⟩ | ⟨encoding, hset⟩
  · unfold n2pWriterSetCodec at hset
    split at hset
    · cases hset; exact h.of_eq ⟨rfl, rfl, rfl, rfl⟩ rfl
    split at hset
    · cases hset; exact h.of_eq ⟨rfl, rfl, rfl, rfl⟩ rfl
    · cases hset; exact h.of_eq ⟨rfl, rfl, rfl, rfl⟩ rfl
  · unfold n2pWriterSetEncoding at hset
    split at hset
    · cases hset; exact h.of_eq ⟨rfl, rfl, rfl, rfl⟩ rfl
    · cases hset; exact h.of_eq ⟨rfl, rfl, rfl, rfl⟩ rfl

/-- **Every call keeps the paths of the open writer.** -/
theorem pathed_applyCall {call : Call S} {st st' : CallState S} {status : N2PStatus}
    (h : ∀ w, st.self.w = some w → Pathed S.fields.leafPaths w)
    (hcall : applyCall X st call = some (status, st')) :
    ∀ w, st'.self.w = some w → Pathed S.fields.leafPaths w := by
  rcases applyCall_cases hcall with
    ⟨_, _, hw, _⟩ | ⟨_, w, w', _, hw, _, hset⟩ | ⟨cols, w, hw⟩ |
    ⟨cols, w, w', _, hw, hbatch⟩ | ⟨w, hw⟩
  · exact h
  · rintro _ ⟨rfl⟩
    exact pathed_setting (h w hw) hset
  · exact h
  · rintro _ ⟨rfl⟩
    exact pathed_writeBatch (h w hw) hbatch
  · rintro _ hnone
    cases hnone

end Pathed

/-! ## Uniqueness -/

/-- The leaf paths are pairwise distinct, and in every run so are the paths of the column chunks
    of each row group of the footer. -/
def UniquePaths (S : Schema) : Prop :=
  S.fields.leafPaths.Nodup ∧
  ∀ (X : External) (sink : ByteSink) (path : String) (calls : List (Call S))
    (statuses : List N2PStatus) (st : CallState S) (w : Writer),
    runCalls X { self := openWriter S sink path } calls = some (statuses, st) →
    st.self.w = some w →
    ∀ rg ∈ (fileMetaData w).rowGroups, (rg.columns.map (·.metaData.pathInSchema)).Nodup

/-- The writer the constructor makes has recorded nothing. -/
theorem pathed_openWriter (S : Schema) (sink : ByteSink) (path : String)
    (ps : List (List String)) :
    ∀ w, (openWriter S sink path).w = some w → Pathed ps w := by
  rintro w hw
  have hwriter : w = (n2pWriterOpen sink path).2 := by
    cases hw
    rfl
  rw [hwriter]
  unfold n2pWriterOpen
  split
  · exact ⟨nofun, nofun⟩
  · exact ⟨nofun, nofun⟩

/-- **Leaf paths are unique** exactly when no two siblings, at any level, are leaves of one name or
    groups of one name whose children clash in turn. -/
theorem uniquePaths_iff (S : Schema) : UniquePaths S ↔ S.fields.Distinct := by
  rw [← leafPaths_nodup]
  constructor
  · exact And.left
  · intro hnodup
    refine ⟨hnodup, ?_⟩
    intro X sink path calls statuses st w hrun hw rg hrg
    have hpathed := runCalls_invariant
      (P := fun st : CallState S => ∀ w, st.self.w = some w → Pathed S.fields.leafPaths w)
      (fun _ _ _ _ => pathed_applyCall) (pathed_openWriter S sink path _) hrun w hw
    obtain ⟨rgm, hrgm, rfl⟩ := List.mem_map.mp hrg
    have hcolumns : (rowGroup w.codec rgm).columns.map (·.metaData.pathInSchema) =
        rgm.columns.map (·.path) := by
      simp [rowGroup, columnChunk, Function.comp_def]
    rw [hcolumns, hpathed.groups rgm hrgm]
    exact hnodup

/-- A struct of two numbers of one name. -/
def twins : Schema where
  fields :=
    .last (.group "s" false
      (.cons (.leaf "a" (.element .int32) false) (.last (.leaf "a" (.element .int32) false))))
  unique := by decide

/-- **A struct of two fields of one name** passes the checks with two leaves at `s.a`. -/
theorem not_uniquePaths_twins : ¬UniquePaths twins := by
  rintro ⟨h, _⟩
  have hpaths : twins.fields.leafPaths = [["s", "a"], ["s", "a"]] := by decide
  rw [hpaths] at h
  exact absurd h (by decide)

end N2P.Soa
