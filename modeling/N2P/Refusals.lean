import N2P.Batches
import N2P.Builds
import N2P.Visits

/-!
# Where a refusal comes from

Building the value bytes, the levels and the headers of a page never refuses anything: it succeeds,
throws, or reads outside a buffer.  So a batch that is refused as an invalid argument after its
schema is locked is refused by one leaf's checks.

* `unrefusing_chunkBodies`, `unrefusing_flatLevels` — the builders refuse nothing.
* `writeLeaves_refused` — the leaf loop is refused at the first leaf that does not build.
* `leafInputs_refused` — which check of a leaf refused it.
* `writeOneBatch_refused` — the leaf a refused batch was stopped at.
-/

namespace N2P

open Outcome

/-! ## Builders -/

/-- The fault is not a check of the caller's input. -/
def Fault.Unchecked (f : Fault) : Prop := ∀ why, f ≠ .refused why

@[simp] theorem unchecked_undefined : Fault.undefined.Unchecked := by
  intro why h
  cases h

@[simp] theorem unchecked_thrown (what : String) : (Fault.thrown what).Unchecked := by
  intro why h
  cases h

/-- A computation that refuses nothing. -/
abbrev Unrefusing {α : Type} (x : Except Fault α) : Prop := FailsIn Fault.Unchecked x

@[simp] theorem unrefusing_buffer (a : ArrowArray) (k : Nat) : Unrefusing (a.buffer k) := by
  unfold ArrowArray.buffer
  split
  · simp
  · split <;> simp

@[simp] theorem unrefusing_child (a : ArrowArray) (i : Nat) : Unrefusing (a.child i) := by
  unfold ArrowArray.child
  split
  · simp
  · split <;> simp

@[simp] theorem unrefusing_data (a : ArrowArray) (k : Nat) : Unrefusing (a.data k) := by
  simp [ArrowArray.data]

@[simp] theorem unrefusing_readBit (bm : Bytes) (i : Nat) : Unrefusing (readBit bm i) := by
  unfold readBit
  split <;> simp

@[simp] theorem unrefusing_validBit (validity : Option Bytes) (i : Nat) :
    Unrefusing (validBit validity i) := by
  unfold validBit
  split <;> simp

@[simp] theorem unrefusing_readElem (w : Nat) (buf : Bytes) (i : Nat) :
    Unrefusing (readElem w buf i) := by
  unfold readElem
  split <;> simp

@[simp] theorem unrefusing_readOffset (w : Nat) (buf : Bytes) (i : Nat) :
    Unrefusing (readOffset w buf i) := by
  simp [readOffset]

@[simp] theorem unrefusing_readPrefix (src : Bytes) (n : Nat) : Unrefusing (readPrefix src n) := by
  unfold readPrefix
  split <;> simp

theorem unrefusing_forValid {α : Type} {validity : Option Bytes} {f : Nat → Except Fault α}
    (hf : ∀ i, Unrefusing (f i)) (is : List Nat) : Unrefusing (forValid validity f is) := by
  induction is with
  | nil => exact failsIn_ok _
  | cons i is ih =>
    unfold forValid
    split
    · rename_i h
      exact (unrefusing_validBit validity i).rethrow h
    · exact ih
    split
    · rename_i h
      exact (hf i).rethrow h
    · exact failsIn_map.mpr ih

theorem unrefusing_widened (s : ColumnSpec) (src : Bytes) (i : Nat) :
    Unrefusing (widened s src i) := by
  unfold widened
  split
  · split <;> simp
  · split <;> simp

theorem unrefusing_buildPlainFixed (arr : ArrowArray) (s : ColumnSpec) (validity : Option Bytes) :
    Unrefusing (buildPlainFixed arr s validity) := by
  unfold buildPlainFixed
  dsimp only
  split
  · rename_i h
    exact (unrefusing_data arr 1).rethrow h
  split
  · split
    · exact unrefusing_readPrefix _ _
    · exact failsIn_map.mpr (unrefusing_forValid (fun i => unrefusing_readElem _ _ i) _)
  · exact failsIn_map.mpr (unrefusing_forValid (fun i => unrefusing_widened _ _ i) _)

theorem unrefusing_buildPlainBool (arr : ArrowArray) (validity : Option Bytes) :
    Unrefusing (buildPlainBool arr validity) := by
  unfold buildPlainBool
  dsimp only
  split
  · rename_i h
    exact (unrefusing_data arr 1).rethrow h
  split
  · exact unrefusing_readPrefix _ _
  · exact failsIn_map.mpr (unrefusing_forValid (fun i => unrefusing_readBit _ i) _)

theorem unrefusing_valueAt (s : ColumnSpec) (off data : Bytes) (i : Nat) :
    Unrefusing (valueAt s off data i) := by
  unfold valueAt
  dsimp only
  split
  · split <;> simp
  · simp

theorem unrefusing_buildByteArrayPages (X : External) (arr : ArrowArray) (s : ColumnSpec)
    (validity : Option Bytes) (mode : Nat) :
    Unrefusing (buildByteArrayPages X arr s validity mode) := by
  unfold buildByteArrayPages
  dsimp only
  split
  · split
    · rename_i h
      exact (unrefusing_forValid (fun i => unrefusing_valueAt _ _ _ i) _).rethrow h
    · unfold byteArrayPages
      dsimp only
      split
      · simp
      split
      · split <;> simp
      · split <;> simp
  · simp

theorem unrefusing_boolScan (validity : Option Bytes) (bits : Bytes) (is : List Nat) :
    ∀ anyTrue anyFalse : Bool, Unrefusing (boolScan validity bits is anyTrue anyFalse) := by
  induction is with
  | nil => intro _ _; exact failsIn_ok _
  | cons i is ih =>
    intro anyTrue anyFalse
    unfold boolScan
    split
    · simp
    split
    · rename_i h
      exact (unrefusing_validBit validity i).rethrow h
    · exact ih _ _
    split
    · rename_i h
      exact (unrefusing_readBit bits i).rethrow h
    split
    · exact ih _ _
    · exact ih _ _

theorem unrefusing_typedStats (X : External) (t : StatType) (src : Bytes) (n : Nat)
    (validity : Option Bytes) : Unrefusing (typedStats X t src n validity) := by
  unfold typedStats
  dsimp only
  split
  · rename_i h
    exact (unrefusing_readPrefix _ _).rethrow h
  · exact failsIn_ok _

theorem unrefusing_fixedStats (X : External) (arr : ArrowArray) (s : ColumnSpec)
    (validity : Option Bytes) : Unrefusing (fixedStats X arr s validity) := by
  unfold fixedStats
  dsimp only
  split
  · exact failsIn_ok _
  split
  · rename_i h
    exact (unrefusing_data arr 1).rethrow h
  split
  · exact failsIn_map.mpr (unrefusing_boolScan _ _ _ _ _)
  · exact unrefusing_typedStats _ _ _ _ _
  · split
    · exact unrefusing_typedStats _ _ _ _ _
    · exact unrefusing_typedStats _ _ _ _ _
    · exact unrefusing_typedStats _ _ _ _ _
    · exact unrefusing_typedStats _ _ _ _ _
    · exact failsIn_map.mpr (unrefusing_forValid (fun i => unrefusing_readElem _ _ i) _)
    · exact failsIn_ok _
  · exact failsIn_ok _

theorem unrefusing_fixedBody (X : External) (arr : ArrowArray) (s : ColumnSpec)
    (validity : Option Bytes) (mode : Nat) : Unrefusing (fixedBody X arr s validity mode) := by
  unfold fixedBody
  split
  · exact failsIn_map.mpr (unrefusing_buildPlainBool _ _)
  · exact failsIn_ok _
  · exact failsIn_map.mpr (unrefusing_buildPlainFixed _ _ _)

/-! ## Level streams and headers -/

@[simp] theorem unrefusing_withLengthPrefix (run : Bytes) : Unrefusing (withLengthPrefix run) := by
  unfold withLengthPrefix
  split <;> simp

@[simp] theorem unrefusing_allocate (elemSize n : Nat) (what : String) :
    Unrefusing (allocate elemSize n what) := by
  unfold allocate
  split <;> simp

theorem unrefusing_flatLevel (nullLeaf : Bool) (nodes : List ArrowArray) :
    ∀ (opts : List Bool) (i d : Nat), Unrefusing (flatLevel nullLeaf nodes opts i d) := by
  induction nodes with
  | nil => intro opts i d; exact failsIn_ok _
  | cons a as ih =>
    intro opts i d
    cases opts with
    | nil => simp [flatLevel]
    | cons optional opts =>
      unfold flatLevel
      split
      · exact ih _ _ _
      split
      · exact failsIn_ok _
      split
      · rename_i h
        refine FailsIn.rethrow ?_ h
        unfold ArrowArray.validity
        split <;> simp
      split
      · rename_i h
        exact (unrefusing_validBit _ i).rethrow h
      · exact failsIn_ok _
      · exact ih _ _ _

theorem unrefusing_flatRow (leaf : LeafSpec) (nodes : List ArrowArray) (out : FlatLevels)
    (i : Nat) : Unrefusing (flatRow leaf nodes out i) := by
  unfold flatRow
  split
  · rename_i h
    exact (unrefusing_flatLevel _ _ _ _ _).rethrow h
  dsimp only
  split
  · split <;> simp
  · exact failsIn_ok _

/-- **The levels of a leaf outside lists are built without a refusal.** -/
theorem unrefusing_flatLevels (X : External) (leaf : LeafSpec) (nodes : List ArrowArray) (n : Nat) :
    Unrefusing (flatLevels X leaf nodes n) := by
  unfold flatLevels
  split
  · apply failsIn_bind
    · refine failsIn_bind (unrefusing_allocate _ _ _) fun _ _ => ?_
      refine failsIn_bind (unrefusing_allocate _ _ _) fun _ _ => ?_
      exact failsIn_foldlM (fun out i _ => unrefusing_flatRow leaf nodes out i) _
    intro fl _
    dsimp only
    split
    · exact failsIn_bind (unrefusing_withLengthPrefix _) fun _ _ => failsIn_ok _
    · exact failsIn_bind (unrefusing_withLengthPrefix _) fun _ _ => failsIn_ok _
  · exact failsIn_ok _

/-! ## Pages -/

theorem unrefusing_chunkBodies (X : External) (arr : ArrowArray) (s : ColumnSpec)
    (validity : Option Bytes) (mode : Nat) : Unrefusing (chunkBodies X arr s validity mode) := by
  unfold chunkBodies
  split
  · exact failsIn_map.mpr (unrefusing_buildByteArrayPages _ _ _ _ _)
  split
  · rename_i h
    exact (unrefusing_fixedStats _ _ _ _).rethrow h
  · exact failsIn_map.mpr (unrefusing_fixedBody _ _ _ _ _)

/-! ## The leaf a batch is refused at -/

/-- **A leaf is refused only for its inputs**: building and writing its pages refuses nothing. -/
theorem leafEmission_refused {X : External} {batch : ArrowArray} {codec : CompressionCodec}
    {mode : Nat} {leaf : LeafSpec} {why : Refusal} :
    (leafEmission X batch codec mode leaf).result = .error (.refused why) ↔
      leafInputs X leaf batch = .error (.refused why) := by
  unfold leafEmission
  constructor
  · intro h
    rcases Emission.bind_eq_error.mp h with h | ⟨inp, _, h⟩
    · exact h
    rcases Emission.bind_eq_error.mp h with h | ⟨r, _, h⟩
    · exact absurd rfl (failsIn_chunkEmission unchecked_thrown (unrefusing_chunkBodies _ _ _ _ _)
        _ _ _ _ h why)
    · cases h
  · intro h
    exact Emission.bind_eq_error.mpr (.inl h)

/-- The first leaf that does not build is refused. -/
def FirstRefused (X : External) (batch : ArrowArray) (codec : CompressionCodec) (mode : Nat)
    (leaves : List LeafSpec) (leaf : LeafSpec) (why : Refusal) : Prop :=
  ∃ before after, leaves = before ++ leaf :: after ∧
    (∀ l ∈ before, LeafBuilds X batch codec mode l) ∧
    leafInputs X leaf batch = .error (.refused why)

/-- **The leaf loop is refused exactly at the first leaf that does not build**, when its arrays
    fail a check. -/
theorem writeLeaves_refused {X : External} {leaves : List LeafSpec} {batch : ArrowArray}
    {rg : RowGroupMeta} {w : Writer} {status : N2PStatus} {why : Refusal} :
    (∃ w', writeLeaves X leaves batch rg w = .error (.refused status why) w') ↔
      status = .invalidArgument ∧
        ∃ leaf, FirstRefused X batch w.codec w.encoding leaves leaf why := by
  simp only [writeLeaves_stream, streamOf_eq_error, Emission.result_map, map_eq_error]
  constructor
  · rintro ⟨w', f, hf, hstop⟩
    cases f with
    | thrown what => cases hstop
    | undefined => cases hstop
    | refused why' =>
      cases hstop
      unfold leavesEmission at hf
      rcases Emission.mapM_cases (leafEmission X batch w.codec w.encoding) leaves with
        ⟨xs, _, hm⟩ | ⟨before, leaf, after, xs, e, rfl, hxs, he, hm⟩
      · rw [hm] at hf
        cases hf
      · rw [hm] at hf
        cases hf
        refine ⟨rfl, leaf, before, after, rfl, ?_, leafEmission_refused.mp he⟩
        exact leavesEmission_builds.mp ⟨xs, Emission.mapM_eq_ok.mpr hxs⟩
  · rintro ⟨rfl, leaf, before, after, rfl, hbefore, hleaf⟩
    refine ⟨_, .refused why, ?_, rfl⟩
    obtain ⟨xs, hxs⟩ := leavesEmission_builds.mpr hbefore
    unfold leavesEmission at hxs ⊢
    rw [List.mapM_append, Emission.bind_of_ok hxs, List.mapM_cons]
    exact Emission.bind_eq_error.mpr (.inl (Emission.bind_eq_error.mpr
      (.inl (leafEmission_refused.mpr hleaf))))

/-- The leaf array of a batch, found as the leaf's writer finds it. -/
def LeafArray (leaf : LeafSpec) (batch x : ArrowArray) : Prop :=
  if leaf.hasList then
    ∃ column, topColumn leaf batch = .ok column ∧ followSteps leaf.steps column = .ok x
  else ∃ nodes, followIdx leaf.pathIdx batch = .ok nodes ∧ nodes.getLast? = some x

/-- Why a leaf of a batch is refused: its path does not fit the arrays, its array fails a check, or
    a row's walk does. -/
inductive LeafRefused (leaf : LeafSpec) (batch : ArrowArray) : Refusal → Prop where
  | path : LeafRefused leaf batch .structureMismatch
  | array {x : ArrowArray} {why : Refusal} (hx : LeafArray leaf batch x)
      (h : validateChild x leaf.col (if leaf.hasList then x.length else batch.length) =
        .error (.refused why)) : LeafRefused leaf batch why
  | walk {column : ArrowArray} {why : Refusal} (hl : leaf.hasList = true)
      (hc : topColumn leaf batch = .ok column)
      (h : Shredder.rowVisits leaf column batch.length.toNat = .error (.refused why)) :
      LeafRefused leaf batch why

theorem topColumn_refused {leaf : LeafSpec} {batch : ArrowArray} {why : Refusal}
    (h : topColumn leaf batch = .error (.refused why)) : why = .structureMismatch := by
  unfold topColumn at h
  split at h
  · cases h
  split at h
  · cases h
    rfl
  · exact absurd rfl (unrefusing_child batch _ _ h why)

theorem followIdx_refused {idx : List Nat} {a : ArrowArray} {why : Refusal}
    (h : followIdx idx a = .error (.refused why)) : why = .structureMismatch := by
  induction idx generalizing a with
  | nil => cases h
  | cons i rest ih =>
    unfold followIdx at h
    split at h
    · cases h
      rfl
    split at h
    · rename_i hc
      cases h
      exact absurd rfl (unrefusing_child a i _ hc why)
    · exact ih (map_eq_error.mp h)

theorem nextArray_refused {st : PathStep} {a : ArrowArray} {why : Refusal}
    (h : nextArray st a = .error (.refused why)) : why = .structureMismatch := by
  unfold nextArray at h
  dsimp only at h
  split at h
  · cases h
    rfl
  split at h
  · split at h
    · exact absurd rfl (unrefusing_child a _ _ h why)
    · cases h
      rfl
  · split at h
    · rename_i hc
      cases h
      exact absurd rfl (unrefusing_child a _ _ hc why)
    split at h
    · exact absurd rfl (unrefusing_child _ _ _ h why)
    · cases h
      rfl
  · exact absurd rfl (unrefusing_child a _ _ h why)

theorem followSteps_refused {steps : List PathStep} {a : ArrowArray} {why : Refusal}
    (h : followSteps steps a = .error (.refused why)) : why = .structureMismatch := by
  induction steps generalizing a with
  | nil => cases h
  | cons st rest ih =>
    unfold followSteps at h
    split at h
    · cases h
    split at h
    · rename_i hnext
      cases h
      exact nextArray_refused hnext
    · exact ih h

/-- **What refuses a leaf.** -/
theorem leafInputs_refused {X : External} {leaf : LeafSpec} {batch : ArrowArray} {why : Refusal}
    (h : leafInputs X leaf batch = .error (.refused why)) : LeafRefused leaf batch why := by
  unfold leafInputs at h
  split at h
  · rename_i hl
    unfold listInputs at h
    split at h
    · rename_i hshred
      cases h
      unfold shredLeaf at hshred
      rcases bind_eq_error.mp hshred with hc | ⟨column, hc, h1⟩
      · rw [topColumn_refused hc]
        exact .path
      rcases bind_eq_error.mp h1 with hf | ⟨x, hf, h2⟩
      · rw [followSteps_refused hf]
        exact .path
      rcases bind_eq_error.mp h2 with hv | ⟨_, _, h3⟩
      · refine .array (x := x) ?_ (by rwa [if_pos hl])
        rw [LeafArray, if_pos hl]
        exact ⟨column, hc, hf⟩
      rcases bind_eq_error.mp h3 with ha | ⟨_, _, h4⟩
      · exact absurd rfl (unrefusing_allocate _ _ _ _ ha why)
      rcases bind_eq_error.mp h4 with ha | ⟨_, _, h5⟩
      · exact absurd rfl (unrefusing_allocate _ _ _ _ ha why)
      rcases bind_eq_error.mp h5 with hr | ⟨_, _, h6⟩
      · exact .walk hl hc ((Shredder.rows_applies _ _ _ _).of_error (fun _ _ _ => record_error) hr
          (by simp))
      · cases h6
    · split at h
      · rename_i hrep
        cases h
        exact absurd rfl (unrefusing_withLengthPrefix _ _ hrep why)
      · exact absurd rfl (unrefusing_withLengthPrefix _ _ (map_eq_error.mp h) why)
  · rename_i hl
    unfold flatInputs at h
    split at h
    · rename_i hflat
      cases h
      unfold flatNodes at hflat
      rcases bind_eq_error.mp hflat with hn | ⟨nodes, hn, h1⟩
      · rw [followIdx_refused hn]
        exact .path
      split at h1
      · cases h1
      rename_i x hx
      rcases bind_eq_error.mp h1 with hv | ⟨_, _, h2⟩
      · refine .array (x := x) ?_ (by rwa [if_neg hl])
        rw [LeafArray, if_neg hl]
        exact ⟨nodes, hn, hx⟩
      · cases h2
    · exact absurd rfl (unrefusing_flatLevels _ _ _ _ _ (map_eq_error.mp h) why)

/-- A check of the leaf's array that fails refuses the leaf. -/
theorem leafInputs_of_array {X : External} {leaf : LeafSpec} {batch x : ArrowArray} {why : Refusal}
    (hx : LeafArray leaf batch x)
    (h : validateChild x leaf.col (if leaf.hasList then x.length else batch.length) =
      .error (.refused why)) : leafInputs X leaf batch = .error (.refused why) := by
  unfold LeafArray at hx
  unfold leafInputs
  by_cases hl : leaf.hasList = true
  · rw [if_pos hl] at hx h ⊢
    obtain ⟨column, hc, hf⟩ := hx
    have hshred : shredLeaf leaf batch = .error (.refused why) := by
      unfold shredLeaf
      exact bind_eq_error.mpr (.inr ⟨column, hc, bind_eq_error.mpr (.inr ⟨x, hf,
        bind_eq_error.mpr (.inl h)⟩)⟩)
    unfold listInputs
    rw [hshred]
  · rw [if_neg hl] at hx h ⊢
    obtain ⟨nodes, hn, hlast⟩ := hx
    have hflat : flatNodes leaf batch = .error (.refused why) := by
      unfold flatNodes
      refine bind_eq_error.mpr (.inr ⟨nodes, hn, ?_⟩)
      rw [hlast]
      exact bind_eq_error.mpr (.inl h)
    unfold flatInputs
    rw [hflat]

/-- What is refused before any leaf is looked at. -/
def Refusal.ofArguments : Refusal → Bool
  | .nullArguments => true
  | .notAStruct => true
  | .noColumns => true
  | .childCount => true
  | .noLeafColumns => true
  | .incompatible => true
  | _ => false

theorem checkArguments_refused {schema : Option ArrowSchema} {batch : Option ArrowArray}
    {why : Refusal} (h : checkArguments schema batch = .error (.refused why)) :
    why.ofArguments = true := by
  rcases checkArguments_error h with h | h | h | h <;> cases h <;> rfl

/-- An unsupported schema is refused with another status. -/
theorem lockSchema_refused {schema : ArrowSchema} {w w' : Writer} {why : Refusal}
    (h : lockSchema schema w = .error (.refused .invalidArgument why) w') :
    why.ofArguments = true := by
  unfold lockSchema at h
  rw [get_bind] at h
  split at h
  · rcases hf : flattenColumns schema.children 0 ([], []) with f | ⟨nodes, leaves⟩
    · rw [hf] at h
      cases f <;> cases h
    · rw [hf] at h
      dsimp only at h
      split at h
      · cases h
        rfl
      · exact absurd h modify_ne_error
  · split at h
    · cases h
      rfl
    · exact absurd h pure_ne_error

/-- **A batch refused as an invalid argument, but not for its arguments, is refused by the first leaf
    that does not build.** -/
theorem writeOneBatch_refused {X : External} {schema : Option ArrowSchema} {b : ArrowArray}
    {w : Writer} {leaves : List LeafSpec} {why : Refusal} (hwhy : why.ofArguments = false) :
    (∃ w', writeOneBatch X schema (some b) w = .error (.refused .invalidArgument why) w' ∧
      w'.leaves = leaves) ↔
      ∃ sc w1 leaf, checkArguments schema (some b) = .ok (sc, b) ∧ Locked sc w w1 ∧
        w1.leaves = leaves ∧ FirstRefused X b w.codec w.encoding leaves leaf why := by
  constructor
  · rintro ⟨w', h, hleaves⟩
    cases hargs : checkArguments schema (some b) with
    | error f =>
      have hraise : writeOneBatch X schema (some b) w = raise (.error f) w := by
        unfold writeOneBatch
        rw [hargs, raise_error_bind]
      rw [hraise] at h
      rcases raise_eq_error.mp h with ⟨why', hf, he, _⟩ | ⟨_, _, he, _⟩ | ⟨_, he, _⟩
      · cases hf
        cases he
        rw [checkArguments_refused hargs] at hwhy
        cases hwhy
      · cases he
      · cases he
    | ok args =>
    obtain ⟨sc, b'⟩ := args
    obtain ⟨_, hb, _⟩ := checkArguments_eq_ok.mp hargs
    cases hb
    cases hlock : lockSchema sc w with
    | error e t =>
      have hstop : writeOneBatch X schema (some b) w = .error e t := by
        unfold writeOneBatch
        rw [hargs, raise_ok_bind]
        exact seq_eq_error.mpr (.inl hlock)
      rw [hstop] at h
      cases h
      rw [lockSchema_refused hlock] at hwhy
      cases hwhy
    | ok u w1 =>
      have hlocked := lockSchema_ok.mp hlock
      rw [writeOneBatch_eq hargs hlocked] at h
      rcases seq_eq_error.mp h with hloop | ⟨rg, t, _, hcommit⟩
      · obtain ⟨_, leaf, hfirst⟩ := writeLeaves_refused.mp ⟨w', hloop⟩
        obtain ⟨pieces, msg, rfl⟩ := ((onlyStreams_writeLeaves _ _ _ _).error hloop).1
        rw [hlocked.settings.1, hlocked.settings.2.1] at hfirst
        subst hleaves
        exact ⟨sc, w1, leaf, rfl, hlocked, rfl, hfirst⟩
      · rw [commit_eq] at hcommit
        unfold Writer.report at hcommit
        split at hcommit <;> cases hcommit
  · rintro ⟨sc, w1, leaf, hargs, hlock, rfl, hfirst⟩
    rw [← hlock.settings.1, ← hlock.settings.2.1] at hfirst
    obtain ⟨w', hloop⟩ := writeLeaves_refused.mpr ⟨rfl, leaf, hfirst⟩
    refine ⟨w', ?_, ?_⟩
    · rw [writeOneBatch_eq hargs hlock]
      exact seq_eq_error.mpr (.inl hloop)
    · obtain ⟨pieces, msg, rfl⟩ := ((onlyStreams_writeLeaves _ _ _ _).error hloop).1
      rfl

/-! ## A leaf that is accepted -/

/-- A leaf array that passes its check counts no null unless the column is nullable. -/
theorem validateChild_ok {x : ArrowArray} {s : ColumnSpec} {rows : Int}
    (h : validateChild x s rows = .ok ()) :
    x.length = rows ∧ x.offset = 0 ∧ (s.nullable = false → ¬ 0 < x.nullCount) := by
  unfold validateChild at h
  split at h
  · cases h
  rename_i hlen
  split at h
  · cases h
  rename_i hoff
  split at h
  · cases h
  rename_i hnull
  refine ⟨not_not.mp hlen, not_not.mp hoff, fun hs hpos => hnull ⟨hpos, by simp [hs]⟩⟩

/-- An accepted leaf's array has passed its check. -/
theorem LeafArray.check {X : External} {leaf : LeafSpec} {batch x : ArrowArray} {inp : LeafInputs}
    (h : leafInputs X leaf batch = .ok inp) (hx : LeafArray leaf batch x) :
    ∃ rows, validateChild x leaf.col rows = .ok () := by
  unfold LeafArray at hx
  cases hl : leaf.hasList with
  | true =>
    rw [if_pos hl] at hx
    obtain ⟨column, hc, hf⟩ := hx
    obtain ⟨_, _, _, _, hshred, _⟩ := leafInputs_list hl h
    obtain ⟨column', _, hc', hf', hvalid, _⟩ := shredLeaf_eq_ok hshred
    rw [hc] at hc'
    cases hc'
    rw [hf] at hf'
    cases hf'
    exact ⟨_, hvalid⟩
  | false =>
    rw [if_neg (by simp [hl])] at hx
    obtain ⟨nodes, hn, hlast⟩ := hx
    obtain ⟨_, _, _, _, _, _, hn', hlast', hvalid, _⟩ := leafInputs_flat hl h
    rw [hn] at hn'
    cases hn'
    rw [hlast] at hlast'
    cases hlast'
    exact ⟨_, hvalid⟩

end N2P
