import N2P.SoaBounds
import N2P.SoaDenotes

/-!
# String offsets of the columnar front-end

`build_node` sums the sizes of a string column's present values in an `off_t`, four bytes wide for
`utf8` and `binary`, and never looks whether the sum still fits.

* `OffsetsNeverWrap` — every offset of a batch handed to the writer is the exact sum of the present
  sizes before it, and a 32-bit column that cannot hold its sum is refused.
* `offsetsNeverWrap_iff` — that holds exactly when, on an open writer, only a misshapen chunk has a
  column whose bytes do not fit, and, on a closed one, the stored status already refuses.
-/

namespace N2P.Soa

open Columnar

/-! ## What the offsets should be -/

/-- The bytes present in a string column; no other leaf has offsets. -/
def leafStrings : (t : FieldType) → List t.Value → (Nat → Bool) → List (StringType × Nat)
  | .string t, vs, at_ => [(t, presentBytes vs at_)]
  | .element _, _, _ => []
  | .bool, _, _ => []

/-- Every offset of a leaf's array is the sum of the present sizes before it. -/
def LeafOffsets : (t : FieldType) → List t.Value → (Nat → Bool) → ArrowArray → Prop
  | .string t, vs, at_, a =>
    ∃ off, a.data 1 = .ok off ∧ ∀ i : Nat, (i : Int) ≤ a.length →
      readOffset t.offsetWidth off i = .ok (presentBytes (vs.take i) at_ : Int)
  | .element _, _, _, _ => True
  | .bool, _, _, _ => True

mutual

/-- The string columns below a field's argument, each with its present bytes. -/
def stringSizes : {f : Field} → Column f → List (StringType × Nat)
  | .leaf _ t _, .values vs => leafStrings t vs fun _ => true
  | .leaf _ t _, .nullable vs p => leafStrings t vs p.at
  | .group _ _ _, .group children => stringsSizes children
  | .group _ _ _, .nullableGroup _ children => stringsSizes children

def stringsSizes : {fs : Fields} → Columns fs → List (StringType × Nat)
  | _, .last c => stringSizes c
  | _, .cons c rest => stringSizes c ++ stringsSizes rest

end

mutual

/-- Every string column's offsets are exact in the array built for it. -/
def Column.OffsetsExact : {f : Field} → Column f → ArrowArray → Prop
  | .leaf _ t _, .values vs, a => LeafOffsets t vs (fun _ => true) a
  | .leaf _ t _, .nullable vs p, a => LeafOffsets t vs p.at a
  | .group _ _ _, .group children, a =>
    ∃ arrays, a.children = some arrays ∧ children.OffsetsExact arrays
  | .group _ _ _, .nullableGroup _ children, a =>
    ∃ arrays, a.children = some arrays ∧ children.OffsetsExact arrays

def Columns.OffsetsExact : {fs : Fields} → Columns fs → List ArrowArray → Prop
  | _, .last c, as => ∃ a, as = [a] ∧ c.OffsetsExact a
  | _, .cons c rest, as => ∃ a as', as = a :: as' ∧ c.OffsetsExact a ∧ rest.OffsetsExact as'

end

/-- The bytes do not fit an `off_t`. -/
def OutgrowsOffsets (s : StringType × Nat) : Prop := 2 ^ (8 * s.1.offsetWidth - 1) ≤ s.2

/-! ## A leaf -/

/-- Each wrapper's bits are what the caller passed, also where a mask ends early. -/
theorem agrees_column (p : Presence) (n : Nat) : (p.column n).Agrees n p.at := by
  intro i hi
  cases p with
  | bits bitmap nullCount =>
    cases bitmap with
    | none => rfl
    | some bm =>
      show (ByteSeq.getBit bm i).getD false = (ByteSeq.getBit bm i == some true)
      cases ByteSeq.getBit bm i with
      | none => rfl
      | some b => cases b <;> rfl
  | mask m =>
    obtain ⟨hlen, hbits, _, _⟩ := packMask_spec n (m.take n)
    have hget : ByteSeq.getBit (packMask n (m.take n)).bits i = some ((m.take n).getD i false) :=
      hbits i (by omega)
    have hpointer : (present n m).pointer = some (packMask n (m.take n)).bits := by
      have hne : (packMask n (m.take n)).bits.isEmpty = false := by
        rw [List.isEmpty_eq_false_iff, ← List.length_pos_iff, hlen]
        omega
      show (if (packMask n (m.take n)).bits.isEmpty then none else _) = _
      rw [hne]
      rfl
    show (present n m).presentAt i = m.getD i false
    unfold Validity.presentAt
    rw [hpointer]
    show (ByteSeq.getBit _ i).getD false = _
    rw [hget, Option.getD_some, List.getD_eq_getElem?_getD, List.getElem?_take_of_lt hi,
      List.getD_eq_getElem?_getD]

/-- What an `off_t` holds is below half its range. -/
theorem readOffset_lt {w : Nat} {off : Bytes} {i : Nat} {x : Int}
    (h : readOffset w off i = .ok x) (hw : 0 < w) : 2 * x < (256 ^ w : Int) := by
  unfold readOffset readElem at h
  split at h
  · rename_i hin
    have hlen : ((off.drop (i * w)).take w).length = w := by
      have hle : i * w + w ≤ off.length := by
        rw [← Nat.succ_mul]
        exact hin
      rw [List.length_take, List.length_drop]
      omega
    have hx : signedLE ((off.drop (i * w)).take w) = x := Except.ok.inj h
    rw [← hx]
    unfold signedLE
    rw [hlen]
    obtain ⟨k, hk⟩ : ∃ k, w = k + 1 := ⟨w - 1, by omega⟩
    have hpow : 256 ^ w = 2 * (128 * 256 ^ k) := by
      rw [hk, pow_succ]
      omega
    have hlt := Int.bmod_lt (x := ByteSeq.ofLE ((off.drop (i * w)).take w))
      (Nat.pow_pos (by decide) : 0 < 256 ^ w)
    have hcast : ((256 : Int) ^ w) = ((256 ^ w : Nat) : Int) := by push_cast; rfl
    rw [hcast]
    omega
  · cases h

/-- The offset before value `k` is the present bytes of the values before it. -/
theorem offsetAt_eq_presentBytes {v : Validity} {vs : List Bytes} {there : Nat → Bool}
    (hv : v.Agrees vs.length there) {k : Nat} (hk : k ≤ vs.length) :
    v.offsetAt vs k = presentBytes (vs.take k) there := by
  have htake : (v.kept vs).take k = v.kept (vs.take k) := by
    apply List.ext_getElem?
    intro i
    unfold Validity.kept
    rw [List.getElem?_take, List.getElem?_mapIdx, List.getElem?_mapIdx, List.getElem?_take]
    split <;> rfl
  have hprefix : v.Agrees (vs.take k).length there := by
    intro i hi
    rw [List.length_take] at hi
    exact hv i (by omega)
  unfold Validity.offsetAt
  rw [htake, length_kept_flatten hprefix]

/-- **The offsets of a string column are exact exactly when its bytes fit.** -/
theorem leaf_offsets {name : String} {nullable : Bool} (t : FieldType) {vs : List t.Value}
    {v : Validity} {n : Nat} {there : Nat → Bool} (hn : vs.length = n) (hv : v.Agrees n there) :
    LeafOffsets t vs there (buildLeaf name t nullable vs v n).array ↔
      ∀ s ∈ leafStrings t vs there, ¬OutgrowsOffsets s := by
  cases t with
  | element t => simp [LeafOffsets, leafStrings]
  | bool => simp [LeafOffsets, leafStrings]
  | string t =>
    subst hn
    have hb := stringBuffers_spec t v vs.length vs
    have hpow : (256 : Int) ^ t.offsetWidth = 2 * 2 ^ (8 * t.offsetWidth - 1) := by
      cases t <;> decide
    rw [leafStrings, List.forall_mem_singleton]
    unfold OutgrowsOffsets
    rw [Nat.not_le]
    constructor
    · rintro ⟨off, _, hoff⟩
      have hlast := hoff vs.length le_rfl
      rw [List.take_length] at hlast
      have hlt := readOffset_lt hlast (by cases t <;> decide)
      rw [hpow] at hlt
      exact_mod_cast (by omega : (presentBytes vs there : Int) < 2 ^ (8 * t.offsetWidth - 1))
    · intro hfit
      refine ⟨_, rfl, fun i hi => ?_⟩
      have hi : i ≤ vs.length := Int.ofNat_le.mp hi
      rw [← offsetAt_eq_presentBytes hv hi]
      exact string_offsets hb hv ⟨rfl, hfit⟩ hi

/-! ## The tree -/

mutual

theorem node_offsets {n : Nat} : {f : Field} → (c : Column f) → (∀ k ∈ leafSizes c, k = n) →
    (c.OffsetsExact (buildNode c n).array ↔ ∀ s ∈ stringSizes c, ¬OutgrowsOffsets s)
  | .leaf _ t _, .values vs, h => by
    rw [leafSizes, List.forall_mem_singleton] at h
    rw [buildNode, Column.OffsetsExact, stringSizes]
    exact leaf_offsets t h (denotes_required n).agrees
  | .leaf _ t _, .nullable vs p, h => by
    rw [leafSizes, List.forall_mem_singleton] at h
    rw [buildNode, Column.OffsetsExact, stringSizes, h]
    exact leaf_offsets t h (agrees_column p n)
  | .group _ _ _, .group children, h => by
    rw [leafSizes] at h
    rw [buildNode, Column.OffsetsExact, stringSizes, ← nodes_offsets children h]
    simp [buildGroup]
  | .group _ _ _, .nullableGroup p children, h => by
    rw [leafSizes] at h
    rw [buildNode, Column.OffsetsExact, stringSizes, ← nodes_offsets children h]
    simp [buildGroup]

theorem nodes_offsets {n : Nat} : {fs : Fields} → (cols : Columns fs) →
    (∀ k ∈ sizes cols, k = n) →
    (cols.OffsetsExact (buildNodes cols n).arrays ↔ ∀ s ∈ stringsSizes cols, ¬OutgrowsOffsets s)
  | _, .last c, h => by
    rw [sizes] at h
    rw [buildNodes, Columns.OffsetsExact, stringsSizes, ← node_offsets c h]
    simp
  | _, .cons c rest, h => by
    rw [sizes, List.forall_mem_append] at h
    rw [buildNodes, Columns.OffsetsExact, stringsSizes, List.forall_mem_append,
      ← node_offsets c h.1, ← nodes_offsets rest h.2]
    simp

end

/-! ## A call -/

section Calls

variable {X : External} {S : Schema} {self : SoaWriter S} {cols : Columns S.fields}

/-- The offsets of the batch handed to the writer are exact, and a 32-bit column that cannot hold
    its present bytes is refused. -/
def OffsetsNeverWrap (X : External) (self : SoaWriter S) (cols : Columns S.fields) : Prop :=
  (∀ schema batch, handedBatch self cols = some (schema, batch) →
    ∃ arrays, batch.children = some arrays ∧ cols.OffsetsExact arrays) ∧
  ((∃ s ∈ stringsSizes cols, s.1.isLarge = false ∧ OutgrowsOffsets s) →
    (writeChunk X self cols).Refuses)

/-- The tree's offsets, when no length was found wrong. -/
theorem chunk_offsets (hshape : ¬Misshapen cols) :
    (∃ arrays, (chunkNode cols).array.children = some arrays ∧ cols.OffsetsExact arrays) ↔
      ∀ s ∈ stringsSizes cols, ¬OutgrowsOffsets s := by
  have hsizes := ((nodes_ok (firstSize cols) cols).mp ((chunk_ok cols).mpr hshape)).1
  rw [← nodes_offsets cols hsizes]
  simp [chunkNode, ArrowArray.struct]

/-- **String offsets never wrap** exactly when a chunk whose bytes do not fit is refused for its
    shape, without an index out of bounds, or by a closed writer's status. -/
theorem offsetsNeverWrap_iff :
    OffsetsNeverWrap X self cols ↔
      (self.w.isSome →
        ((∃ s ∈ stringsSizes cols, OutgrowsOffsets s) → Misshapen cols) ∧
        ((∃ s ∈ stringsSizes cols, s.1.isLarge = false ∧ OutgrowsOffsets s) →
          ColumnsFit (firstSize cols) cols)) ∧
      (self.w = none → (∃ s ∈ stringsSizes cols, s.1.isLarge = false ∧ OutgrowsOffsets s) →
        self.status ≠ .ok) := by
  unfold OffsetsNeverWrap
  cases hw : self.w with
  | none =>
    rw [refuses_closed hw]
    constructor
    · rintro ⟨_, h⟩
      exact ⟨fun h => by simp at h, fun _ => h⟩
    · rintro ⟨_, h⟩
      refine ⟨fun schema batch hb => ?_, h rfl⟩
      rw [handedBatch_closed hw] at hb
      cases hb
  | some w =>
    by_cases hshape : Misshapen cols
    · rw [handedBatch_misshapen hshape, refuses_misshapen hw hshape]
      constructor
      · rintro ⟨_, h⟩
        exact ⟨fun _ => ⟨fun _ => hshape, h⟩, fun h => by simp at h⟩
      · rintro ⟨h, _⟩
        exact ⟨fun schema batch hb => (by cases hb), (h rfl).2⟩
    · rw [handedBatch_open hw hshape]
      constructor
      · rintro ⟨h, _⟩
        have hfit := (chunk_offsets hshape).mp (h _ _ rfl)
        refine ⟨fun _ => ⟨?_, ?_⟩, fun h => by simp at h⟩
        · rintro ⟨s, hs, hover⟩
          exact absurd hover (hfit s hs)
        · rintro ⟨s, hs, _, hover⟩
          exact absurd hover (hfit s hs)
      · rintro ⟨h, _⟩
        have hfit : ∀ s ∈ stringsSizes cols, ¬OutgrowsOffsets s := fun s hs hover =>
          hshape ((h rfl).1 ⟨s, hs, hover⟩)
        constructor
        · rintro schema batch hb
          cases hb
          exact (chunk_offsets hshape).mpr hfit
        · rintro ⟨s, hs, _, hover⟩
          exact absurd hover (hfit s hs)

end Calls

/-- A single plain range is never misshapen. -/
theorem single_shape (name : String) (t : FieldType) (vs : List t.Value) :
    ¬Misshapen (.last (.values vs) : Columns (.last (.leaf name t false))) := by
  rintro (⟨k, hk, hne⟩ | ⟨k, hk, _⟩)
  · rw [sizes, leafSizes, List.mem_singleton] at hk
    rw [firstSize, firstLeafSize] at hne
    exact hne hk
  · rw [groupsRows, groupRows] at hk
    cases hk

/-- One column of names. -/
def namesOnly : Schema where
  fields := .last (.leaf "name" (.string .utf8) false)
  unique := by decide

/-- A name of a gibibyte. -/
def longName : Bytes := List.replicate (2 ^ 30) 0x61

def longNames : Columns namesOnly.fields := .last (.values [longName, longName])

theorem outgrowsOffsets_longNames :
    ∃ s ∈ stringsSizes longNames, OutgrowsOffsets s := by
  refine ⟨(.utf8, presentBytes [longName, longName] fun _ => true), List.mem_singleton.mpr rfl, ?_⟩
  have hbytes (e : Bytes) : presentBytes [e, e] (fun _ => true) = 2 * e.length := by
    simp [presentBytes]
    omega
  have hlen : longName.length = 2 ^ 30 := List.length_replicate
  unfold OutgrowsOffsets
  rw [hbytes, hlen]
  decide

/-- **Two names of a gibibyte each**: the third offset is handed over as -2^31. -/
theorem not_offsetsNeverWrap_longNames :
    ¬OffsetsNeverWrap External.reference
      (openWriter namesOnly (.fresh 8191 none) "out.parquet") longNames := by
  have hshape : ¬Misshapen longNames := single_shape "name" (.string .utf8) [longName, longName]
  rintro ⟨h, _⟩
  have hfit := (chunk_offsets hshape).mp (h _ _ (handedBatch_open rfl hshape))
  obtain ⟨s, hs, hover⟩ := outgrowsOffsets_longNames
  exact hfit s hs hover

end N2P.Soa
