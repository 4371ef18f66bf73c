import N2P.SoaBounds

/-!
# Presence masks of the columnar front-end

`present` stops at the end of the values or of the mask, whichever comes first, and pads with
nulls; `group_present` packs the whole mask and remembers its length, which `build_node` compares
with the row count.

* `MasksCover` — a chunk with a mask of another length is refused, and in a batch handed to the
  writer every bitmap and null count is what a mask of one entry a row says.
* `masksCover_iff` — that holds exactly when, on an open writer, a chunk with such a mask is
  misshapen for a length that is compared and, on a closed one, has been refused before.
-/

namespace N2P.Soa

/-! ## What a mask says -/

mutual

/-- The entries of the masks given below a field's argument, in order. -/
def maskRows : {f : Field} → Column f → List Nat
  | .leaf _ _ _, .values _ => []
  | .leaf _ _ _, .nullable _ p => p.rows
  | .group _ _ _, .group children => masksRows children
  | .group _ _ _, .nullableGroup p children => p.rows ++ masksRows children

def masksRows : {fs : Fields} → Columns fs → List Nat
  | _, .last c => maskRows c
  | _, .cons c rest => maskRows c ++ masksRows rest

end

/-- Some mask has more or fewer entries than the chunk has rows. -/
def MaskMismatch {fs : Fields} (cols : Columns fs) : Prop :=
  ∃ k ∈ masksRows cols, k ≠ firstSize cols

/-- An array's validity is what a mask says, one entry a row.  A caller's bitmap is passed on. -/
def Presence.Said : Presence → ArrowArray → Prop
  | .mask m, a =>
    (m.length : Int) = a.length ∧
      (∀ i b, m[i]? = some b → ∃ bm, a.buffer 0 = .ok (some bm) ∧ ByteSeq.getBit bm i = some b) ∧
      a.nullCount = m.count false
  | .bits _ _, _ => True

mutual

/-- The validity of every nullable array is what its mask says. -/
def Column.MasksSaid : {f : Field} → Column f → ArrowArray → Prop
  | .leaf _ _ _, .values _, _ => True
  | .leaf _ _ _, .nullable _ p, a => p.Said a
  | .group _ _ _, .group children, a =>
    ∃ arrays, a.children = some arrays ∧ children.MasksSaid arrays
  | .group _ _ _, .nullableGroup p children, a =>
    p.Said a ∧ ∃ arrays, a.children = some arrays ∧ children.MasksSaid arrays

def Columns.MasksSaid : {fs : Fields} → Columns fs → List ArrowArray → Prop
  | _, .last c, as => ∃ a, as = [a] ∧ c.MasksSaid a
  | _, .cons c rest, as => ∃ a as', as = a :: as' ∧ c.MasksSaid a ∧ rest.MasksSaid as'

end

/-! ## The tree -/

/-- A mask of `n` entries, packed by either wrapper. -/
theorem packMask_said {m : List Bool} {a : ArrowArray} {rest : List (Option Bytes)}
    (hlen : a.length = m.length) (hnulls : a.nullCount = (packMask m.length m).nulls)
    (hbuffers : a.buffers = some
      (Validity.pointer ⟨(packMask m.length m).bits, none, a.nullCount⟩ :: rest)) :
    (Presence.mask m).Said a := by
  obtain ⟨hsize, hbits, hcount, _⟩ := packMask_spec m.length m
  refine ⟨hlen.symm, fun i b hb => ?_, hnulls.trans hcount⟩
  obtain ⟨hi, _⟩ := List.getElem?_eq_some_iff.mp hb
  refine ⟨(packMask m.length m).bits, ?_, ?_⟩
  · have hne : (packMask m.length m).bits.isEmpty = false := by
      rw [List.isEmpty_eq_false_iff, ← List.length_pos_iff, hsize]
      omega
    unfold ArrowArray.buffer
    rw [hbuffers]
    simp [Validity.pointer, hne]
  · rw [hbits i (by omega), List.getD_eq_getElem?_getD, hb]
    rfl

/-- Either wrapper's validity is what its mask says exactly when the mask has an entry a row. -/
theorem said_iff {p : Presence} {a : ArrowArray} {n : Nat} (hlen : a.length = n)
    (h : ∀ m, p = .mask m → m.length = n → p.Said a) :
    p.Said a ↔ ∀ k ∈ p.rows, k = n := by
  cases p with
  | bits bitmap nullCount => simp [Presence.Said, Presence.rows]
  | mask m =>
    rw [Presence.rows, List.forall_mem_singleton]
    constructor
    · rintro ⟨hm, _⟩
      rw [hlen] at hm
      exact_mod_cast hm
    · exact h m rfl

mutual

theorem node_masks {n : Nat} : {f : Field} → (c : Column f) → (∀ k ∈ leafSizes c, k = n) →
    (c.MasksSaid (buildNode c n).array ↔ ∀ k ∈ maskRows c, k = n)
  | .leaf _ _ _, .values vs, _ => by
    rw [Column.MasksSaid, maskRows]
    simp
  | .leaf _ t _, .nullable vs p, h => by
    rw [leafSizes, List.forall_mem_singleton] at h
    rw [buildNode, Column.MasksSaid, maskRows, h]
    apply said_iff rfl
    rintro m rfl rfl
    have htake : (Presence.mask m).column m.length =
        ⟨(packMask m.length m).bits, none, (packMask m.length m).nulls⟩ := by
      simp [Presence.column, present]
    rw [htake]
    exact packMask_said rfl rfl rfl
  | .group _ _ _, .group children, h => by
    rw [leafSizes] at h
    rw [buildNode, Column.MasksSaid, maskRows, ← nodes_masks children h]
    simp [buildGroup]
  | .group _ _ _, .nullableGroup p children, h => by
    rw [leafSizes] at h
    rw [buildNode, Column.MasksSaid, maskRows, List.forall_mem_append, ← nodes_masks children h]
    refine and_congr ?_ (by simp [buildGroup])
    apply said_iff rfl
    rintro m rfl rfl
    exact packMask_said rfl rfl rfl

theorem nodes_masks {n : Nat} : {fs : Fields} → (cols : Columns fs) →
    (∀ k ∈ sizes cols, k = n) →
    (cols.MasksSaid (buildNodes cols n).arrays ↔ ∀ k ∈ masksRows cols, k = n)
  | _, .last c, h => by
    rw [sizes] at h
    rw [buildNodes, Columns.MasksSaid, masksRows, ← node_masks c h]
    simp
  | _, .cons c rest, h => by
    rw [sizes, List.forall_mem_append] at h
    rw [buildNodes, Columns.MasksSaid, masksRows, List.forall_mem_append,
      ← node_masks c h.1, ← nodes_masks rest h.2]
    simp

end

/-! ## A call -/

section Calls

variable {X : External} {S : Schema} {self : SoaWriter S} {cols : Columns S.fields}

/-- A mask of another length is refused, and the bitmaps handed to the writer are the masks. -/
def MasksCover (X : External) (self : SoaWriter S) (cols : Columns S.fields) : Prop :=
  (MaskMismatch cols → (writeChunk X self cols).Returns .invalidArgument) ∧
  ∀ schema batch, handedBatch self cols = some (schema, batch) →
    ∃ arrays, batch.children = some arrays ∧ cols.MasksSaid arrays

/-- The tree's bitmaps, when no length was found wrong. -/
theorem chunk_masks (hshape : ¬Misshapen cols) :
    (∃ arrays, (chunkNode cols).array.children = some arrays ∧ cols.MasksSaid arrays) ↔
      ¬MaskMismatch cols := by
  have hsizes := ((nodes_ok (firstSize cols) cols).mp ((chunk_ok cols).mpr hshape)).1
  unfold MaskMismatch
  push Not
  rw [← nodes_masks cols hsizes]
  simp [chunkNode, ArrowArray.struct]

/-- **Presence masks cover every row** exactly when a chunk with a mask of another length is
    misshapen for another reason, without an index out of bounds, or meets a closed writer that
    has refused before. -/
theorem masksCover_iff :
    MasksCover X self cols ↔
      (self.w.isSome → MaskMismatch cols → Misshapen cols ∧ ColumnsFit (firstSize cols) cols) ∧
      (self.w = none → MaskMismatch cols → self.status = .invalidArgument) := by
  unfold MasksCover
  cases hw : self.w with
  | none =>
    rw [returns_closed hw]
    constructor
    · rintro ⟨h, _⟩
      exact ⟨fun h => by simp at h, fun _ => h⟩
    · rintro ⟨_, h⟩
      refine ⟨h rfl, fun schema batch hb => ?_⟩
      rw [handedBatch_closed hw] at hb
      cases hb
  | some w =>
    by_cases hshape : Misshapen cols
    · rw [handedBatch_misshapen hshape, returns_misshapen hw hshape]
      constructor
      · rintro ⟨h, _⟩
        exact ⟨fun _ hm => ⟨hshape, (h hm).1⟩, fun h => by simp at h⟩
      · rintro ⟨h, _⟩
        exact ⟨fun hm => ⟨(h rfl hm).2, rfl⟩, fun schema batch hb => by cases hb⟩
    · rw [handedBatch_open hw hshape]
      constructor
      · rintro ⟨_, h⟩
        have hmasks := (chunk_masks hshape).mp (h _ _ rfl)
        exact ⟨fun _ hm => absurd hm hmasks, fun h => by simp at h⟩
      · rintro ⟨h, _⟩
        have hmasks : ¬MaskMismatch cols := fun hm => hshape (h rfl hm).1
        refine ⟨fun hm => absurd hm hmasks, ?_⟩
        rintro schema batch hb
        cases hb
        exact (chunk_masks hshape).mpr hmasks

end Calls

/-- One nullable column of numbers. -/
def numbersOnly : Schema where
  fields := .last (.leaf "n" (.element .int32) true)
  unique := by decide

/-- Three numbers, under a mask that speaks of the first. -/
def shortMask : Columns numbersOnly.fields := .last (.nullable [7, 8, 9] (.mask [true]))

/-- **Three numbers under a mask of one entry**: the chunk is accepted and two numbers are null. -/
theorem not_masksCover_shortMask :
    ¬MasksCover External.reference
      (openWriter numbersOnly (.fresh 8191 none) "out.parquet") shortMask := by
  rintro ⟨h, _⟩
  have hmask : MaskMismatch shortMask := ⟨1, List.mem_singleton.mpr rfl, by decide⟩
  obtain ⟨_, self', hresult⟩ := h hmask
  have hok : ((writeChunk External.reference
      (openWriter numbersOnly (.fresh 8191 none) "out.parquet") shortMask).result.map fun r =>
        r.1) = some .ok := by decide +kernel
  rw [hresult] at hok
  cases hok

end N2P.Soa
