import Mathlib.Algebra.BigOperators.Group.Finset.Basic
import N2P.Reference

/-!
# The size of a string column's bodies

In AUTO mode `build_byte_array_pages` decides between a dictionary and PLAIN from sizes it predicts
before either is built.

* `internAll_spec` — a dictionary that keeps one entry per distinct value, filled from a list.
* `byteArrayPages_sizes` — the bodies returned are as large as the smaller of the two predictions,
  and both predictions are exact.
-/

namespace N2P

open Outcome

/-- The dictionary keeps one entry for each distinct value it was given. -/
structure External.Distinct (X : External) : Prop where
  empty : X.dictionaryValues X.emptyDictionary = []
  keeps : ∀ (d : X.Dictionary) (v : Bytes),
    X.dictionaryValues d <+: X.dictionaryValues (X.indexOf d v).2
  indexOf : ∀ (d : X.Dictionary) (v : Bytes),
    (X.dictionaryValues (X.indexOf d v).2)[(X.indexOf d v).1]? = some v
  entries : ∀ (d : X.Dictionary) (v : Bytes), ∀ u ∈ X.dictionaryValues (X.indexOf d v).2,
    u ∈ X.dictionaryValues d ∨ u = v
  nodup : ∀ (d : X.Dictionary) (v : Bytes), (X.dictionaryValues d).Nodup →
    (X.dictionaryValues (X.indexOf d v).2).Nodup

/-- The distinct values of a list, and where each value of the list is among them. -/
structure Interned (vs dict : List Bytes) (indices : List Nat) : Prop where
  nodup : dict.Nodup
  entries : ∀ v, v ∈ dict ↔ v ∈ vs
  indices : List.Forall₂ (fun i v => dict[i]? = some v) indices vs

/-- The number of entries is the number of distinct values. -/
theorem Interned.length {vs dict : List Bytes} {indices : List Nat} (h : Interned vs dict indices) :
    dict.length = vs.toFinset.card := by
  rw [← List.toFinset_card_of_nodup h.nodup]
  congr 1
  ext v
  simpa using h.entries v

section Interning

variable {X : External} (hX : X.Distinct)

include hX

/-- One value after the other: the entries stay distinct, and only given values are added. -/
theorem indexAll_distinct (d : X.Dictionary) (vs : List Bytes)
    (hd : (X.dictionaryValues d).Nodup) :
    (X.dictionaryValues (indexAll X d vs).2).Nodup ∧
      ∀ u ∈ X.dictionaryValues (indexAll X d vs).2, u ∈ X.dictionaryValues d ∨ u ∈ vs := by
  induction vs generalizing d with
  | nil => exact ⟨hd, fun u hu => .inl hu⟩
  | cons v vs ih =>
    obtain ⟨hnodup, hentries⟩ := ih (X.indexOf d v).2 (hX.nodup d v hd)
    refine ⟨hnodup, fun u hu => ?_⟩
    rcases hentries u hu with hu | hu
    · rcases hX.entries d v u hu with hu | rfl
      · exact .inl hu
      · exact .inr List.mem_cons_self
    · exact .inr (List.mem_cons_of_mem v hu)

/-- **A dictionary filled from a list.** -/
theorem internAll_spec (vs : List Bytes) :
    Interned vs (X.dictionaryValues (indexAll X X.emptyDictionary vs).2)
      (indexAll X X.emptyDictionary vs).1 := by
  have hempty : (X.dictionaryValues X.emptyDictionary).Nodup := by
    rw [hX.empty]
    exact List.nodup_nil
  obtain ⟨hnodup, hentries⟩ := indexAll_distinct hX X.emptyDictionary vs hempty
  obtain ⟨_, hall⟩ := indexAll_ok hX.indexOf hX.keeps X.emptyDictionary vs
  refine ⟨hnodup, fun v => ⟨fun hv => ?_, fun hv => ?_⟩, hall⟩
  · rcases hentries v hv with hv | hv
    · rw [hX.empty] at hv
      cases hv
    · exact hv
  · obtain ⟨k, hk, rfl⟩ := List.getElem_of_mem hv
    have hk' : k < (indexAll X X.emptyDictionary vs).1.length := by
      rw [hall.length_eq]
      exact hk
    exact List.mem_of_getElem? (hall.get hk' hk)

end Interning

/-! ## The two layouts -/

/-- The present values of a column of strings, in row order. -/
def presentStrings (arr : ArrowArray) (s : ColumnSpec) (validity : Option Bytes) :
    Except Fault (List Bytes) :=
  match arr.data 1, arr.data 2 with
  | .ok off, .ok data =>
    forValid validity (fun i => valueAt s off data i) (List.range (toSize arr.length))
  | _, _ => .error .undefined

/-- The bodies are built from the present values alone. -/
theorem buildByteArrayPages_present (X : External) (arr : ArrowArray) (s : ColumnSpec)
    (validity : Option Bytes) (mode : Nat) :
    buildByteArrayPages X arr s validity mode =
      match presentStrings arr s validity with
      | .error e => .error e
      | .ok present => byteArrayPages X present mode := by
  unfold buildByteArrayPages presentStrings
  cases arr.data 1 with
  | error e => rfl
  | ok off =>
  cases arr.data 2 with
  | error e => rfl
  | ok data =>
  cases h : forValid validity (fun i => valueAt s off data i) (List.range (toSize arr.length)) with
  | error e => simp only [h]
  | ok present => simp only [h]

/-- The bodies that hold byte strings behind their lengths. -/
theorem byteArrayPages_bodies {X : External} {present : List Bytes} {mode : Nat}
    {p : ByteArrayPages} (h : byteArrayPages X present mode = .ok p) :
    if p.useDictionary then
      p.dictSize = (X.dictionaryValues (indexAll X X.emptyDictionary present).2).length ∧
        p.dictBody = plainByteArrays (X.dictionaryValues (indexAll X X.emptyDictionary present).2)
    else p.dataEncoding = .plain → p.dataBody = plainByteArrays present := by
  unfold byteArrayPages at h
  dsimp only at h
  split at h
  · cases h
    exact fun _ => rfl
  split at h
  · split at h
    · cases h
    · cases h
      exact nofun
  split at h
  · cases h
    exact fun _ => rfl
  · cases h
    exact ⟨rfl, rfl⟩

/-- The size of the PLAIN body: a 4-byte length and the bytes of each value. -/
def plainSize (present : List Bytes) : Nat := (present.map fun v => 4 + v.length).sum

/-- The size of the dictionary layout: the PLAIN body of the distinct values, the width byte and
    the index stream. -/
def dictionarySize (X : External) (present : List Bytes) : Nat :=
  ∑ v ∈ present.toFinset, (4 + v.length) + 1 +
    (X.rleHybridEncode (indexAll X X.emptyDictionary present).1
      (dictionaryBitWidth present.toFinset.card)).length

/-- The bodies are as small as the smaller of the two layouts. -/
structure SizeOptimal (X : External) (present : List Bytes) (pages : ByteArrayPages) : Prop where
  /-- The encoded indices are those of the present values among the distinct ones. -/
  interned : Interned present (X.dictionaryValues (indexAll X X.emptyDictionary present).2)
    (indexAll X X.emptyDictionary present).1
  total : pages.dictBody.length + pages.dataBody.length =
    min (plainSize present) (dictionarySize X present)
  le_plain : pages.dictBody.length + pages.dataBody.length ≤ plainSize present
  dictSize : pages.useDictionary = true → pages.dictSize = present.toFinset.card

theorem plainSize_eq (vs : List Bytes) : plainSize vs = 4 * vs.length + totalSize vs := by
  unfold plainSize totalSize
  induction vs with
  | nil => rfl
  | cons v vs ih =>
    simp only [List.map_cons, List.sum_cons, List.length_cons, ih]
    omega

/-- The dictionary's body has the size of the distinct values', whatever their order. -/
theorem Interned.plainSize {vs dict : List Bytes} {indices : List Nat}
    (h : Interned vs dict indices) : plainSize dict = ∑ v ∈ vs.toFinset, (4 + v.length) := by
  have hset : vs.toFinset = dict.toFinset := by
    ext v
    simpa using (h.entries v).symm
  rw [hset, List.sum_toFinset _ h.nodup]
  rfl

/-- The chooser, once the present values are collected. -/
theorem byteArrayPages_optimal {X : External} (hX : X.Distinct) {mode : Nat}
    (hmode : mode = kEncAuto ∨ mode = kEncByteStreamSplit) (present : List Bytes) :
    ∃ pages, byteArrayPages X present mode = .ok pages ∧ SizeOptimal X present pages := by
  have hplain : mode ≠ kEncPlain := by rcases hmode with rfl | rfl <;> decide
  have hdelta : mode ≠ kEncDelta := by rcases hmode with rfl | rfl <;> decide
  have hin := internAll_spec hX present
  have hsize : dictionarySize X present =
      4 * (X.dictionaryValues (indexAll X X.emptyDictionary present).2).length +
        totalSize (X.dictionaryValues (indexAll X X.emptyDictionary present).2) + 1 +
      (X.rleHybridEncode (indexAll X X.emptyDictionary present).1 (dictionaryBitWidth
        (X.dictionaryValues (indexAll X X.emptyDictionary present).2).length)).length := by
    unfold dictionarySize
    rw [← hin.plainSize, plainSize_eq, ← hin.length]
  unfold byteArrayPages
  rw [if_neg hplain, if_neg hdelta]
  dsimp only
  rw [← hsize, ← plainSize_eq]
  by_cases hlt : plainSize present < dictionarySize X present
  · rw [if_pos hlt]
    have hlen : (plainByteArrays present).length = plainSize present := by
      rw [length_plainByteArrays, plainSize_eq]
    refine ⟨_, rfl, ⟨hin, ?_, ?_, nofun⟩⟩
    · rw [Nat.min_eq_left (by omega), ← hlen]
      exact Nat.zero_add _
    · rw [← hlen]
      exact Nat.le_of_eq (Nat.zero_add _)
  · rw [if_neg hlt]
    refine ⟨_, rfl, ⟨hin, ?_, ?_, fun _ => hin.length⟩⟩
    · rw [Nat.min_eq_right (by omega), hsize, length_plainByteArrays, List.length_cons]
      omega
    · rw [length_plainByteArrays, List.length_cons]
      omega

/-- **The string chooser is size-optimal and its prediction exact.**  In AUTO and BYTE_STREAM_SPLIT
    mode, whenever the present values of the column can be read, bodies are returned, and they are
    together as large as the smaller of the PLAIN body and the dictionary layout. -/
theorem byteArrayPages_sizes {X : External} (hX : X.Distinct) {mode : Nat}
    (hmode : mode = kEncAuto ∨ mode = kEncByteStreamSplit) (arr : ArrowArray) (s : ColumnSpec)
    (validity : Option Bytes) :
    (∀ present, presentStrings arr s validity = .ok present →
      ∃ pages, buildByteArrayPages X arr s validity mode = .ok pages ∧
        SizeOptimal X present pages) ∧
    ∀ pages, buildByteArrayPages X arr s validity mode = .ok pages →
      ∃ present, presentStrings arr s validity = .ok present := by
  rw [buildByteArrayPages_present]
  cases presentStrings arr s validity with
  | error e => exact ⟨nofun, nofun⟩
  | ok present =>
    refine ⟨fun present' h => ?_, fun _ _ => ⟨present, rfl⟩⟩
    cases h
    exact byteArrayPages_optimal hX hmode present

theorem mem_addString {d : List Bytes} {v u : Bytes} (h : u ∈ (addString d v).2) :
    u ∈ d ∨ u = v := by
  unfold addString at h
  split at h
  · exact .inl h
  · simpa using h

theorem nodup_addString {d : List Bytes} (v : Bytes) (h : d.Nodup) : (addString d v).2.Nodup := by
  unfold addString
  split
  · exact h
  · rename_i hmem
    apply List.nodup_append.mpr
    refine ⟨h, List.nodup_singleton v, fun a ha b hb => ?_⟩
    rw [List.mem_singleton.mp hb]
    rintro rfl
    exact hmem ha

/-- The reference dictionary keeps one entry per distinct value. -/
theorem distinct_reference : External.reference.Distinct :=
  ⟨rfl, referenceDecoders_invert.keeps, referenceDecoders_invert.indexOf,
    fun _ _ _ hu => mem_addString hu, fun _ v hd => nodup_addString v hd⟩

/-- Four names, two of them alike and one absent. -/
def repeatedNames : ArrowArray := .strings [0, 2, 4, 4, 6] [97, 98, 97, 98, 99, 100] (some [0b1011]) 1

theorem byteArrayPages_sizes_repeatedNames :
    ∃ pages, buildByteArrayPages .reference repeatedNames
        { type := .byteArray, extract := .byteArray, name := "name" } (some [0b1011]) kEncAuto =
          .ok pages ∧
      SizeOptimal .reference [[97, 98], [97, 98], [99, 100]] pages :=
  (byteArrayPages_sizes distinct_reference (.inl rfl) repeatedNames _ _).1 _ (by decide +kernel)

end N2P
