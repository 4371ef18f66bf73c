import N2P.PlainValues
import N2P.Chunks

/-!
# Strings and dictionaries

How byte strings read back, with or without a dictionary.

* `readByteArrays_plain` — length-prefixed strings, when every length fits the 32-bit prefix;
  `lengths_lt`: it does when the whole body fits a page.
* `dictionaryBitWidth_spec` — the index width is the least that holds every index.
* `readIndices_ok` — the index page looks the strings up again in the dictionary it was built from.
-/

namespace N2P

open Outcome

/-! ## Byte strings -/

theorem readByteArrays_plain {vs : List Bytes} (h : ∀ v ∈ vs, v.length < 2 ^ 32) :
    readByteArrays vs.length (plainByteArrays vs) = some vs := by
  induction vs with
  | nil => rfl
  | cons v vs ih =>
    have hlen : (leSize v.length).length = 4 := length_leBytes _
    have hbody : plainByteArrays (v :: vs) = leSize v.length ++ (v ++ plainByteArrays vs) := by
      simp [plainByteArrays]
    have htake : (plainByteArrays (v :: vs)).take 4 = leSize v.length := by
      rw [hbody, ← hlen, List.take_left]
    have hdrop : (plainByteArrays (v :: vs)).drop 4 = v ++ plainByteArrays vs := by
      rw [hbody, ← hlen, List.drop_left]
    have hle : 4 + v.length ≤ (plainByteArrays (v :: vs)).length := by
      rw [hbody, List.length_append, List.length_append, hlen]
      omega
    rw [List.length_cons, readByteArrays, htake, ofLE_leSize (h v List.mem_cons_self)]
    simp only [if_pos hle, hdrop, ← List.drop_drop]
    rw [List.drop_left, List.take_left, ih fun u hu => h u (List.mem_cons_of_mem v hu)]
    rfl

theorem length_plainByteArrays (vs : List Bytes) :
    (plainByteArrays vs).length = 4 * vs.length + totalSize vs := by
  induction vs with
  | nil => rfl
  | cons v vs ih =>
    have hlen : (leSize v.length).length = 4 := length_leBytes _
    simp only [plainByteArrays, totalSize, List.flatMap_cons, List.length_append, List.length_cons,
      List.map_cons, List.sum_cons, hlen] at ih ⊢
    omega

/-- The strings of a body that fits a page have lengths that fit their prefixes. -/
theorem lengths_lt {vs : List Bytes} (h : (plainByteArrays vs).length ≤ INT32_MAX) :
    ∀ v ∈ vs, v.length < 2 ^ 32 := by
  intro v hv
  have hle : v.length ≤ totalSize vs := by
    obtain ⟨xs, ys, rfl⟩ := List.append_of_mem hv
    simp [totalSize]
    omega
  rw [length_plainByteArrays] at h
  unfold INT32_MAX at h
  omega

/-! ## Dictionaries -/

theorem bitWidthFrom_spec {n : Nat} (fuel w : Nat) (h : n ≤ 2 ^ (w + fuel)) :
    n ≤ 2 ^ bitWidthFrom fuel w n ∧ ∀ m, w ≤ m → n ≤ 2 ^ m → bitWidthFrom fuel w n ≤ m := by
  induction fuel generalizing w with
  | zero => exact ⟨h, fun m hm _ => hm⟩
  | succ fuel ih =>
    rw [bitWidthFrom]
    split
    · rename_i hlt
      obtain ⟨h1, h2⟩ := ih (w + 1) (by rw [show w + 1 + fuel = w + (fuel + 1) by omega]; exact h)
      refine ⟨h1, fun m hm hn => h2 m ?_ hn⟩
      have hne : w ≠ m := by
        rintro rfl
        omega
      omega
    · rename_i hge
      exact ⟨by omega, fun m hm _ => hm⟩

/-- The width holds every index below `n`, and `n` below 2 GiB needs at most 31 bits. -/
theorem dictionaryBitWidth_spec {n : Nat} (h : n ≤ INT32_MAX) :
    n ≤ 2 ^ dictionaryBitWidth n ∧ dictionaryBitWidth n ≤ 31 := by
  unfold INT32_MAX at h
  obtain ⟨h1, h2⟩ := @bitWidthFrom_spec n 64 0 (by omega)
  exact ⟨h1, h2 31 (by omega) (by omega)⟩

/-- Every index names its string in the final dictionary. -/
theorem indexAll_ok {X : External}
    (hindex : ∀ (d : X.Dictionary) (v : Bytes),
      (X.dictionaryValues (X.indexOf d v).2)[(X.indexOf d v).1]? = some v)
    (hkeeps : ∀ (d : X.Dictionary) (v : Bytes),
      X.dictionaryValues d <+: X.dictionaryValues (X.indexOf d v).2)
    (d : X.Dictionary) (vs : List Bytes) :
    X.dictionaryValues d <+: X.dictionaryValues (indexAll X d vs).2 ∧
      List.Forall₂ (fun i v => (X.dictionaryValues (indexAll X d vs).2)[i]? = some v)
        (indexAll X d vs).1 vs := by
  induction vs generalizing d with
  | nil => exact ⟨List.prefix_rfl, .nil⟩
  | cons v vs ih =>
    obtain ⟨hpre, hall⟩ := ih (X.indexOf d v).2
    refine ⟨(hkeeps d v).trans hpre, .cons ?_ hall⟩
    have hidx := hindex d v
    have hlt := (List.getElem?_eq_some_iff.mp hidx).1
    obtain ⟨more, hmore⟩ := hpre
    show (X.dictionaryValues (indexAll X (X.indexOf d v).2 vs).2)[(X.indexOf d v).1]? = some v
    rw [← hmore, List.getElem?_append_left hlt, hidx]

/-- Looking up indices that name strings. -/
theorem lookups_ok {dict vs : List Bytes} {is : List Nat}
    (h : List.Forall₂ (fun i v => dict[i]? = some v) is vs) :
    (∀ i ∈ is, i < dict.length) ∧
      is.mapM (fun i => (dict.map Value.byteArray)[i]?) = some (vs.map .byteArray) := by
  induction h with
  | nil => exact ⟨by simp, rfl⟩
  | cons hv _ ih =>
    refine ⟨fun j hj => ?_, ?_⟩
    · rcases List.mem_cons.mp hj with rfl | hj
      · exact (List.getElem?_eq_some_iff.mp hv).1
      · exact ih.1 j hj
    · rw [List.mapM_cons, ih.2, List.getElem?_map, hv]
      rfl

/-- The indices of a data page, read back through the dictionary page. -/
theorem readIndices_ok {X : External} {D : Decoders} (hD : D.Inverts X) {vs dict : List Bytes}
    (hdict : X.dictionaryValues (indexAll X X.emptyDictionary vs).2 = dict)
    (hn : dict.length ≤ INT32_MAX) (hbody : (plainByteArrays dict).length ≤ INT32_MAX) :
    readIndices D .byteArray 0 vs.length (dict.length, plainByteArrays dict)
      (UInt8.ofNat (dictionaryBitWidth dict.length) ::
        X.rleHybridEncode (indexAll X X.emptyDictionary vs).1 (dictionaryBitWidth dict.length)) =
      some (vs.map .byteArray) := by
  obtain ⟨_, hall⟩ := indexAll_ok hD.indexOf hD.keeps X.emptyDictionary vs
  rw [hdict] at hall
  have hlook := lookups_ok hall
  obtain ⟨hwidth, hsmall⟩ := dictionaryBitWidth_spec hn
  have hbyte : (UInt8.ofNat (dictionaryBitWidth dict.length)).toNat =
      dictionaryBitWidth dict.length := by
    rw [UInt8.toNat_ofNat', Nat.mod_eq_of_lt (by omega)]
  have hlt : ∀ i ∈ (indexAll X X.emptyDictionary vs).1,
      i < 2 ^ dictionaryBitWidth dict.length := by
    intro i hi
    have := hlook.1 i hi
    omega
  have hdecode := hD.rleHybrid _ _ (by omega) hlt
  rw [hall.length_eq] at hdecode
  have hplain : readPlain .byteArray 0 dict.length (plainByteArrays dict) =
      some (dict.map .byteArray) := by
    show (readByteArrays dict.length (plainByteArrays dict)).map _ = _
    rw [readByteArrays_plain (lengths_lt hbody)]
    rfl
  unfold readIndices
  dsimp only
  rw [hplain, Option.bind_some, hbyte, hdecode, Option.bind_some]
  exact hlook.2

end N2P
