import Mathlib.Data.List.Sort
import Mathlib.Data.List.Range
import Mathlib.Data.List.Dedup
import Mathlib.Data.Nat.Bitwise

/-!
# Byte strings: little-endian numbers and LSB-first bitmaps

* `ofLE` / `toLE` — a byte string as a little-endian number and back; `ofLE_toLE`,
  `ofLE_injective`.
* `getBit` / `setBit` — bit `i` is bit `i % 8` of byte `i / 8`; both fail past the end.
  `getBit_setBit` is the one law the rest follows from.
* `setAll` / `setBits` — setting a list of positions and reading back every set position in
  increasing order.  `setBits_setAll`: from a zero bitmap, the set positions are exactly the
  positions given, provided those were strictly increasing.
* `Spells` — a bitmap of fixed length holding a list of bits, the rest clear; `Spells.push`.
* `pieces` — split into pieces of one width; `pieces_flatten`, `flatten_elements`,
  `element_flatten`.
-/

namespace ByteSeq

/-- The little-endian number a byte string spells. -/
def ofLE : List UInt8 → Nat
  | [] => 0
  | b :: bs => b.toNat + 256 * ofLE bs

/-- The `w` low bytes of `n`, little-endian. -/
def toLE : Nat → Nat → List UInt8
  | 0, _ => []
  | w + 1, n => UInt8.ofNat n :: toLE w (n / 256)

@[simp] theorem length_toLE (w n : Nat) : (toLE w n).length = w := by
  induction w generalizing n with
  | zero => rfl
  | succ w ih => simp [toLE, ih]

theorem ofLE_toLE (w n : Nat) : ofLE (toLE w n) = n % 256 ^ w := by
  induction w generalizing n with
  | zero => simp [toLE, ofLE, Nat.mod_one]
  | succ w ih =>
    have hpow : 256 ^ (w + 1) = 256 * 256 ^ w := by rw [pow_succ, Nat.mul_comm]
    simp only [toLE, ofLE, ih, UInt8.toNat_ofNat', hpow]
    rw [Nat.mod_mul]

theorem ofLE_lt (bs : List UInt8) : ofLE bs < 256 ^ bs.length := by
  induction bs with
  | nil => exact Nat.one_pos
  | cons b bs ih =>
    have hb := b.toNat_lt
    rw [ofLE, List.length_cons, Nat.pow_succ]
    omega

theorem ofLE_injective : ∀ {xs ys : List UInt8}, xs.length = ys.length →
    ofLE xs = ofLE ys → xs = ys
  | [], [], _, _ => rfl
  | x :: xs, y :: ys, hlen, h => by
    have hx := x.toNat_lt
    have hy := y.toNat_lt
    simp only [ofLE] at h
    have hhead : x = y := UInt8.toNat_inj.mp (by omega)
    have htail : xs = ys := ofLE_injective (by simpa using hlen) (by omega)
    rw [hhead, htail]

/-! ## Bitmaps -/

/-- Bit `i` of an LSB-first bitmap; `none` past its end. -/
def getBit (bs : List UInt8) (i : Nat) : Option Bool :=
  bs[i / 8]?.map fun b => b.toNat.testBit (i % 8)

/-- Set bit `i`; `none` past the end. -/
def setBit (bs : List UInt8) (i : Nat) : Option (List UInt8) :=
  bs[i / 8]?.map fun b => bs.set (i / 8) (b ||| UInt8.ofNat (1 <<< (i % 8)))

theorem getBit_isSome {bs : List UInt8} {i : Nat} : (getBit bs i).isSome ↔ i / 8 < bs.length := by
  simp [getBit]

theorem setBit_isSome {bs : List UInt8} {i : Nat} : (setBit bs i).isSome ↔ i / 8 < bs.length := by
  simp [setBit]

theorem length_setBit {bs bs' : List UInt8} {i : Nat} (h : setBit bs i = some bs') :
    bs'.length = bs.length := by
  simp only [setBit, Option.map_eq_some_iff] at h
  obtain ⟨b, _, rfl⟩ := h
  simp

theorem testBit_or_one_shiftLeft (b : UInt8) {k : Nat} (hk : k < 8) (j : Nat) (_ : j < 8) :
    (b ||| UInt8.ofNat (1 <<< k)).toNat.testBit j = (decide (j = k) || b.toNat.testBit j) := by
  have hlt : 1 <<< k < 2 ^ 8 := by
    rw [Nat.one_shiftLeft]
    exact Nat.pow_lt_pow_right (by decide) hk
  rw [UInt8.toNat_or, UInt8.toNat_ofNat', Nat.mod_eq_of_lt hlt, Nat.testBit_or, Nat.one_shiftLeft,
    Nat.testBit_two_pow, Bool.or_comm]
  congr 1
  simp [eq_comm]

/-- Setting a bit sets that bit and no other. -/
theorem getBit_setBit {bs bs' : List UInt8} {i : Nat} (h : setBit bs i = some bs') (j : Nat) :
    getBit bs' j = if j = i then some true else getBit bs j := by
  simp only [setBit, Option.map_eq_some_iff] at h
  obtain ⟨b, hb, rfl⟩ := h
  have hlt : i / 8 < bs.length := by
    rw [List.getElem?_eq_some_iff] at hb
    exact hb.1
  unfold getBit
  by_cases hij : j / 8 = i / 8
  · rw [hij, List.getElem?_set_self hlt, hb]
    simp only [Option.map_some,
      testBit_or_one_shiftLeft b (Nat.mod_lt i (by decide)) _ (Nat.mod_lt j (by decide))]
    by_cases he : j = i
    · simp [he]
    · have : j % 8 ≠ i % 8 := by omega
      simp [he, this]
  · rw [List.getElem?_set_ne (fun h => hij h.symm)]
    have : j ≠ i := by rintro rfl; exact hij rfl
    simp [this]

/-- Set every position of a list, in order. -/
def setAll (bs : List UInt8) (ps : List Nat) : Option (List UInt8) := ps.foldlM setBit bs

/-- The set positions, in increasing order. -/
def setBits (bs : List UInt8) : List Nat :=
  (List.range (8 * bs.length)).filter fun i => getBit bs i == some true

theorem mem_setBits {bs : List UInt8} {i : Nat} : i ∈ setBits bs ↔ getBit bs i = some true := by
  simp only [setBits, List.mem_filter, List.mem_range, beq_iff_eq, and_iff_right_iff_imp]
  intro h
  have : i / 8 < bs.length := getBit_isSome.mp (by simp [h])
  omega

theorem sorted_setBits (bs : List UInt8) : (setBits bs).Pairwise (· < ·) :=
  List.Pairwise.filter _ List.pairwise_lt_range

theorem getBit_zeros (n i : Nat) : getBit (List.replicate n 0) i ≠ some true := by
  unfold getBit
  rw [List.getElem?_replicate]
  split <;> simp

theorem getBit_setAll {ps : List Nat} : ∀ {bs bs' : List UInt8}, setAll bs ps = some bs' →
    ∀ j, getBit bs' j = if j ∈ ps then some true else getBit bs j := by
  induction ps with
  | nil => intro bs bs' h j; simp [setAll] at h; simp [h]
  | cons p ps ih =>
    intro bs bs' h j
    simp only [setAll, List.foldlM_cons, Option.bind_eq_bind, Option.bind_eq_some_iff] at h
    obtain ⟨b1, h1, h2⟩ := h
    rw [ih h2 j, getBit_setBit h1 j]
    by_cases hj : j = p <;> by_cases hm : j ∈ ps <;> simp [hj, hm]

theorem length_setAll {ps : List Nat} : ∀ {bs bs' : List UInt8}, setAll bs ps = some bs' →
    bs'.length = bs.length := by
  induction ps with
  | nil => intro bs bs' h; simp [setAll] at h; simp [h]
  | cons p ps ih =>
    intro bs bs' h
    simp only [setAll, List.foldlM_cons, Option.bind_eq_bind, Option.bind_eq_some_iff] at h
    obtain ⟨b1, h1, h2⟩ := h
    rw [ih h2, length_setBit h1]

/-- Every position below the bitmap's capacity can be set. -/
theorem setAll_isSome {ps : List Nat} : ∀ {bs : List UInt8}, (∀ p ∈ ps, p / 8 < bs.length) →
    (setAll bs ps).isSome := by
  induction ps with
  | nil => intro bs _; simp [setAll]
  | cons p ps ih =>
    intro bs h
    obtain ⟨b1, h1⟩ := Option.isSome_iff_exists.mp (setBit_isSome.mpr (h p (by simp)))
    simp only [setAll, List.foldlM_cons, h1, Option.bind_eq_bind, Option.bind_some]
    refine ih fun q hq => ?_
    rw [length_setBit h1]
    exact h q (by simp [hq])

theorem mem_setBits_setAll {n : Nat} {ps : List Nat} {bs : List UInt8}
    (h : setAll (List.replicate n 0) ps = some bs) {i : Nat} : i ∈ setBits bs ↔ i ∈ ps := by
  rw [mem_setBits, getBit_setAll h i]
  split
  · rename_i hi; simp [hi]
  · rename_i hi; simp [hi, getBit_zeros]

/-- Strictly increasing positions are read back as given. -/
theorem setBits_setAll {n : Nat} {ps : List Nat} {bs : List UInt8}
    (h : setAll (List.replicate n 0) ps = some bs) (hs : ps.Pairwise (· < ·)) :
    setBits bs = ps := by
  refine List.Perm.eq_of_pairwise (fun a b _ _ h1 h2 => by omega) (sorted_setBits bs) hs ?_
  refine (List.perm_ext_iff_of_nodup ?_ ?_).mpr fun a => mem_setBits_setAll h
  · exact (sorted_setBits bs).imp fun hab => Nat.ne_of_lt hab
  · exact hs.imp fun hab => Nat.ne_of_lt hab

/-- The bits of a bitmap are those of a list, and clear behind it. -/
def Spells (bs : List UInt8) (bits : List Bool) : Prop :=
  ∀ j, j / 8 < bs.length → getBit bs j = some (bits.getD j false)

theorem spells_replicate (n : Nat) : Spells (List.replicate n 0) [] := by
  intro j hj
  rw [List.length_replicate] at hj
  unfold getBit
  rw [List.getElem?_replicate, if_pos hj]
  simp

/-- A set bit appended, stored when it is inside. -/
theorem Spells.push_true {bs : List UInt8} {bits : List Bool} (h : Spells bs bits) :
    Spells ((setBit bs bits.length).getD bs) (bits ++ [true]) := by
  have hbits : ∀ j, (bits ++ [true]).getD j false =
      if j = bits.length then true else bits.getD j false := by
    intro j
    simp only [List.getD_eq_getElem?_getD]
    rcases Nat.lt_trichotomy j bits.length with hj | rfl | hj
    · rw [List.getElem?_append_left hj, if_neg (by omega)]
    · simp
    · rw [List.getElem?_eq_none (by simp; omega), if_neg (by omega),
        List.getElem?_eq_none (by omega)]
  intro j hj
  cases hs : setBit bs bits.length with
  | none =>
    rw [hs, Option.getD_none] at hj
    have hout : ¬bits.length / 8 < bs.length := fun hlt => by
      rw [← setBit_isSome, hs] at hlt
      cases hlt
    have hne : j ≠ bits.length := by
      rintro rfl
      exact hout hj
    rw [Option.getD_none, h j hj, hbits, if_neg hne]
  | some bs' =>
    rw [hs, Option.getD_some, length_setBit hs] at hj
    rw [Option.getD_some, getBit_setBit hs, hbits]
    split
    · rfl
    · exact h j hj

/-- A clear bit appended. -/
theorem Spells.push_false {bs : List UInt8} {bits : List Bool} (h : Spells bs bits) :
    Spells bs (bits ++ [false]) := by
  intro j hj
  rw [h j hj]
  congr 1
  simp only [List.getD_eq_getElem?_getD]
  rcases Nat.lt_trichotomy j bits.length with hj | rfl | hj
  · rw [List.getElem?_append_left hj]
  · simp
  · rw [List.getElem?_eq_none (by omega), List.getElem?_eq_none (by simp; omega)]

/-! ## Pieces of one width -/

/-- Split into exactly `n` pieces of `w` bytes. -/
def pieces (w : Nat) : Nat → List UInt8 → Option (List (List UInt8))
  | 0, [] => some []
  | 0, _ :: _ => none
  | n + 1, bs => if w ≤ bs.length then (pieces w n (bs.drop w)).map (bs.take w :: ·) else none

theorem pieces_flatten {w : Nat} {vs : List (List UInt8)} (h : ∀ v ∈ vs, v.length = w) :
    pieces w vs.length vs.flatten = some vs := by
  induction vs with
  | nil => rfl
  | cons v vs ih =>
    have hv := h v List.mem_cons_self
    rw [List.length_cons, pieces, List.flatten_cons, if_pos (by rw [List.length_append]; omega),
      ← hv, List.drop_left, List.take_left, hv, ih fun u hu => h u (List.mem_cons_of_mem v hu)]
    rfl

theorem length_flatten {w : Nat} {vs : List (List UInt8)} (h : ∀ v ∈ vs, v.length = w) :
    vs.flatten.length = vs.length * w := by
  induction vs with
  | nil => simp
  | cons v vs ih =>
    rw [List.flatten_cons, List.length_append, h v List.mem_cons_self,
      ih fun u hu => h u (List.mem_cons_of_mem v hu), List.length_cons, Nat.succ_mul, Nat.add_comm]

/-- Piece `i` of a byte string. -/
def element (w : Nat) (bs : List UInt8) (i : Nat) : List UInt8 := (bs.drop (i * w)).take w

theorem length_element {w i : Nat} {bs : List UInt8} (h : (i + 1) * w ≤ bs.length) :
    (element w bs i).length = w := by
  unfold element
  rw [Nat.succ_mul] at h
  rw [List.length_take, List.length_drop]
  omega

/-- The first `n` pieces make up the first `n * w` bytes. -/
theorem flatten_elements {w n : Nat} {bs : List UInt8} (h : n * w ≤ bs.length) :
    ((List.range n).map (element w bs)).flatten = bs.take (n * w) := by
  induction n with
  | zero => simp
  | succ n ih =>
    rw [Nat.succ_mul] at h
    rw [List.range_succ, List.map_append, List.flatten_append, ih (by omega), Nat.succ_mul,
      List.take_add]
    simp [element]

/-- A piece lies behind those before it. -/
theorem take_drop_flatten {vs : List (List UInt8)} {v : List UInt8} {i : Nat}
    (h : vs[i]? = some v) : (vs.flatten.drop (vs.take i).flatten.length).take v.length = v := by
  obtain ⟨hi, hv⟩ := List.getElem?_eq_some_iff.mp h
  have hsplit : vs.flatten = (vs.take i).flatten ++ (v ++ (vs.drop (i + 1)).flatten) := by
    calc vs.flatten = (vs.take i ++ vs.drop i).flatten := by rw [List.take_append_drop]
      _ = (vs.take i).flatten ++ (vs.drop i).flatten := List.flatten_append
      _ = (vs.take i).flatten ++ (v ++ (vs.drop (i + 1)).flatten) := by
        rw [List.drop_eq_getElem_cons hi, List.flatten_cons, hv]
  rw [hsplit, List.drop_left, List.take_left]

/-- Piece `i` of pieces of one width. -/
theorem element_flatten {w i : Nat} {vs : List (List UInt8)} {v : List UInt8}
    (hw : ∀ u ∈ vs, u.length = w) (h : vs[i]? = some v) : element w vs.flatten i = v := by
  obtain ⟨hi, hv⟩ := List.getElem?_eq_some_iff.mp h
  have hlen : (vs.take i).flatten.length = i * w := by
    rw [length_flatten fun u hu => hw u (List.mem_of_mem_take hu), List.length_take,
      Nat.min_eq_left (by omega)]
  have hvw : v.length = w := hw v (hv ▸ List.getElem_mem hi)
  have hslice := take_drop_flatten h
  rw [hlen, hvw] at hslice
  exact hslice

end ByteSeq
