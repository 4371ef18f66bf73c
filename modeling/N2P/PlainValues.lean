import N2P.Lib.Outcome
import N2P.ValueReader

/-!
# Dense value bodies

`build_plain_fixed` and `build_plain_bool` store exactly the valid elements: the copy of a column
without a bitmap, the compaction of one with a bitmap, the widening of small integers and the
repacking of booleans.

* `widened_ok` — a widened integer is the integer the element spells, by its signedness.
* `buildPlainFixed_ok` — the body is the valid elements' stored bytes, one after the other.
* `packBits_ok`, `buildPlainBool_ok` — bit `j` of the body is the `j`-th valid boolean.
-/

namespace N2P

open Outcome

/-! ## Numbers -/

theorem length_leBytes (v : UInt32) : (leBytes v).length = 4 := rfl

theorem ofLE_leBytes (v : UInt32) : ByteSeq.ofLE (leBytes v) = v.toNat := by
  have h := v.toNat_lt
  have hand : ∀ n : Nat, n &&& 255 = n % 256 := fun n => Nat.and_two_pow_sub_one_eq_mod n 8
  have hff : (255 : UInt32).toNat = 255 := rfl
  have h8 : (8 : UInt32).toNat % 32 = 8 := rfl
  have h16 : (16 : UInt32).toNat % 32 = 16 := rfl
  have h24 : (24 : UInt32).toNat % 32 = 24 := rfl
  simp only [leBytes, ByteSeq.ofLE, UInt32.toNat_toUInt8, UInt32.toNat_and,
    UInt32.toNat_shiftRight, hff, h8, h16, h24, hand, Nat.shiftRight_eq_div_pow]
  omega

theorem ofLE_leSize {n : Nat} (h : n < 2 ^ 32) : ByteSeq.ofLE (leSize n) = n := by
  rw [leSize, ofLE_leBytes, UInt32.toNat_ofNat', Nat.mod_eq_of_lt h]

theorem signedLE_leBytes (v : UInt32) : signedLE (leBytes v) = v.toInt32.toInt := by
  rw [← Int32.toInt_toBitVec, UInt32.toBitVec_toInt32, BitVec.toInt_eq_toNat_bmod, signedLE,
    ofLE_leBytes, length_leBytes]
  rfl

theorem signedLE_singleton (b : UInt8) : signedLE [b] = b.toInt8.toInt := by
  rw [← Int8.toInt_toBitVec, UInt8.toBitVec_toInt8, BitVec.toInt_eq_toNat_bmod]
  simp [signedLE, ByteSeq.ofLE]

/-- The two bytes of a `uint16_t`, shifted together. -/
theorem toNat_pair (lo hi : UInt8) :
    (lo.toUInt16 ||| (hi.toUInt16 <<< 8)).toNat = ByteSeq.ofLE [lo, hi] := by
  have h1 := lo.toNat_lt
  have h2 := hi.toNat_lt
  have h8 : (8 : UInt16).toNat % 16 = 8 := rfl
  have hshift : hi.toNat <<< 8 % 2 ^ 16 = hi.toNat <<< 8 :=
    Nat.mod_eq_of_lt (by rw [Nat.shiftLeft_eq]; omega)
  rw [UInt16.toNat_or, UInt16.toNat_shiftLeft, UInt8.toNat_toUInt16, UInt8.toNat_toUInt16, h8,
    hshift, Nat.or_comm, ← Nat.shiftLeft_add_eq_or_of_lt (by omega), Nat.shiftLeft_eq]
  simp only [ByteSeq.ofLE]
  omega

theorem signedLE_pair (lo hi : UInt8) :
    signedLE [lo, hi] = (lo.toUInt16 ||| (hi.toUInt16 <<< 8)).toInt16.toInt := by
  rw [← Int16.toInt_toBitVec, UInt16.toBitVec_toInt16, BitVec.toInt_eq_toNat_bmod,
    UInt16.toNat_toBitVec, toNat_pair, signedLE]
  simp

theorem toInt_toInt32 {v : UInt32} (h : v.toNat < 2 ^ 31) : v.toInt32.toInt = v.toNat := by
  rw [← Int32.toInt_toBitVec, UInt32.toBitVec_toInt32, BitVec.toInt_eq_toNat_bmod,
    UInt32.toNat_toBitVec]
  exact Int.bmod_eq_of_le (by omega) (by omega)

theorem signedLE_bounds (bs : Bytes) :
    -(256 ^ bs.length : Int) ≤ 2 * signedLE bs ∧ 2 * signedLE bs < (256 ^ bs.length : Int) := by
  have hpos : 0 < 256 ^ bs.length := Nat.pow_pos (by decide)
  have h1 := Int.le_bmod (x := ByteSeq.ofLE bs) hpos
  have h2 := Int.bmod_lt (x := ByteSeq.ofLE bs) hpos
  unfold signedLE
  push_cast at *
  omega

/-! ## Valid rows -/

theorem toSize_length {n : Int} (h : 0 ≤ n ∧ n < 2 ^ 63) : toSize n = n.toNat :=
  toSize_of_nonneg h.1 (by omega)

theorem validBit_ok {validity : Option Bytes} {n i : Nat} (hv : ValidityOk validity n)
    (hi : i < n) : validBit validity i = .ok (rowValid validity i) := by
  cases validity with
  | none => rfl
  | some bm =>
    have hb := hv bm rfl
    have hget : (ByteSeq.getBit bm i).isSome := ByteSeq.getBit_isSome.mpr (by omega)
    obtain ⟨b, hb⟩ := Option.isSome_iff_exists.mp hget
    simp only [validBit, readBit, rowValid, hb]
    cases b <;> rfl

/-- Reads that succeed at the valid rows collect the valid rows' values. -/
theorem forValid_ok {α : Type} {validity : Option Bytes} {f : Nat → Except Fault α} {g : Nat → α}
    {is : List Nat} (hv : ∀ i ∈ is, validBit validity i = .ok (rowValid validity i))
    (hf : ∀ i ∈ is, rowValid validity i = true → f i = .ok (g i)) :
    forValid validity f is = .ok ((is.filter (rowValid validity)).map g) := by
  induction is with
  | nil => rfl
  | cons i is ih =>
    have hrest := ih (fun j hj => hv j (List.mem_cons_of_mem i hj))
      (fun j hj => hf j (List.mem_cons_of_mem i hj))
    rw [forValid, hv i List.mem_cons_self, List.filter_cons]
    cases hr : rowValid validity i with
    | false => simpa using hrest
    | true =>
      simp only [hf i List.mem_cons_self hr, hrest]
      rfl

theorem forValid_rows {α : Type} {validity : Option Bytes} {f : Nat → Except Fault α}
    {g : Nat → α} {n : Nat} (hv : ValidityOk validity n) (hf : ∀ i < n, f i = .ok (g i)) :
    forValid validity f (List.range n) = .ok ((validRows validity n).map g) :=
  forValid_ok (fun _ hi => validBit_ok hv (List.mem_range.mp hi))
    fun i hi _ => hf i (List.mem_range.mp hi)

theorem validRows_none (n : Nat) : validRows none n = List.range n := by
  unfold validRows
  exact List.filter_eq_self.mpr fun _ _ => rfl

theorem mem_validRows {validity : Option Bytes} {n i : Nat} (h : i ∈ validRows validity n) :
    i < n := List.mem_range.mp (List.mem_of_mem_filter h)

/-! ## Fixed-width bodies -/

/-- Bytes of one stored value of a fixed-width type: small integers are widened. -/
def ColumnKind.stored : ColumnKind → Nat
  | .narrow _ _ _ => 4
  | k => k.width

/-- The value stored bytes spell. -/
def ColumnKind.ofStored (k : ColumnKind) (bs : Bytes) : Value :=
  match k with
  | .int64 _ => .int64 (signedLE bs)
  | .float => .float (ByteSeq.ofLE bs)
  | .double => .double (ByteSeq.ofLE bs)
  | .fixed _ _ => .fixed bs
  | _ => .int32 (signedLE bs)

/-- Types `build_plain_fixed` writes. -/
def ColumnKind.isFixed : ColumnKind → Bool
  | .null => false
  | .bool => false
  | .bytes _ _ => false
  | _ => true

theorem readElem_ok {w i n : Nat} {bs : Bytes} (h : n * w ≤ bs.length) (hi : i < n) :
    readElem w bs i = .ok (ByteSeq.element w bs i) ∧ (ByteSeq.element w bs i).length = w := by
  have hle : (i + 1) * w ≤ bs.length := le_trans (Nat.mul_le_mul_right w (by omega)) h
  exact ⟨if_pos hle, ByteSeq.length_element hle⟩

/-- `append_widened` stores the integer the element spells. -/
theorem widened_ok {s : ColumnSpec} (hw : s.srcWidth = 1 ∨ s.srcWidth = 2) {src : Bytes} {n i : Nat}
    (hsrc : n * s.srcWidth ≤ src.length) (hi : i < n) :
    ∃ bs, widened s src i = .ok bs ∧ bs.length = 4 ∧
      signedLE bs = if s.signExtend then signedLE (ByteSeq.element s.srcWidth src i)
        else (ByteSeq.ofLE (ByteSeq.element s.srcWidth src i) : Int) := by
  obtain ⟨hread, hlen⟩ := readElem_ok hsrc hi
  unfold widened
  rcases hw with hw | hw
  · rw [hw] at hread hlen ⊢
    obtain ⟨b, hb⟩ := List.length_eq_one_iff.mp hlen
    have hlt : b.toUInt32.toNat < 2 ^ 31 := by
      have := b.toNat_lt
      rw [UInt8.toNat_toUInt32]
      omega
    rw [if_pos rfl, hread, hb]
    refine ⟨_, rfl, length_leBytes _, ?_⟩
    rw [signedLE_leBytes]
    cases s.signExtend with
    | true =>
      rw [if_pos rfl, if_pos rfl, signedLE_singleton, Int32.toInt32_toUInt32, Int8.toInt_toInt32]
    | false =>
      rw [if_neg Bool.false_ne_true, if_neg Bool.false_ne_true, toInt_toInt32 hlt,
        UInt8.toNat_toUInt32]
      simp [ByteSeq.ofLE]
  · rw [hw] at hread hlen ⊢
    obtain ⟨lo, hi, hb⟩ := List.length_eq_two.mp hlen
    have hlt : (lo.toUInt16 ||| (hi.toUInt16 <<< 8)).toUInt32.toNat < 2 ^ 31 := by
      have := (lo.toUInt16 ||| (hi.toUInt16 <<< 8)).toNat_lt
      rw [UInt16.toNat_toUInt32]
      omega
    rw [if_neg (by decide), hread, hb]
    refine ⟨_, rfl, length_leBytes _, ?_⟩
    rw [signedLE_leBytes]
    cases s.signExtend with
    | true =>
      rw [if_pos rfl, if_pos rfl, signedLE_pair, Int32.toInt32_toUInt32, Int16.toInt_toInt32]
    | false =>
      rw [if_neg Bool.false_ne_true, if_neg Bool.false_ne_true, toInt_toInt32 hlt,
        UInt16.toNat_toUInt32, toNat_pair]

/-- The stored bytes of the elements of a fixed-width array, and what they spell. -/
theorem storedElements {k : ColumnKind} (hk : k.isFixed = true) {name : String} {nullable : Bool}
    {arr : ArrowArray} (h : k.BuffersOk arr) :
    ∃ g : Nat → Bytes, ∀ i < arr.length.toNat, (g i).length = k.stored ∧
      k.ofStored (g i) = k.value arr i ∧
      match (k.spec name nullable).extract with
      | .memcpyFixed => g i = ByteSeq.element (k.spec name nullable).srcWidth (arr.bytes 1) i ∧
          (k.spec name nullable).srcWidth = k.width
      | _ => widened (k.spec name nullable) (arr.bytes 1) i = .ok (g i) := by
  have hsrc := h.elements
  cases k with
  | null => cases hk
  | bool => cases hk
  | bytes utf8 large => cases hk
  | narrow w signed hw =>
    refine ⟨fun i =>
      ((widened ((ColumnKind.narrow w signed hw).spec name nullable) (arr.bytes 1) i).toOption.getD
        []), fun i hi => ?_⟩
    obtain ⟨bs, hbs, hlen, hval⟩ :=
      widened_ok (s := (ColumnKind.narrow w signed hw).spec name nullable) hw hsrc hi
    dsimp only
    rw [hbs]
    refine ⟨hlen, ?_, rfl⟩
    show Value.int32 (signedLE bs) = _
    rw [hval]
    rfl
  | int32 unsigned =>
    exact ⟨ByteSeq.element 4 (arr.bytes 1), fun i hi => ⟨(readElem_ok hsrc hi).2, rfl, rfl, rfl⟩⟩
  | int64 unsigned =>
    exact ⟨ByteSeq.element 8 (arr.bytes 1), fun i hi => ⟨(readElem_ok hsrc hi).2, rfl, rfl, rfl⟩⟩
  | float =>
    exact ⟨ByteSeq.element 4 (arr.bytes 1), fun i hi => ⟨(readElem_ok hsrc hi).2, rfl, rfl, rfl⟩⟩
  | double =>
    exact ⟨ByteSeq.element 8 (arr.bytes 1), fun i hi => ⟨(readElem_ok hsrc hi).2, rfl, rfl, rfl⟩⟩
  | fixed width pos =>
    exact ⟨ByteSeq.element width (arr.bytes 1), fun i hi =>
      ⟨(readElem_ok hsrc hi).2, rfl, rfl, rfl⟩⟩

theorem ArrowArray.data_bytes {arr : ArrowArray} {j : Nat} (h : ∃ bs, arr.data j = .ok bs) :
    arr.data j = .ok (arr.bytes j) := by
  obtain ⟨bs, hbs⟩ := h
  unfold ArrowArray.bytes
  rw [hbs]

/-- **`build_plain_fixed` stores the valid elements**, by the copy and by the compaction. -/
theorem buildPlainFixed_ok {k : ColumnKind} (hk : k.isFixed = true) {name : String}
    {nullable : Bool} {arr : ArrowArray} (h : k.BuffersOk arr) {validity : Option Bytes}
    (hv : ValidityOk validity arr.length.toNat) :
    ∃ vs : List Bytes,
      buildPlainFixed arr (k.spec name nullable) validity = .ok vs.flatten ∧
      (∀ v ∈ vs, v.length = k.stored) ∧
      vs.map k.ofStored = (validRows validity arr.length.toNat).map (k.value arr) := by
  obtain ⟨g, hg⟩ := @storedElements k hk name nullable arr h
  have hne : k ≠ .null := by rintro rfl; cases hk
  refine ⟨(validRows validity arr.length.toNat).map g, ?_, ?_, ?_⟩
  · unfold buildPlainFixed
    simp only [ArrowArray.data_bytes (h.data hne), toSize_length h.length]
    cases he : (k.spec name nullable).extract with
    | memcpyFixed =>
      simp only [he] at hg
      have hmul : arr.length.toNat * (k.spec name nullable).srcWidth ≤ (arr.bytes 1).length := by
        by_cases h0 : arr.length.toNat = 0
        · simp [h0]
        · rw [(hg 0 (by omega)).2.2.2]
          exact h.elements
      have hread : ∀ i < arr.length.toNat,
          readElem (k.spec name nullable).srcWidth (arr.bytes 1) i = .ok (g i) := by
        intro i hi
        rw [(hg i hi).2.2.1]
        exact (readElem_ok hmul hi).1
      cases validity with
      | none =>
        dsimp only
        unfold readPrefix
        rw [if_pos hmul, validRows_none, ← ByteSeq.flatten_elements hmul]
        congr 2
        exact List.map_congr_left fun i hi => ((hg i (List.mem_range.mp hi)).2.2.1).symm
      | some bm =>
        dsimp only
        rw [forValid_rows hv hread]
        rfl
    | widenInt =>
      simp only [he] at hg
      dsimp only
      rw [forValid_rows hv fun i hi => (hg i hi).2.2]
      rfl
    | bool => cases k <;> simp_all [ColumnKind.spec, ColumnKind.isFixed]
    | byteArray => cases k <;> simp_all [ColumnKind.spec, ColumnKind.isFixed]
    | null => cases k <;> simp_all [ColumnKind.spec, ColumnKind.isFixed]
  · intro v hvs
    obtain ⟨i, hi, rfl⟩ := List.mem_map.mp hvs
    exact (hg i (mem_validRows hi)).1
  · rw [List.map_map]
    exact List.map_congr_left fun i hi => (hg i (mem_validRows hi)).2.1

/-! ## Booleans -/

/-- Bits packed so far: each can be read back, and the padding is clear. -/
structure Packed (bits : List Bool) (st : Bytes × Nat) : Prop where
  count : st.2 = bits.length
  length : st.1.length = (bits.length + 7) / 8
  stored : ∀ j (h : j < bits.length), ByteSeq.getBit st.1 j = some (bits.get ⟨j, h⟩)
  padding : ∀ j, bits.length ≤ j → ByteSeq.getBit st.1 j ≠ some true

theorem getBit_append_zero (bs : Bytes) (j : Nat) :
    ByteSeq.getBit (bs ++ [0]) j = if j < 8 * bs.length then ByteSeq.getBit bs j
      else if j < 8 * bs.length + 8 then some false else none := by
  unfold ByteSeq.getBit
  by_cases h1 : j < 8 * bs.length
  · rw [if_pos h1, List.getElem?_append_left (by omega)]
  · rw [if_neg h1, List.getElem?_append_right (by omega)]
    by_cases h2 : j < 8 * bs.length + 8
    · rw [if_pos h2, show j / 8 - bs.length = 0 by omega]
      simp
    · rw [if_neg h2, List.getElem?_eq_none (by simp; omega)]
      rfl

/-- Setting the bit in the last byte is setting that bit of the bitmap. -/
theorem setLast_eq {bs : Bytes} {j : Nat} (h : bs.length = j / 8 + 1) :
    ByteSeq.setBit bs j =
      some (bs.dropLast ++ [bs.getLastD 0 ||| UInt8.ofNat (1 <<< (j % 8))]) := by
  obtain ⟨l, b, rfl⟩ : ∃ l b, bs = l ++ [b] := by
    rcases List.eq_nil_or_concat bs with rfl | ⟨l, b, rfl⟩
    · simp at h
    · exact ⟨l, b, by simp⟩
  have hl : j / 8 = l.length := by
    rw [List.length_append, List.length_singleton] at h
    omega
  unfold ByteSeq.setBit
  rw [hl]
  simp

/-- One more bit. -/
theorem Packed.packBit {bits : List Bool} {st : Bytes × Nat} (h : Packed bits st) (bit : Bool) :
    Packed (bits ++ [bit]) (packBit st bit) := by
  obtain ⟨body, k⟩ := st
  obtain ⟨rfl, hlen, hbits, hpad⟩ := h
  dsimp only at hlen hbits hpad
  -- the body with room for the bit, every bit from there on clear
  let grown : Bytes := if bits.length % 8 = 0 then body ++ [0] else body
  have hgrown : grown.length = bits.length / 8 + 1 ∧
      (∀ j (hj : j < bits.length), ByteSeq.getBit grown j = some (bits.get ⟨j, hj⟩)) ∧
      (∀ j, bits.length ≤ j → ByteSeq.getBit grown j ≠ some true) := by
    dsimp only [grown]
    split
    · refine ⟨by rw [List.length_append, List.length_singleton]; omega, fun j hj => ?_,
        fun j hj => ?_⟩
      · rw [getBit_append_zero, if_pos (by omega), hbits j hj]
      · rw [getBit_append_zero, if_neg (by omega)]
        split <;> simp
    · exact ⟨by omega, hbits, hpad⟩
  obtain ⟨hglen, hgbits, hgpad⟩ := hgrown
  have hget : ∀ bs' : Bytes, bs'.length = grown.length →
      (∀ j, ByteSeq.getBit bs' j =
        if j = bits.length then some bit else ByteSeq.getBit grown j) →
      Packed (bits ++ [bit]) (bs', bits.length + 1) := by
    intro bs' hlen' hbit'
    refine ⟨by simp, ?_, fun j hj => ?_, fun j hj => ?_⟩
    · show bs'.length = _
      rw [List.length_append, List.length_singleton]
      omega
    · rw [List.length_append, List.length_singleton] at hj
      rw [hbit' j]
      by_cases hlast : j = bits.length
      · subst hlast
        simp
      · rw [if_neg hlast, hgbits j (by omega)]
        simp [List.getElem_append_left (show j < bits.length by omega)]
    · rw [List.length_append, List.length_singleton] at hj
      rw [hbit' j, if_neg (by omega)]
      exact hgpad j (by omega)
  cases bit with
  | true =>
    have hset := setLast_eq hglen
    refine hget _ (ByteSeq.length_setBit hset) fun j => ?_
    exact ByteSeq.getBit_setBit hset j
  | false =>
    refine hget grown rfl fun j => ?_
    split
    · rename_i hj
      subst hj
      obtain ⟨b, hb⟩ := Option.isSome_iff_exists.mp
        (ByteSeq.getBit_isSome.mpr (show bits.length / 8 < grown.length by omega))
      cases b with
      | true => exact absurd hb (hgpad _ (le_refl _))
      | false => exact hb
    · rfl

theorem packBits_ok (bits : List Bool) : Packed bits (bits.foldl packBit ([], 0)) := by
  apply Outcome.foldl_after fun done st bit h => h.packBit bit
  exact ⟨rfl, rfl, fun j h => absurd h (Nat.not_lt_zero j), fun j _ => by simp [ByteSeq.getBit]⟩

theorem readBooleans_ok {bits : List Bool} {bs : Bytes} (hlen : bs.length = (bits.length + 7) / 8)
    (h : ∀ j (hj : j < bits.length), ByteSeq.getBit bs j = some (bits.get ⟨j, hj⟩)) :
    readBooleans bits.length bs = some bits := by
  unfold readBooleans
  rw [if_pos hlen, Outcome.mapM_eq_map (g := fun j => bits.getD j false)]
  · congr 1
    refine List.ext_getElem (by simp) fun j h1 h2 => ?_
    simp [List.getD_eq_getElem?_getD, List.getElem?_eq_getElem h2]
  · intro j hj
    have hj := List.mem_range.mp hj
    rw [h j hj]
    simp [List.getD_eq_getElem?_getD, List.getElem?_eq_getElem hj]

/-- **`build_plain_bool` packs the valid bits.** -/
theorem buildPlainBool_ok {arr : ArrowArray} (h : ColumnKind.bool.BuffersOk arr)
    {validity : Option Bytes} (hv : ValidityOk validity arr.length.toNat) :
    ∃ body bits, buildPlainBool arr validity = .ok body ∧
      readBooleans bits.length body = some bits ∧
      bits.map Value.boolean =
        (validRows validity arr.length.toNat).map (ColumnKind.bool.value arr) := by
  have hn := h.length
  have hbits := h.bits rfl
  let bit (i : Nat) : Bool := (ByteSeq.getBit (arr.bytes 1) i).getD false
  have hget : ∀ i < arr.length.toNat, ByteSeq.getBit (arr.bytes 1) i = some (bit i) := by
    intro i hi
    obtain ⟨b, hb⟩ := Option.isSome_iff_exists.mp
      (ByteSeq.getBit_isSome.mpr (show i / 8 < (arr.bytes 1).length by omega))
    dsimp only [bit]
    rw [hb]
    rfl
  have hread : ∀ i < arr.length.toNat, readBit (arr.bytes 1) i = .ok (bit i) := by
    intro i hi
    unfold readBit
    rw [hget i hi]
  unfold buildPlainBool
  simp only [ArrowArray.data_bytes (h.data (by simp)), toSize_length h.length]
  cases validity with
  | none =>
    have hmod : (arr.length.toNat + 7) % 2 ^ 64 / 8 = (arr.length.toNat + 7) / 8 := by omega
    have hle : (arr.length.toNat + 7) / 8 ≤ (arr.bytes 1).length := by omega
    refine ⟨(arr.bytes 1).take ((arr.length.toNat + 7) / 8),
      (List.range arr.length.toNat).map bit, ?_, ?_, ?_⟩
    · dsimp only
      unfold readPrefix
      rw [hmod, if_pos hle]
    · refine readBooleans_ok (by simp; omega) fun j hj => ?_
      rw [List.length_map, List.length_range] at hj
      have htake : ByteSeq.getBit ((arr.bytes 1).take ((arr.length.toNat + 7) / 8)) j =
          ByteSeq.getBit (arr.bytes 1) j := by
        unfold ByteSeq.getBit
        rw [List.getElem?_take_of_lt (by omega)]
      rw [htake, hget j hj]
      simp
    · rw [validRows_none, List.map_map]
      rfl
  | some bm =>
    dsimp only
    rw [forValid_rows hv hread]
    have hp := packBits_ok ((validRows (some bm) arr.length.toNat).map bit)
    refine ⟨_, (validRows (some bm) arr.length.toNat).map bit, rfl,
      readBooleans_ok hp.length hp.stored, ?_⟩
    rw [List.map_map]
    rfl

end N2P
