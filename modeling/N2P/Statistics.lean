import N2P.Lib.Extremes
import N2P.StoredCounts
import N2P.StringSizes
import N2P.ValuePages

/-!
# Chunk statistics

What `fixed_stats` and `build_byte_array_pages` record about a chunk, against the values its data
page stores.

* `ColumnKind.le` — the order of a column's values: signed, unsigned, IEEE, or bytewise.
* `fixedStats_exact`, `chunkStats_exact` — the recorded bounds are the extremes of the stored
  values, whatever the type, the validity and the encoding mode.
* `dictionaryStats_eq` — the distinct values have the statistics of all the rows.
* `statistics_exact` — null counts and bounds of every recorded chunk.
-/

namespace N2P

open Outcome

/-! ## Orders -/

/-- A floating-point number by its bits.  A NaN has no place in the order; the zeros share one. -/
def floatKey (exponent mantissa bits : Nat) : Option Int :=
  let magnitude := bits % 2 ^ (exponent + mantissa)
  if (2 ^ exponent - 1) * 2 ^ mantissa < magnitude then none
  else some (if bits.testBit (exponent + mantissa) then -magnitude else magnitude)

/-- IEEE `<=`: false when either side is a NaN. -/
def floatLe (exponent mantissa a b : Nat) : Bool :=
  match floatKey exponent mantissa a, floatKey exponent mantissa b with
  | some x, some y => x ≤ y
  | _, _ => false

/-- Unsigned bytewise comparison, a prefix first. -/
def bytewiseLe (a b : Bytes) : Bool := a.map UInt8.toNat ≤ b.map UInt8.toNat

/-- The order of the elements `compute_stats` compares. -/
def StatType.le (t : StatType) (a b : Int) : Bool :=
  match t with
  | .float => floatLe 8 23 (a % 2 ^ 32).toNat (b % 2 ^ 32).toNat
  | .double => floatLe 11 52 (a % 2 ^ 64).toNat (b % 2 ^ 64).toNat
  | _ => a ≤ b

/-- `compute_stats` and `compute_binary_stats` return the minimum and maximum of the valid values
    they are given. -/
structure External.ExactStats (X : External) : Prop where
  computeStats : ∀ (t : StatType) (elems : List Int) (validity : Option Bytes),
    ValidityOk validity elems.length →
    Extremes (fun a b => t.le a b) (validElements elems validity) (X.computeStats t elems validity)
  computeBinaryStats : ∀ vs : List Bytes,
    Extremes (fun a b => bytewiseLe a b) vs (X.computeBinaryStats vs)

/-- UINT_8 to UINT_64. -/
def ColumnKind.unsigned : ColumnKind → Bool
  | .narrow _ signed _ => !signed
  | .int32 unsigned => unsigned
  | .int64 unsigned => unsigned
  | _ => false

/-- The type-defined order of a column's values. -/
def ColumnKind.le (k : ColumnKind) : Value → Value → Bool
  | .boolean a, .boolean b => !a || b
  | .int32 a, .int32 b => if k.unsigned then a % 2 ^ 32 ≤ b % 2 ^ 32 else a ≤ b
  | .int64 a, .int64 b => if k.unsigned then a % 2 ^ 64 ≤ b % 2 ^ 64 else a ≤ b
  | .float a, .float b => floatLe 8 23 a b
  | .double a, .double b => floatLe 11 52 a b
  | .byteArray a, .byteArray b => bytewiseLe a b
  | .fixed a, .fixed b => bytewiseLe a b
  | _, _ => false

/-- A value's PLAIN bytes; a byte string without its length. -/
def Value.plain : Value → Bytes
  | .boolean b => [if b then 1 else 0]
  | .int32 v => ByteSeq.toLE 4 (v % 256 ^ 4).toNat
  | .int64 v => ByteSeq.toLE 8 (v % 256 ^ 8).toNat
  | .float bits => ByteSeq.toLE 4 bits
  | .double bits => ByteSeq.toLE 8 bits
  | .byteArray bytes => bytes
  | .fixed bytes => bytes

/-- The bounds are the PLAIN bytes of a smallest and a largest of these values. -/
def Bounds (k : ColumnKind) (values : List Value) (minMax : MinMax) : Prop :=
  ∃ m, minMax = m.map (fun p => (p.1.plain, p.2.plain)) ∧ Extremes (fun a b => k.le a b) values m

/-! ## Typed elements -/

/-- Element `i` of a buffer of this type. -/
def StatType.element (t : StatType) (src : Bytes) (i : Nat) : Int :=
  let e := ByteSeq.element t.layout.1 src i
  if t.layout.2.1 then signedLE e else ByteSeq.ofLE e

theorem chunks_readPrefix {w n i : Nat} (src : Bytes) (hi : i < n) :
    ((src.take (n * w)).drop (i * w)).take w = ByteSeq.element w src i := by
  have hle : (i + 1) * w ≤ n * w := Nat.mul_le_mul_right w hi
  rw [Nat.succ_mul] at hle
  unfold ByteSeq.element
  rw [List.drop_take, List.take_take, Nat.min_eq_left (by omega)]

/-- The valid elements are those of the valid rows. -/
theorem validElements_map {n : Nat} (e : Nat → Int) (validity : Option Bytes) :
    validElements ((List.range n).map e) validity = (validRows validity n).map e := by
  unfold validElements
  rw [List.length_map, List.length_range, ← List.filterMap_eq_map]
  apply List.filterMap_congr
  intro i hi
  simp [mem_validRows hi]

/-- `compute_stats` over a buffer of `n` elements. -/
theorem typedStats_exact {X : External} (hX : X.ExactStats) {t : StatType} {src : Bytes} {n : Nat}
    (hsrc : n * t.layout.1 ≤ src.length) {validity : Option Bytes} (hv : ValidityOk validity n) :
    ∃ m, typedStats X t src n validity =
        .ok (m.map fun p => (plainBytes t.layout.2.2 p.1, plainBytes t.layout.2.2 p.2)) ∧
      Extremes (fun a b => t.le a b) ((validRows validity n).map (t.element src)) m := by
  have helems : (chunks t.layout.1 n (src.take (n * t.layout.1))).map
      (fun b => if t.layout.2.1 then signedLE b else (ByteSeq.ofLE b : Int)) =
      (List.range n).map (t.element src) := by
    unfold chunks
    rw [List.map_map]
    apply List.map_congr_left
    intro i hi
    simp only [Function.comp_apply]
    rw [chunks_readPrefix src (List.mem_range.mp hi)]
    rfl
  have hstats := hX.computeStats t ((List.range n).map (t.element src)) validity
    (by simpa using hv)
  rw [validElements_map] at hstats
  refine ⟨_, ?_, hstats⟩
  unfold typedStats readPrefix
  dsimp only
  rw [if_pos hsrc]
  dsimp only
  rw [helems]

/-- The stored value an element stands for. -/
def StatType.toValue : StatType → Int → Value
  | .uint32, v => .int32 (v.bmod (2 ^ 32))
  | .int64, v => .int64 v
  | .uint64, v => .int64 (v.bmod (2 ^ 64))
  | .float, v => .float (v % 2 ^ 32).toNat
  | .double, v => .double (v % 2 ^ 64).toNat
  | _, v => .int32 v

/-- Elements of the unsigned types are not negative. -/
def StatType.InRange (t : StatType) (v : Int) : Prop :=
  match t with
  | .uint8 => 0 ≤ v ∧ v < 2 ^ 32
  | .uint16 => 0 ≤ v ∧ v < 2 ^ 32
  | .uint32 => 0 ≤ v ∧ v < 2 ^ 32
  | .uint64 => 0 ≤ v ∧ v < 2 ^ 64
  | _ => True

theorem StatType.inRange_element (t : StatType) (src : Bytes) (i : Nat) :
    t.InRange (t.element src i) := by
  have hlen : (ByteSeq.element t.layout.1 src i).length ≤ t.layout.1 := by
    unfold ByteSeq.element
    rw [List.length_take]
    exact Nat.min_le_left _ _
  have hlt : ByteSeq.ofLE (ByteSeq.element t.layout.1 src i) < 256 ^ t.layout.1 :=
    Nat.lt_of_lt_of_le (ByteSeq.ofLE_lt _) (Nat.pow_le_pow_right (by decide) hlen)
  unfold StatType.InRange StatType.element
  cases t <;> simp only [StatType.layout] at hlt ⊢ <;> simp <;> omega

/-- Comparable both ways means equal, but for floating point, where any number is in range. -/
theorem StatType.inRange_equiv (t : StatType) (x y : Int) (hxy : t.le x y = true)
    (hyx : t.le y x = true) (h : t.InRange x) : t.InRange y := by
  have hint : (∀ a b, t.le a b = decide (a ≤ b)) → t.InRange y := by
    intro hle
    rw [hle, decide_eq_true_iff] at hxy hyx
    rwa [← Int.le_antisymm hxy hyx]
  cases t with
  | float => trivial
  | double => trivial
  | _ => exact hint fun _ _ => rfl

theorem StatType.plain_toValue (t : StatType) (v : Int) :
    (t.toValue v).plain = plainBytes t.layout.2.2 v := by
  have hbmod : ∀ m : Nat, v.bmod m % (m : Int) = v % (m : Int) := fun m => Int.bmod_emod
  have h32 := hbmod (2 ^ 32)
  have h64 := hbmod (2 ^ 64)
  cases t with
  | uint32 =>
    show ByteSeq.toLE 4 (v.bmod (2 ^ 32) % 256 ^ 4).toNat = ByteSeq.toLE 4 (v % 256 ^ 4).toNat
    congr 2
  | uint64 =>
    show ByteSeq.toLE 8 (v.bmod (2 ^ 64) % 256 ^ 8).toNat = ByteSeq.toLE 8 (v % 256 ^ 8).toNat
    congr 2
  | _ => rfl

/-- The value at a row is its element's. -/
theorem TypedKind.value_toValue {k : ColumnKind} {t : StatType} (hk : TypedKind k t)
    {arr : ArrowArray} (h : k.BuffersOk arr) {i : Nat} (hi : i < arr.length.toNat) :
    k.value arr i = t.toValue (t.element (arr.bytes 1) i) := by
  have hsrc := h.elements
  obtain ⟨_, hlen⟩ := readElem_ok hsrc hi
  have hlt := ByteSeq.ofLE_lt (ByteSeq.element k.width (arr.bytes 1) i)
  rw [hlen] at hlt
  cases hk with
  | uint32 =>
    show Value.int32 (signedLE (ByteSeq.element 4 (arr.bytes 1) i)) = _
    unfold signedLE
    rw [show (ByteSeq.element 4 (arr.bytes 1) i).length = 4 from hlen]
    rfl
  | uint64 =>
    show Value.int64 (signedLE (ByteSeq.element 8 (arr.bytes 1) i)) = _
    unfold signedLE
    rw [show (ByteSeq.element 8 (arr.bytes 1) i).length = 8 from hlen]
    rfl
  | float =>
    have hlt : ByteSeq.ofLE (ByteSeq.element 4 (arr.bytes 1) i) < 256 ^ 4 := hlt
    show Value.float _ = Value.float (((ByteSeq.ofLE _ : Nat) : Int) % 2 ^ 32).toNat
    congr 1
    show _ = ((ByteSeq.ofLE (ByteSeq.element 4 (arr.bytes 1) i) : Int) % 2 ^ 32).toNat
    omega
  | double =>
    have hlt : ByteSeq.ofLE (ByteSeq.element 8 (arr.bytes 1) i) < 256 ^ 8 := hlt
    show Value.double _ = Value.double (((ByteSeq.ofLE _ : Nat) : Int) % 2 ^ 64).toNat
    congr 1
    show _ = ((ByteSeq.ofLE (ByteSeq.element 8 (arr.bytes 1) i) : Int) % 2 ^ 64).toNat
    omega
  | _ => rfl

/-- The order of the stored values is the order of the elements. -/
theorem TypedKind.le_toValue {k : ColumnKind} {t : StatType} (hk : TypedKind k t) (x y : Int)
    (hx : t.InRange x) (hy : t.InRange y) :
    k.le (t.toValue x) (t.toValue y) = true ↔ t.le x y = true := by
  -- an unsigned element is its own remainder
  have hmod : ∀ m : Int, 0 ≤ x ∧ x < m → 0 ≤ y ∧ y < m → (x % m ≤ y % m ↔ x ≤ y) := by
    intro m hx hy
    rw [Int.emod_eq_of_lt hx.1 hx.2, Int.emod_eq_of_lt hy.1 hy.2]
  cases hk with
  | uint8 =>
    simpa [ColumnKind.le, ColumnKind.unsigned, StatType.toValue, StatType.le] using hmod _ hx hy
  | uint16 =>
    simpa [ColumnKind.le, ColumnKind.unsigned, StatType.toValue, StatType.le] using hmod _ hx hy
  | uint32 =>
    have hbmod : ∀ v : Int, v.bmod (2 ^ 32) % 2 ^ 32 = v % 2 ^ 32 := fun v => Int.bmod_emod
    show decide (x.bmod (2 ^ 32) % 2 ^ 32 ≤ y.bmod (2 ^ 32) % 2 ^ 32) = true ↔ decide (x ≤ y) = true
    rw [decide_eq_true_iff, decide_eq_true_iff, hbmod, hbmod]
    exact hmod (2 ^ 32) hx hy
  | uint64 =>
    have hbmod : ∀ v : Int, v.bmod (2 ^ 64) % 2 ^ 64 = v % 2 ^ 64 := fun v => Int.bmod_emod
    show decide (x.bmod (2 ^ 64) % 2 ^ 64 ≤ y.bmod (2 ^ 64) % 2 ^ 64) = true ↔ decide (x ≤ y) = true
    rw [decide_eq_true_iff, decide_eq_true_iff, hbmod, hbmod]
    exact hmod (2 ^ 64) hx hy
  | _ => rfl

/-! ## Booleans -/

/-- The bounds of booleans, from which values there are. -/
theorem bounds_boolean (bits : List Bool) :
    Bounds .bool (bits.map Value.boolean)
      (if bits.contains true || bits.contains false then
        some ([if bits.contains false then 0 else 1], [if bits.contains true then 1 else 0])
      else none) := by
  have hmem : ∀ b : Bool, bits.contains b = true ↔ b ∈ bits := fun b => List.contains_iff_mem
  have hno : ∀ b : Bool, bits.contains b = false → b ∉ bits := by
    intro b h hb
    rw [(hmem b).mpr hb] at h
    cases h
  cases ht : bits.contains true with
  | false =>
    have ht' := hno true ht
    cases hf : bits.contains false with
    | false =>
      have hf' := hno false hf
      refine ⟨none, rfl, fun v hv => ?_⟩
      obtain ⟨b, hb, rfl⟩ := List.mem_map.mp hv
      cases b
      · exact absurd hb hf'
      · exact absurd hb ht'
    | true =>
      have hf' := (hmem false).mp hf
      have hall : ∀ b ∈ bits, b = false := by
        intro b hb
        cases b
        · rfl
        · exact absurd hb ht'
      refine ⟨some (.boolean false, .boolean false), rfl,
        ⟨⟨_, List.mem_map_of_mem hf', rfl, rfl⟩, ?_⟩, ⟨_, List.mem_map_of_mem hf', rfl, rfl⟩, ?_⟩
      · intro v hv _
        obtain ⟨b, hb, rfl⟩ := List.mem_map.mp hv
        rfl
      · intro v hv _
        obtain ⟨b, hb, rfl⟩ := List.mem_map.mp hv
        rw [hall b hb]
        rfl
  | true =>
    have ht' := (hmem true).mp ht
    have hhigh : ∀ v ∈ bits.map Value.boolean, ColumnKind.bool.le v (.boolean true) = true := by
      intro v hv
      obtain ⟨b, _, rfl⟩ := List.mem_map.mp hv
      cases b <;> rfl
    cases hf : bits.contains false with
    | false =>
      have hf' := hno false hf
      refine ⟨some (.boolean true, .boolean true), rfl,
        ⟨⟨_, List.mem_map_of_mem ht', rfl, rfl⟩, ?_⟩, ⟨_, List.mem_map_of_mem ht', rfl, rfl⟩,
        fun v hv _ => hhigh v hv⟩
      intro v hv _
      obtain ⟨b, hb, rfl⟩ := List.mem_map.mp hv
      cases b
      · exact absurd hb hf'
      · rfl
    | true =>
      have hf' := (hmem false).mp hf
      refine ⟨some (.boolean false, .boolean true), rfl,
        ⟨⟨_, List.mem_map_of_mem hf', rfl, rfl⟩, ?_⟩, ⟨_, List.mem_map_of_mem ht', rfl, rfl⟩,
        fun v hv _ => hhigh v hv⟩
      intro v hv _
      obtain ⟨b, _, rfl⟩ := List.mem_map.mp hv
      rfl

/-! ## The bounds of a chunk -/

/-- Byte strings keep their order as values. -/
theorem bounds_bytes {X : External} (hX : X.ExactStats) {k : ColumnKind} {f : Bytes → Value}
    (hplain : ∀ v, (f v).plain = v) (hle : ∀ a b, k.le (f a) (f b) = bytewiseLe a b)
    (vs : List Bytes) : Bounds k (vs.map f) (X.computeBinaryStats vs) := by
  have hext : Extremes (fun a b => k.le a b) (vs.map f)
      ((X.computeBinaryStats vs).map fun p => (f p.1, f p.2)) :=
    (hX.computeBinaryStats vs).map (fun _ => True) (fun _ _ => trivial) (fun _ _ _ _ _ => trivial)
      fun a b _ _ => by rw [hle]
  refine ⟨_, ?_, hext⟩
  cases X.computeBinaryStats vs with
  | none => rfl
  | some p => simp [hplain]

/-- **`fixed_stats` bounds exactly the stored values.** -/
theorem fixedStats_exact {X : External} (hX : X.ExactStats) {k : ColumnKind}
    (hk : ∀ utf8 large, k ≠ .bytes utf8 large) {name : String} {nullable : Bool} {arr : ArrowArray}
    (h : k.BuffersOk arr) {validity : Option Bytes} (hv : ValidityOk validity arr.length.toNat) :
    ∃ m, fixedStats X arr (k.spec name nullable) validity = .ok m ∧
      Bounds k (k.values arr validity) m := by
  have hsrc := h.elements
  have typed : ∀ t, TypedKind k t →
      k.values arr validity = (validRows validity arr.length.toNat).map (k.value arr) →
      ∃ m, fixedStats X arr (k.spec name nullable) validity = .ok m ∧
        Bounds k (k.values arr validity) m := by
    intro t ht hvalues
    have hwidth := ht.width
    rw [fixedStats_typed X ht h]
    obtain ⟨m, hm, hext⟩ := @typedStats_exact X hX t (arr.bytes 1) arr.length.toNat
      (by rw [hwidth]; exact hsrc) validity hv
    refine ⟨_, hm, m.map fun p => (t.toValue p.1, t.toValue p.2), ?_, ?_⟩
    · cases m with
      | none => rfl
      | some p => simp [StatType.plain_toValue]
    · have hrows : k.values arr validity = ((validRows validity arr.length.toNat).map
          (t.element (arr.bytes 1))).map t.toValue := by
        rw [hvalues, List.map_map]
        apply List.map_congr_left
        intro i hi
        exact ht.value_toValue h (mem_validRows hi)
      rw [hrows]
      refine hext.map t.InRange (fun v hv => ?_) t.inRange_equiv ht.le_toValue
      obtain ⟨i, _, rfl⟩ := List.mem_map.mp hv
      exact t.inRange_element (arr.bytes 1) i
  cases k with
  | null => exact ⟨none, rfl, none, rfl, Extremes.nil⟩
  | bool =>
    have hvalues : ColumnKind.bool.values arr validity =
        (arr.validBits validity).map Value.boolean := by
      unfold ArrowArray.validBits
      rw [List.map_map]
      rfl
    rw [hvalues]
    exact ⟨_, fixedStats_bool X h hv, bounds_boolean _⟩
  | fixed width pos =>
    have hvalues : (ColumnKind.fixed width pos).values arr validity =
        ((validRows validity arr.length.toNat).map (ByteSeq.element width (arr.bytes 1))).map
          Value.fixed := by
      rw [List.map_map]
      rfl
    rw [hvalues]
    exact ⟨_, fixedStats_fixed X h hv, bounds_bytes hX (fun _ => rfl) (fun _ _ => rfl) _⟩
  | bytes utf8 large => exact absurd rfl (hk utf8 large)
  | narrow w signed hw => exact typed _ (ColumnKind.typedKind rfl) rfl
  | int32 unsigned => exact typed _ (ColumnKind.typedKind rfl) rfl
  | int64 unsigned => exact typed _ (ColumnKind.typedKind rfl) rfl
  | float => exact typed _ (ColumnKind.typedKind rfl) rfl
  | double => exact typed _ (ColumnKind.typedKind rfl) rfl

theorem bytewiseLe_antisymm (a b : Bytes) (hab : bytewiseLe a b = true)
    (hba : bytewiseLe b a = true) : a = b := by
  unfold bytewiseLe at hab hba
  rw [decide_eq_true_iff] at hab hba
  have heq : a.map UInt8.toNat = b.map UInt8.toNat := le_antisymm hab hba
  exact List.map_injective_iff.mpr (fun x y h => UInt8.toNat_inj.mp h) heq

/-- **The distinct values have the statistics of all the rows.** -/
theorem dictionaryStats_eq {X : External} (hX : X.ExactStats) (hdict : X.Distinct)
    (present : List Bytes) :
    X.computeBinaryStats (X.dictionaryValues (indexAll X X.emptyDictionary present).2) =
      X.computeBinaryStats present := by
  have hin := internAll_spec hdict present
  apply Extremes.unique bytewiseLe_antisymm
  · exact (hX.computeBinaryStats _).congr_mem hin.entries
  · exact hX.computeBinaryStats present

/-- In every mode the statistics are those of the present values. -/
theorem byteArrayPages_stats {X : External} (hX : X.ExactStats) (hdict : X.Distinct)
    {present : List Bytes} {mode : Nat} {p : ByteArrayPages}
    (h : byteArrayPages X present mode = .ok p) : p.stats = X.computeBinaryStats present := by
  have heq := dictionaryStats_eq hX hdict present
  unfold byteArrayPages at h
  dsimp only at h
  split at h
  · cases h
    rfl
  split at h
  · split at h
    · cases h
    · cases h
      rfl
  split at h
  · cases h
    exact heq
  · cases h
    exact heq

/-- **The bounds recorded with a chunk's bodies are those of its stored values.** -/
theorem chunkStats_exact {X : External} (hX : X.ExactStats) (hdict : X.Distinct) {k : ColumnKind}
    {name : String} {nullable : Bool} {arr : ArrowArray} (h : k.BuffersOk arr)
    {validity : Option Bytes} (hv : ValidityOk validity arr.length.toNat) {mode : Nat}
    {b : ChunkBodies} (hb : chunkBodies X arr (k.spec name nullable) validity mode = .ok b) :
    Bounds k (k.values arr validity) b.stats := by
  by_cases hk : ∃ utf8 large, k = .bytes utf8 large
  · obtain ⟨utf8, large, rfl⟩ := hk
    unfold chunkBodies at hb
    have hs : ((ColumnKind.bytes utf8 large).spec name nullable).extract = .byteArray := rfl
    rw [if_pos hs, buildByteArrayPages_eq X h hv mode] at hb
    obtain ⟨p, hp, rfl⟩ := map_eq_ok.mp hb
    have hstats := byteArrayPages_stats hX hdict hp
    have hvalues : (ColumnKind.bytes utf8 large).values arr validity =
        (byteStrings large arr validity).map Value.byteArray := by
      unfold byteStrings
      rw [List.map_map]
      rfl
    have hbounds := bounds_bytes (k := .bytes utf8 large) hX (f := Value.byteArray) (fun _ => rfl)
      (fun _ _ => rfl) (byteStrings large arr validity)
    rw [hvalues]
    rw [← hstats] at hbounds
    split
    · exact hbounds
    · exact hbounds
  · have hne : ∀ utf8 large, k ≠ .bytes utf8 large := fun utf8 large heq => hk ⟨utf8, large, heq⟩
    obtain ⟨m, hm, hbounds⟩ := @fixedStats_exact X hX k hne name nullable arr h validity hv
    have hs : (k.spec name nullable).extract ≠ .byteArray := by
      cases k <;> first | exact absurd rfl (hne _ _) | simp [ColumnKind.spec]
    unfold chunkBodies at hb
    rw [if_neg hs, hm] at hb
    obtain ⟨v, _, rfl⟩ := map_eq_ok.mp hb
    exact hbounds

/-! ## Recorded chunks -/

/-- What a chunk records about the values its data page stores. -/
structure ExactStatistics (X : External) (k : ColumnKind) (x : Chunk) (values : List Value) :
    Prop where
  /-- The data page stores these values, behind as many level entries as its header says. -/
  stored : ∃ hdr, x.pages.data.header.dataPageHeader = some hdr ∧
    x.entry.nullCount = (hdr.numValues : Int) - values.length ∧
    x.pages.data.body = x.inp.levels ++ x.bodies.values ∧
    ∀ D : Decoders, D.Inverts X → readValues D x.leaf.col.type x.leaf.col.typeLength values.length
      (x.pages.dict.bind Page.dictionary) hdr.encoding x.bodies.values = some values
  /-- There are bounds exactly when a stored value is comparable. -/
  recorded : x.entry.minMax.isSome ↔ ∃ v ∈ values, k.le v v
  bounds : Bounds k values x.entry.minMax
  /-- The null type has no values, so no bounds. -/
  nullType : k = .null → values = [] ∧ x.entry.minMax = none
  /-- The statistics of the distinct strings are those of all the rows. -/
  dictionary : ∀ present, presentStrings x.inp.arr x.leaf.col x.inp.validity = .ok present →
    X.computeBinaryStats (X.dictionaryValues (indexAll X X.emptyDictionary present).2) =
      X.computeBinaryStats present

theorem Bounds.isSome {k : ColumnKind} {values : List Value} {minMax : MinMax}
    (h : Bounds k values minMax) : minMax.isSome ↔ ∃ v ∈ values, k.le v v := by
  obtain ⟨m, rfl, hext⟩ := h
  rw [Option.isSome_map]
  exact hext.isSome

/-- **Statistics are exact for the values stored.**  For every chunk of every row group a writer has
    recorded, whatever calls led to it: the leaf has the type of a column kind, and over buffers as
    the Arrow format promises them (under a list, with offsets that never decrease) the null count is
    what the level entries have more than the values, and the recorded bounds are the PLAIN bytes of
    a smallest and a largest of exactly the values in the data page. -/
theorem statistics_exact {X : External} (hX : X.ExactStats) (hdict : X.Distinct) {w : Writer}
    (hw : Reachable X w) :
    (∃ gs, Recorded X w gs) ∧ ∀ gs, Recorded X w gs → ∀ g ∈ gs, ∀ x ∈ g.chunks,
      (∃ (k : ColumnKind) (name : String) (nullable : Bool), x.leaf.col = k.spec name nullable) ∧
      ∀ (k : ColumnKind) (name : String) (nullable : Bool), x.leaf.col = k.spec name nullable →
        k.BuffersOk x.inp.arr →
        (x.leaf.hasList = true → ∀ column, topColumn x.leaf g.batch = .ok column →
          MonotoneOffsets x.leaf.steps column) →
        ExactStatistics X k x (k.values x.inp.arr x.inp.validity) := by
  refine ⟨hw.recorded, fun gs hrec g hg x hx => ?_⟩
  have hlocked : w.schemaLocked = true := by
    cases hl : w.schemaLocked with
    | true => rfl
    | false =>
      rw [hrec.unlocked hl] at hg
      cases hg
  obtain ⟨_, columns, hflat, _⟩ := hrec.locked hlocked
  have hgroup := hrec.of g hg
  have hof := hgroup.of x hx
  have hleaf : x.leaf ∈ w.leaves := hgroup.leaves ▸ List.mem_map_of_mem hx
  refine ⟨?_, fun k name nullable hcol hbuf hmono => ?_⟩
  · obtain ⟨i, child, _, c, spec, _, hspec, heq⟩ := leafOf_of_flattenColumns hflat x.leaf hleaf
    obtain ⟨k, hk, _⟩ := mapFormat_kind hspec.spec
    exact ⟨k, c.name, c.optional, by rw [heq]; exact hk⟩
  have hcounts := storedCounts hflat hleaf hof.inputs hcol hbuf hmono
  have hbodies := hof.bodies
  rw [hcol] at hbodies
  have hbounds := chunkStats_exact hX hdict hbuf hcounts.validity hbodies
  refine ⟨⟨⟨x.inp.numLevels, x.bodies.encoding, .rle, .rle⟩, by rw [hof.built.header]; rfl,
      hcounts.nullCount, hof.built.body, fun D hD => ?_⟩,
    hbounds.isSome, hbounds, ?_, fun present _ => dictionaryStats_eq hX hdict present⟩
  · rcases @chunkBodies_decode X D hD k name nullable x.inp.arr hbuf x.inp.validity hcounts.validity
        g.encoding with ⟨b, hb, hdec⟩ | ⟨_, herr⟩
    · rw [hbodies] at hb
      cases hb
      rw [hof.built.dict.dictionary, hcol]
      exact hdec hof.built.small
    · rw [hbodies] at herr
      cases herr
  · rintro rfl
    refine ⟨rfl, ?_⟩
    have hnone := hbounds.isSome
    show x.bodies.stats = none
    cases hs : x.bodies.stats with
    | none => rfl
    | some m =>
      obtain ⟨v, hv, _⟩ := hnone.mp (by rw [hs]; rfl)
      cases hv

/-! ## Small inputs -/

/-- The reference encoders, with statistics of floating-point columns too. -/
def External.exact : External :=
  { External.reference with
    computeStats := fun t elems validity =>
      extremes t.le ((validElements elems validity).filter fun v => t.le v v) }

theorem extremes_spec {α : Type} [DecidableEq α] {le : α → α → Bool}
    (htotal : ∀ a b, le a a → le b b → le a b ∨ le b a)
    (htrans : ∀ a b c, le a b → le b c → le a c) {vs : List α} (hrefl : ∀ x ∈ vs, le x x) :
    Extremes (fun a b => le a b) vs (extremes le vs) := by
  cases vs with
  | nil => exact Extremes.nil
  | cons v vs =>
    refine ⟨Least.foldl htotal htrans vs v hrefl, ?_⟩
    exact @Least.foldl α (fun a b => le b a) (fun a b ha hb => htotal b a hb ha)
      (fun a b c hab hbc => htrans c b a hbc hab) vs v hrefl

theorem floatLe_iff {e m a b : Nat} :
    floatLe e m a b = true ↔ ∃ x y, floatKey e m a = some x ∧ floatKey e m b = some y ∧ x ≤ y := by
  unfold floatLe
  cases floatKey e m a <;> cases floatKey e m b <;> simp

theorem floatLe_total {e m a b : Nat} (ha : floatLe e m a a = true) (hb : floatLe e m b b = true) :
    floatLe e m a b = true ∨ floatLe e m b a = true := by
  obtain ⟨x, _, hx, _, _⟩ := floatLe_iff.mp ha
  obtain ⟨y, _, hy, _, _⟩ := floatLe_iff.mp hb
  rcases Int.le_total x y with hxy | hyx
  · exact .inl (floatLe_iff.mpr ⟨x, y, hx, hy, hxy⟩)
  · exact .inr (floatLe_iff.mpr ⟨y, x, hy, hx, hyx⟩)

theorem floatLe_trans {e m a b c : Nat} (hab : floatLe e m a b = true)
    (hbc : floatLe e m b c = true) : floatLe e m a c = true := by
  obtain ⟨x, y, hx, hy, hxy⟩ := floatLe_iff.mp hab
  obtain ⟨y', z, hy', hz, hyz⟩ := floatLe_iff.mp hbc
  rw [hy] at hy'
  cases hy'
  exact floatLe_iff.mpr ⟨x, z, hx, hz, Int.le_trans hxy hyz⟩

theorem exactStats_exact : External.exact.ExactStats := by
  constructor
  · intro t elems validity _
    apply Extremes.of_filter
    apply extremes_spec
    · intro a b ha hb
      cases t <;> first | exact floatLe_total ha hb | simpa [StatType.le] using Int.le_total a b
    · intro a b c hab hbc
      cases t <;> first
        | exact floatLe_trans hab hbc
        | (simp only [StatType.le, decide_eq_true_iff] at hab hbc ⊢; exact Int.le_trans hab hbc)
    · intro v hv
      simpa using (List.mem_filter.mp hv).2
  · intro vs
    apply @extremes_spec Bytes _ bytewiseLe
    · intro a b _ _
      simpa [bytewiseLe] using le_total (a.map UInt8.toNat) (b.map UInt8.toNat)
    · intro a b c hab hbc
      simp only [bytewiseLe, decide_eq_true_iff] at hab hbc ⊢
      exact le_trans hab hbc
    · intro v _
      simp [bytewiseLe]

theorem distinct_exact : External.exact.Distinct :=
  ⟨distinct_reference.empty, distinct_reference.keeps, distinct_reference.indexOf,
    distinct_reference.entries, distinct_reference.nodup⟩

/-- The offsets of `listRows` never decrease. -/
theorem listRows_monotone : MonotoneOffsets listLeaf.steps listRows := by
  have hle : ∀ j < 5, ∀ i ≤ j,
      (PathStep.offset? { kind := .list, optional := true, repLevel := 1 } listRows i).getD 0 ≤
        (PathStep.offset? { kind := .list, optional := true, repLevel := 1 } listRows j).getD 0 := by
    decide +kernel
  refine ⟨fun _ i j hij hj s t hs ht => ?_, fun child _ => ⟨fun hk => (by cases hk),
    fun _ _ => trivial⟩⟩
  have hj : (j : Int) ≤ 4 := hj
  have hst := hle j (by omega) i hij
  rwa [hs, ht] at hst

theorem statistics_exact_listBatch :
    ∃ w gs g x, n2pWriterWriteBatch .exact freshWriter (some listSchema) (some listBatch.array) =
        some (.ok, w) ∧ Recorded .exact w gs ∧ g ∈ gs ∧ x ∈ g.chunks ∧
      ExactStatistics .exact (.int32 false) x [.int32 1, .int32 3] := by
  have hfacts : (n2pWriterWriteBatch .exact freshWriter (some listSchema)
      (some listBatch.array)).map (fun r => (r.1, r.2.leaves)) = some (.ok, [listLeaf]) := by
    decide +kernel
  obtain ⟨⟨status, w⟩, hcall, heq⟩ := Option.map_eq_some_iff.mp hfacts
  simp only [Prod.mk.injEq] at heq
  obtain ⟨rfl, hleaves⟩ := heq
  have hreach : Reachable .exact w := by
    refine ⟨.fresh 8191 none, "out.parquet", [.writeBatch (some listSchema) (some listBatch)],
      [.ok], run_cons.mpr ⟨.ok, w, [], hcall, rfl, rfl⟩⟩
  rcases writeBatch_cases hcall with ⟨_, hok⟩ | ⟨hne, _⟩
  swap
  · exact absurd rfl hne
  obtain ⟨sc, b, w1, xs, hargs, hlock, hxs, rfl, _⟩ := writeOneBatch_ok hok
  obtain ⟨_, hb, _⟩ := checkArguments_eq_ok.mp hargs
  cases hb
  have hrec := ((recorded_open .exact (.fresh 8191 none) "out.parquet").lock hlock).record
    hlock.locked hxs listBatch.int64
  -- the one chunk, and its inputs
  have hchunks : xs.map (·.leaf) = [listLeaf] := hxs.leaves.trans hleaves
  obtain ⟨x, rfl, hx⟩ := List.map_eq_singleton_iff.mp hchunks
  have hinputs := (hxs.of x List.mem_cons_self).inputs
  rw [hx] at hinputs
  have harr : (leafInputs External.exact listLeaf listBatch.array).map (fun inp =>
      (inp.arr.length, inp.arr.bytes 1, (ColumnKind.int32 false).values inp.arr inp.validity)) =
      .ok (3, [1, 0, 0, 0, 0, 0, 0, 0, 3, 0, 0, 0], [.int32 1, .int32 3]) := by decide +kernel
  rw [hinputs] at harr
  simp only [Except.map, Except.ok.injEq, Prod.mk.injEq] at harr
  obtain ⟨hlen, hbytes, hvalues⟩ := harr
  have hdata : (leafInputs External.exact listLeaf listBatch.array).map (fun inp =>
      (inp.arr.data 1).isOk) = .ok true := by decide +kernel
  rw [hinputs] at hdata
  have hbuf : (ColumnKind.int32 false).BuffersOk x.inp.arr := by
    refine ⟨by rw [hlen]; decide, fun _ => ?_, fun h => (by cases h), ?_,
      fun _ _ h => (by cases h)⟩
    · cases hd : x.inp.arr.data 1 with
      | ok bs => exact ⟨bs, rfl⟩
      | error e => simp [Except.map, hd, Except.isOk, Except.toBool] at hdata
    · rw [hlen, hbytes]
      decide
  have hexact := ((statistics_exact exactStats_exact distinct_exact hreach).2 _ hrec _
    List.mem_cons_self x List.mem_cons_self).2 (.int32 false) "element" true (by rw [hx]; rfl) hbuf
    (fun _ column hcolumn => by
      rw [hx] at hcolumn ⊢
      cases hcolumn
      exact listRows_monotone)
  rw [hvalues] at hexact
  exact ⟨_, _, _, x, hcall, hrec, List.mem_cons_self, List.mem_cons_self, hexact⟩

end N2P
