import N2P.SchemaAcceptance
import N2P.SoaDenotes

/-!
# The format of fixed-size columns

`fixed_size_binary_format` composes `w:N` at compile time in a character array of its own size, and
`map_format` reads the width back when the writer sees the column.

* `make` — the array as `make` fills it, with every index used on it.
* `make_out` — `w:`, the decimal numeral, a terminating NUL.
* `fixedSizeBinary_readBack` — and `map_format` finds the width again.
-/

namespace N2P.Soa

/-! ## The array -/

/-- `out` of `make`, and the indices used on it so far. -/
structure CharArray where
  out : List Char
  indices : List Nat

/-- `out[k] = c`; past the end nothing is stored. -/
def CharArray.store (a : CharArray) (k : Nat) (c : Char) : CharArray :=
  { out := a.out.set k c, indices := a.indices ++ [k] }

/-- The digit loop of `make`, from `i` down. -/
def CharArray.storeDigits (a : CharArray) : (i v : Nat) → CharArray
  | 0, _ => a
  | i + 1, v => (a.store (1 + (i + 1)) (Char.ofNat ('0'.toNat + v % 10))).storeDigits i (v / 10)

/-- `make`, on an array of `2 + digits() + 1` characters. -/
def make (n : Nat) : CharArray :=
  let a : CharArray := { out := List.replicate (2 + digits n + 1) '\x00', indices := [] }
  ((a.store 0 'w').store 1 ':').storeDigits (digits n) n

/-- What `storage.data()` is as a C string. -/
def cString (cs : List Char) : String := String.ofList (cs.takeWhile (· ≠ '\x00'))

/-! ## What the loop leaves -/

theorem length_makeDigits (i v : Nat) (out : List Char) :
    (makeDigits i v out).length = i + out.length := by
  induction i generalizing v out with
  | zero => simp [makeDigits]
  | succ i ih =>
    rw [makeDigits, ih, List.length_cons]
    omega

/-- The loop fills the places between the prefix and what is behind them. -/
theorem storeDigits_out {a : CharArray} {i v : Nat} {pre mid post : List Char}
    (hpre : pre.length = 2) (hmid : mid.length = i) (hout : a.out = pre ++ mid ++ post) :
    (a.storeDigits i v).out = pre ++ makeDigits i v post := by
  induction i generalizing a v mid post with
  | zero =>
    rw [CharArray.storeDigits, makeDigits, hout, List.eq_nil_of_length_eq_zero hmid]
    simp
  | succ i ih =>
    rw [CharArray.storeDigits, makeDigits]
    -- the last of the places left is the one stored to
    obtain ⟨front, last, rfl⟩ : ∃ front last, mid = front ++ [last] := by
      have hne : mid ≠ [] := List.ne_nil_of_length_pos (by omega)
      exact ⟨mid.dropLast, mid.getLast hne, (List.dropLast_append_getLast hne).symm⟩
    rw [List.length_append, List.length_singleton] at hmid
    have hfront : front.length = i := by omega
    apply ih hfront
    show a.out.set (1 + (i + 1)) _ = _
    have hat : 1 + (i + 1) = (pre ++ front).length := by
      rw [List.length_append]
      omega
    rw [hout, hat, ← List.append_assoc pre, List.append_assoc (pre ++ front), List.set_append_right
      _ _ (Nat.le_refl _), Nat.sub_self]
    rfl

/-- The loop uses the indices from `2` up to `1 + i`. -/
theorem storeDigits_indices {a : CharArray} {i v k : Nat}
    (hk : k ∈ (a.storeDigits i v).indices) : k ∈ a.indices ∨ 2 ≤ k ∧ k < 2 + i := by
  induction i generalizing a v with
  | zero => exact .inl hk
  | succ i ih =>
    rw [CharArray.storeDigits] at hk
    rcases ih hk with hk | ⟨h2, hlt⟩
    · rcases List.mem_append.mp hk with hk | hk
      · exact .inl hk
      · rw [List.mem_singleton.mp hk]
        exact .inr ⟨by omega, by omega⟩
    · exact .inr ⟨h2, by omega⟩

/-! ## The array as a whole -/

/-- The loop of `digits` counts the digits of the numeral. -/
theorem digits_eq (n : Nat) : digits n = (Nat.toDigits 10 n).length := by
  have h := length_makeDigits (digits n) n []
  rw [makeDigits_toDigits, List.append_nil] at h
  exact h.symm

/-- **`w:`, the numeral, and a NUL.** -/
theorem make_out (n : Nat) :
    (make n).out = 'w' :: ':' :: Nat.toDigits 10 n ++ ['\x00'] := by
  have hreplicate : List.replicate (2 + digits n + 1) '\x00' =
      ['\x00', '\x00'] ++ List.replicate (digits n) '\x00' ++ ['\x00'] := by
    rw [List.replicate_add, List.replicate_add]
    rfl
  have hout : ((List.replicate (2 + digits n + 1) '\x00').set 0 'w').set 1 ':' =
      ['w', ':'] ++ List.replicate (digits n) '\x00' ++ ['\x00'] := by
    rw [hreplicate]
    rfl
  have hpre : ['w', ':'].length = 2 := rfl
  unfold make
  dsimp only
  rw [storeDigits_out hpre List.length_replicate hout, makeDigits_toDigits]
  rfl

/-- Every index is inside the array. -/
theorem make_indices (n : Nat) : ∀ k ∈ (make n).indices, k < 2 + digits n + 1 := by
  intro k hk
  rcases storeDigits_indices hk with hk | ⟨_, hlt⟩
  · have hk : k ∈ [0, 1] := hk
    rcases List.mem_cons.mp hk with rfl | hk
    · omega
    · rw [List.mem_singleton.mp hk]
      omega
  · omega

theorem toDigits_isDigit {n : Nat} {c : Char} (hc : c ∈ Nat.toDigits 10 n) : c.isDigit = true :=
  Nat.isDigit_of_mem_toDigits (by decide) (by decide) hc

/-- The C string of the array is the format of the column. -/
theorem cString_make (n : Nat) : cString (make n).out = fixedSizeBinaryFormat n := by
  have hall : ∀ c ∈ 'w' :: ':' :: Nat.toDigits 10 n, decide (c ≠ '\x00') = true := by
    intro c hc
    rw [decide_eq_true_iff]
    rintro rfl
    simp only [List.mem_cons] at hc
    rcases hc with hc | hc | hc
    · cases hc
    · cases hc
    · exact absurd (toDigits_isDigit hc) (by decide)
  unfold cString fixedSizeBinaryFormat
  rw [make_out, makeDigits_toDigits, List.append_nil, List.takeWhile_append_of_pos hall]
  simp

/-! ## The numeral -/

/-- A positive numeral has no leading zero. -/
theorem toDigits_head {n : Nat} (h : 1 ≤ n) : (Nat.toDigits 10 n).head? ≠ some '0' := by
  induction n using Nat.strongRecOn with
  | _ n ih =>
    by_cases hn : n < 10
    · have hdigit : ∀ d < 10, 1 ≤ d → Nat.digitChar d ≠ '0' := by decide
      rw [Nat.toDigits_of_lt_base hn]
      intro hhead
      exact hdigit n hn h (Option.some.inj hhead)
    · rw [Nat.toDigits_of_base_le (by decide) (by omega),
        List.head?_append_of_ne_nil _ Nat.toDigits_ne_nil]
      exact ih (n / 10) (by omega) (by omega)

theorem decimal_toDigits (n : Nat) : decimal (Nat.toDigits 10 n) = n := by
  have h := Nat.ofDigitChars_toDigits (b := 10) (n := n) (by decide) (by decide)
  rwa [Nat.ofDigitChars_eq_foldl] at h

/-- On `w:` and the numeral of a positive `int`, `map_format` finds the width. -/
theorem mapFormat_fixedSizeBinary {n : Nat} (h : 1 ≤ n) (hn : n ≤ 2 ^ 31 - 1) (name : String)
    (nullable : Bool) :
    mapFormat (some (fixedSizeBinaryFormat n)) name nullable =
      .ok { name, nullable, type := .fixedLenByteArray, extract := .memcpyFixed, srcWidth := n,
            typeLength := n } := by
  have hlist : (fixedSizeBinaryFormat n).toList = 'w' :: ':' :: Nat.toDigits 10 n := by
    unfold fixedSizeBinaryFormat
    rw [makeDigits_toDigits, List.append_nil, String.toList_ofList]
  have hread : atoi (Nat.toDigits 10 n) = .ok n := by
    have hall : (Nat.toDigits 10 n).all Char.isDigit = true :=
      List.all_eq_true.mpr fun c hc => toDigits_isDigit hc
    rw [atoi_digits Nat.toDigits_ne_nil hall (by rw [decimal_toDigits]; omega), decimal_toDigits]
  -- no other format starts so
  have hother : ∀ g : String, g.toList.head? ≠ some 'w' → fixedSizeBinaryFormat n ≠ g := by
    rintro g hg rfl
    rw [hlist] at hg
    exact hg rfl
  unfold mapFormat
  dsimp only
  rw [if_neg (hother "n" (by decide)), if_neg (hother "b" (by decide)),
    if_neg (hother "c" (by decide)), if_neg (hother "C" (by decide)),
    if_neg (hother "s" (by decide)), if_neg (hother "S" (by decide)),
    if_neg (hother "i" (by decide)), if_neg (hother "I" (by decide)),
    if_neg (hother "l" (by decide)), if_neg (hother "L" (by decide)),
    if_neg (hother "f" (by decide)), if_neg (hother "g" (by decide)), hlist,
    if_pos (show ('w' :: ':' :: Nat.toDigits 10 n).take 2 = ['w', ':'] from rfl)]
  rw [show ('w' :: ':' :: Nat.toDigits 10 n).drop 2 = Nat.toDigits 10 n from rfl, hread]
  dsimp only
  rw [if_neg (by omega), Int.toNat_natCast]

/-- **The format composed at compile time is read back by the writer.** -/
theorem fixedSizeBinary_readBack (n : Nat) (h : 1 ≤ n) (hn : n ≤ 2 ^ 31 - 1) (name : String)
    (nullable : Bool) :
    (make n).out = 'w' :: ':' :: Nat.toDigits 10 n ++ ['\x00'] ∧
    (Nat.toDigits 10 n).head? ≠ some '0' ∧
    (make n).out.length = 2 + digits n + 1 ∧
    (∀ k ∈ (make n).indices, k < (make n).out.length) ∧
    ∃ spec, mapFormat (some (cString (make n).out)) name nullable = .ok spec ∧
      spec.type = .fixedLenByteArray ∧ spec.typeLength = n ∧ spec.srcWidth = n := by
  have hlen : (make n).out.length = 2 + digits n + 1 := by
    rw [make_out, digits_eq]
    simp
    omega
  refine ⟨make_out n, toDigits_head h, hlen, ?_, ?_⟩
  · rw [hlen]
    exact make_indices n
  · rw [cString_make]
    exact ⟨_, mapFormat_fixedSizeBinary h hn name nullable, rfl, rfl, rfl⟩

/-- A 16-byte address. -/
theorem fixedSizeBinary_readBack_address :
    (make 16).out = ['w', ':', '1', '6', '\x00'] ∧
    ∃ spec, mapFormat (some (cString (make 16).out)) "address" true = .ok spec ∧
      spec.type = .fixedLenByteArray ∧ spec.typeLength = 16 ∧ spec.srcWidth = 16 := by
  have h := fixedSizeBinary_readBack 16 (by decide) (by decide) "address" true
  exact ⟨h.1, h.2.2.2.2⟩

end N2P.Soa
