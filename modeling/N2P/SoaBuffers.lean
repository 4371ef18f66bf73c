import N2P.Soa

/-!
# The loops of the columnar front-end

What each loop has built after a prefix of the caller's range, by one step lemma and one run lemma
a loop.

* `packMask_spec` — a packed presence mask and its null count.
* `PackedBits.After` — a packed column of booleans, and the indices used on it.
* `StringBuffers.After` — offsets and data of a string column, and the indices used.
-/

namespace N2P.Soa

open ByteSeq (Spells)

/-! ## Presence masks -/

@[simp] theorem length_orBit (bits : Bytes) (i : Nat) : (orBit bits i).length = bits.length := by
  unfold orBit
  cases h : ByteSeq.setBit bits i with
  | none => rfl
  | some bs => exact ByteSeq.length_setBit h

/-- A mask being packed after the entries `ms`. -/
structure MaskBits.After (n : Nat) (ms : List Bool) (b : MaskBits) : Prop where
  length : b.bits.length = (n + 7) / 8
  bits : Spells b.bits ms
  nulls : b.nulls = ms.count false
  i : b.i = ms.length

theorem MaskBits.After.push {n : Nat} {ms : List Bool} {b : MaskBits} (h : b.After n ms)
    (m : Bool) : (b.push m).After n (ms ++ [m]) := by
  obtain ⟨hlen, hbits, hnulls, hi⟩ := h
  cases m with
  | true =>
    refine ⟨?_, ?_, ?_, ?_⟩
    · show (orBit b.bits b.i).length = _
      rw [length_orBit, hlen]
    · show Spells (orBit b.bits b.i) _
      rw [hi]
      exact hbits.push_true
    · show b.nulls = _
      rw [hnulls]
      simp
    · show b.i + 1 = _
      rw [hi]
      simp
  | false =>
    refine ⟨hlen, hbits.push_false, ?_, ?_⟩
    · show b.nulls + 1 = _
      rw [hnulls]
      simp
    · show b.i + 1 = _
      rw [hi]
      simp

/-- **A packed mask** has a byte for every eight entries asked for, the mask's bits, and a null for
    each cleared one. -/
theorem packMask_spec (n : Nat) (mask : List Bool) : (packMask n mask).After n mask := by
  apply Outcome.foldl_after fun done b x h => h.push x
  exact ⟨List.length_replicate, ByteSeq.spells_replicate _, rfl, rfl⟩

/-! ## Columns of booleans -/

/-- The indices of the true values. -/
def trueIndices (vs : List Bool) : List Nat :=
  (List.range vs.length).filter fun i => vs.getD i false

/-- A column of booleans being packed after the values `vs`. -/
structure PackedBits.After (n : Nat) (vs : List Bool) (b : PackedBits) : Prop where
  length : b.packed.length = (n + 7) / 8
  bits : Spells b.packed vs
  i : b.i = vs.length
  accesses : b.accesses = (trueIndices vs).map fun i => ⟨.packed, i / 8, (n + 7) / 8⟩

theorem trueIndices_concat (vs : List Bool) (v : Bool) :
    trueIndices (vs ++ [v]) = trueIndices vs ++ if v then [vs.length] else [] := by
  unfold trueIndices
  rw [List.length_append, List.length_singleton, List.range_succ, List.filter_append]
  congr 1
  · refine List.filter_congr fun i hi => ?_
    rw [List.getD_eq_getElem?_getD, List.getD_eq_getElem?_getD,
      List.getElem?_append_left (List.mem_range.mp hi)]
  · cases v <;> simp

theorem PackedBits.After.push {n : Nat} {vs : List Bool} {b : PackedBits} (h : b.After n vs)
    (v : Bool) : (b.push v).After n (vs ++ [v]) := by
  obtain ⟨hlen, hbits, hi, hacc⟩ := h
  cases v with
  | true =>
    refine ⟨?_, ?_, ?_, ?_⟩
    · show (orBit b.packed b.i).length = _
      rw [length_orBit, hlen]
    · show Spells (orBit b.packed b.i) _
      rw [hi]
      exact hbits.push_true
    · show b.i + 1 = _
      rw [hi]
      simp
    · show b.accesses ++ [⟨.packed, b.i / 8, b.packed.length⟩] = _
      rw [hacc, trueIndices_concat, hi, hlen]
      simp
  | false =>
    refine ⟨hlen, hbits.push_false, ?_, ?_⟩
    · show b.i + 1 = _
      rw [hi]
      simp
    · show b.accesses = _
      rw [hacc, trueIndices_concat]
      simp

/-- **The bool branch** packs the values, and uses the index of each true one. -/
theorem packedBits_spec (n : Nat) (vs : List Bool) :
    (vs.foldl PackedBits.push (.sized n)).After n vs := by
  apply Outcome.foldl_after fun done b x h => h.push x
  exact ⟨List.length_replicate, ByteSeq.spells_replicate _, rfl, rfl⟩

/-! ## String columns -/

/-- What each value of a string column adds to the data: an absent one adds nothing. -/
def Validity.kept (v : Validity) (vs : List Bytes) : List Bytes :=
  vs.mapIdx fun i e => if v.presentAt i then e else []

theorem kept_concat (v : Validity) (vs : List Bytes) (e : Bytes) :
    v.kept (vs ++ [e]) = v.kept vs ++ [if v.presentAt vs.length then e else []] := by
  unfold Validity.kept
  rw [List.mapIdx_append]
  simp

@[simp] theorem length_kept (v : Validity) (vs : List Bytes) :
    (v.kept vs).length = vs.length := by
  simp [Validity.kept]

/-- The indices used for value `i`. -/
def Validity.stringAccesses (v : Validity) (n i : Nat) : List Access :=
  v.reads i ++ [⟨.off, i + 1, n + 1⟩]

/-- The offset before value `k`. -/
def Validity.offsetAt (v : Validity) (vs : List Bytes) (k : Nat) : Nat :=
  ((v.kept vs).take k).flatten.length

/-- A string column being materialised after the values `vs`: offsets are exact as long as they
    stay within an `off_t`. -/
structure StringBuffers.After (t : StringType) (v : Validity) (n : Nat) (vs : List Bytes)
    (b : StringBuffers) : Prop where
  length : b.off.length = n + 1
  i : b.i = vs.length
  dat : b.dat = (v.kept vs).flatten
  accesses : b.accesses =
    ⟨.off, 0, n + 1⟩ :: (List.range vs.length).flatMap (v.stringAccesses n)
  cur : 2 * (v.kept vs).flatten.length < 256 ^ t.offsetWidth →
    b.cur = (v.kept vs).flatten.length
  offsets : 2 * (v.kept vs).flatten.length < 256 ^ t.offsetWidth →
    ∀ k ≤ vs.length, k ≤ n → b.off[k]? = some (v.offsetAt vs k : Int)

/-- Offsets of a prefix do not change. -/
theorem offsetAt_concat (v : Validity) (vs : List Bytes) (e : Bytes) {k : Nat}
    (hk : k ≤ vs.length) : v.offsetAt (vs ++ [e]) k = v.offsetAt vs k := by
  unfold Validity.offsetAt
  rw [kept_concat, List.take_append_of_le_length (by rw [length_kept]; exact hk)]

/-- The last offset is the size of the data. -/
theorem offsetAt_length (v : Validity) (vs : List Bytes) :
    v.offsetAt vs vs.length = (v.kept vs).flatten.length := by
  unfold Validity.offsetAt
  rw [← length_kept v vs, List.take_length]

theorem StringBuffers.After.push {t : StringType} {v : Validity} {n : Nat} {vs : List Bytes}
    {b : StringBuffers} (h : b.After t v n vs) (e : Bytes) :
    (b.push t v e).After t v n (vs ++ [e]) := by
  obtain ⟨hlen, hi, hdat, hacc, hcur, hoff⟩ := h
  have hkept : (v.kept (vs ++ [e])).flatten =
      (v.kept vs).flatten ++ if v.presentAt vs.length then e else [] := by
    rw [kept_concat, List.flatten_append]
    simp
  have hstep : 2 * (v.kept (vs ++ [e])).flatten.length < 256 ^ t.offsetWidth →
      (b.push t v e).cur = (v.kept (vs ++ [e])).flatten.length := by
    intro hfit
    rw [hkept, List.length_append] at hfit ⊢
    have hprev := hcur (by omega)
    show (if v.presentAt b.i then _ else b.cur) = _
    rw [hi, hprev]
    by_cases hp : v.presentAt vs.length = true
    · rw [if_pos hp] at hfit
      rw [if_pos hp, if_pos hp, ← Int.natCast_add]
      apply Int.bmod_eq_of_le
      · omega
      · omega
    · simp [hp]
  refine ⟨?_, ?_, ?_, ?_, hstep, ?_⟩
  · show (b.off.set _ _).length = _
    rw [List.length_set, hlen]
  · show b.i + 1 = _
    rw [hi, List.length_append, List.length_singleton]
  · show (if v.presentAt b.i then b.dat ++ e else b.dat) = _
    rw [hkept, hi, hdat]
    split <;> simp
  · show b.accesses ++ v.reads b.i ++ [⟨.off, b.i + 1, b.off.length⟩] = _
    rw [hacc, hi, hlen, List.length_append, List.length_singleton, List.range_succ,
      List.flatMap_append]
    simp [Validity.stringAccesses]
  · intro hfit k hk hkn
    rw [List.length_append, List.length_singleton] at hk
    show (b.off.set (b.i + 1) (b.push t v e).cur)[k]? = _
    rw [hi]
    by_cases hlast : k = vs.length + 1
    · have hlast' : k = (vs ++ [e]).length := by
        rw [List.length_append, List.length_singleton]
        exact hlast
      rw [hlast, List.getElem?_set_self (by omega), hstep hfit, ← hlast, hlast', offsetAt_length]
    · rw [List.getElem?_set_ne (by omega), offsetAt_concat v vs e (by omega)]
      apply hoff
      · rw [hkept, List.length_append] at hfit
        omega
      · omega
      · exact hkn

/-- **The string branch** materialises the present values, and uses one offset for each value. -/
theorem stringBuffers_spec (t : StringType) (v : Validity) (n : Nat) (vs : List Bytes) :
    (vs.foldl (StringBuffers.push t v) (.sized n)).After t v n vs := by
  apply Outcome.foldl_after fun done b x h => h.push x
  refine ⟨?_, rfl, rfl, rfl, fun _ => rfl, ?_⟩
  · show ((List.replicate (n + 1) 0).set 0 0).length = _
    rw [List.length_set, List.length_replicate]
  · intro _ k hk _
    have hk : k = 0 := Nat.le_zero.mp hk
    subst hk
    show ((List.replicate (n + 1) (0 : Int)).set 0 0)[0]? = _
    rw [List.getElem?_set_self (by simp)]
    rfl

end N2P.Soa
