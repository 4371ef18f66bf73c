import N2P.Reference

/-!
# Value pages

The pages a leaf's values are written to, and what the reference decoders read back from them.

* `byteArrayPages_decode`, `encodeFixedValues_decode` — the bodies of byte arrays and of fixed-width
  values decode to those values, under every encoding the writer can pick.
* `chunkBodies_decode` — so do the bodies of any chunk, and building them refuses nothing.
* `valuePages_roundTrip` — the chunk's pages decode to the array's valid values in row order, or an
  exception ended the writing.
-/

namespace N2P

open Outcome

/-! ## Byte arrays -/

/-- The strings at the valid rows. -/
def byteStrings (large : Bool) (arr : ArrowArray) (validity : Option Bytes) : List Bytes :=
  (validRows validity arr.length.toNat).map
    (byteStringAt (if large then 8 else 4) (arr.bytes 1) (arr.bytes 2))

/-- Gathering the strings never leaves the buffers. -/
theorem buildByteArrayPages_eq (X : External) {utf8 large : Bool} {name : String} {nullable : Bool}
    {arr : ArrowArray} (h : (ColumnKind.bytes utf8 large).BuffersOk arr) {validity : Option Bytes}
    (hv : ValidityOk validity arr.length.toNat) (mode : Nat) :
    buildByteArrayPages X arr ((ColumnKind.bytes utf8 large).spec name nullable) validity mode =
      byteArrayPages X (byteStrings large arr validity) mode := by
  obtain ⟨hdata, hoffsets⟩ := h.strings utf8 large rfl
  have hread : ∀ i < arr.length.toNat,
      valueAt ((ColumnKind.bytes utf8 large).spec name nullable) (arr.bytes 1) (arr.bytes 2) i =
        .ok (byteStringAt (if large then 8 else 4) (arr.bytes 1) (arr.bytes 2) i) := by
    intro i hi
    obtain ⟨start, stop, h1, h2, hbounds⟩ := hoffsets i hi
    have element : ∀ {w : Nat} {bs : Bytes} {j : Nat} {v : Int}, readOffset w bs j = .ok v →
        signedLE (ByteSeq.element w bs j) = v := by
      intro w bs j v hv
      obtain ⟨e, he, rfl⟩ := map_eq_ok.mp hv
      unfold readElem at he
      split at he
      · cases he
        rfl
      · cases he
    have hs : ((ColumnKind.bytes utf8 large).spec name nullable).largeOffsets = large := rfl
    unfold valueAt byteStringAt
    simp only [hs, h1, h2, if_pos hbounds, element h1, element h2]
  unfold buildByteArrayPages byteStrings
  simp only [ArrowArray.data_bytes (h.data (by simp)), ArrowArray.data_bytes hdata,
    toSize_length h.length, forValid_rows hv hread]

/-- The bodies of a byte-array chunk. -/
def ByteArrayPages.bodies (p : ByteArrayPages) : ChunkBodies :=
  if p.useDictionary then ⟨some (p.dictSize, p.dictBody), .rleDictionary, p.dataBody, p.stats⟩
  else ⟨none, p.dataEncoding, p.dataBody, p.stats⟩

/-- The bodies fit their pages. -/
structure ChunkBodies.Small (b : ChunkBodies) : Prop where
  values : b.values.length ≤ INT32_MAX
  dict : ∀ size body, b.dict = some (size, body) → size ≤ INT32_MAX ∧ body.length ≤ INT32_MAX

/-- The bodies decode to these values, by the encoding the data page names. -/
def ChunkBodies.Decode (D : Decoders) (s : ColumnSpec) (b : ChunkBodies) (vs : List Value) : Prop :=
  readValues D s.type s.typeLength vs.length b.dict b.encoding b.values = some vs

/-- **Every way to write byte arrays reads back**: PLAIN, DELTA_BYTE_ARRAY, or a dictionary. -/
theorem byteArrayPages_decode {X : External} {D : Decoders} (hD : D.Inverts X) {vs : List Bytes}
    {mode : Nat} {p : ByteArrayPages} (h : byteArrayPages X vs mode = .ok p)
    (hsmall : p.bodies.Small) {s : ColumnSpec} (hs : s.type = .byteArray ∧ s.typeLength = 0) :
    p.bodies.Decode D s (vs.map .byteArray) := by
  have hplain : ∀ stats, (ByteArrayPages.bodies
      { useDictionary := false, dataEncoding := .plain, dataBody := plainByteArrays vs,
        stats }).Small →
      (ByteArrayPages.bodies
        { useDictionary := false, dataEncoding := .plain, dataBody := plainByteArrays vs,
          stats }).Decode D s (vs.map .byteArray) := by
    intro stats hsmall
    have hbody : (plainByteArrays vs).length ≤ INT32_MAX := hsmall.values
    show (readPlain s.type s.typeLength (vs.map Value.byteArray).length _) = _
    rw [hs.1, List.length_map]
    show (readByteArrays vs.length (plainByteArrays vs)).map _ = _
    rw [readByteArrays_plain (lengths_lt hbody)]
    rfl
  unfold byteArrayPages at h
  dsimp only at h
  split at h
  · cases h
    exact hplain _ hsmall
  split at h
  · split at h
    · cases h
    · rename_i enc henc
      cases h
      show readValues D s.type s.typeLength _ none .deltaByteArray enc = _
      rw [hs.1]
      show (D.deltaPrefix enc).map _ = _
      rw [hD.deltaPrefix vs enc henc]
      rfl
  split at h
  · cases h
    exact hplain _ hsmall
  · cases h
    obtain ⟨hn, hbody⟩ := hsmall.dict _ _ rfl
    unfold ChunkBodies.Decode
    rw [hs.1, hs.2, List.length_map]
    exact readIndices_ok hD rfl hn hbody

/-- Writing byte arrays fails on the string DELTA_BYTE_ARRAY cannot write, and only there. -/
theorem byteArrayPages_total (X : External) (vs : List Bytes) (mode : Nat) :
    (∃ p, byteArrayPages X vs mode = .ok p) ∨
      mode = kEncDelta ∧ X.deltaPrefixEncode vs = none ∧
        byteArrayPages X vs mode = .error (.thrown "a string longer than 2 GiB") := by
  unfold byteArrayPages
  dsimp only
  split
  · exact .inl ⟨_, rfl⟩
  split
  · rename_i hmode
    cases X.deltaPrefixEncode vs with
    | none => exact .inr ⟨hmode, rfl, rfl⟩
    | some enc => exact .inl ⟨_, rfl⟩
  split
  · exact .inl ⟨_, rfl⟩
  · exact .inl ⟨_, rfl⟩

/-! ## Fixed widths -/

theorem chunks_flatten {w : Nat} {vs : List Bytes} (h : ∀ v ∈ vs, v.length = w) :
    chunks w vs.length vs.flatten = vs := by
  induction vs with
  | nil => rfl
  | cons v vs ih =>
    have hv := h v List.mem_cons_self
    have hrest := ih fun u hu => h u (List.mem_cons_of_mem v hu)
    unfold chunks at *
    rw [List.length_cons, List.range_succ_eq_map, List.map_cons, List.map_map, List.flatten_cons]
    refine List.cons_eq_cons.mpr ⟨?_, ?_⟩
    · rw [Nat.zero_mul, List.drop_zero, ← hv, List.take_left]
    · refine Eq.trans (List.map_congr_left fun i _ => ?_) hrest
      show ((v ++ vs.flatten).drop ((i + 1) * w)).take w = _
      rw [Nat.succ_mul, Nat.add_comm, ← List.drop_drop]
      rw [← hv, List.drop_left]

/-- PLAIN, at the column's type. -/
theorem readPlain_eq {k : ColumnKind} (hk : k.isFixed = true) (name : String) (nullable : Bool)
    (n : Nat) (bs : Bytes) :
    readPlain (k.spec name nullable).type (k.spec name nullable).typeLength n bs =
      (ByteSeq.pieces k.stored n bs).map (List.map k.ofStored) := by
  cases k with
  | null => cases hk
  | bool => cases hk
  | bytes utf8 large => cases hk
  | narrow w signed hw => rfl
  | int32 unsigned => rfl
  | int64 unsigned => rfl
  | float => rfl
  | double => rfl
  | fixed width pos => rfl

/-- What `encode_fixed_values` may pick: DELTA for integers, BYTE_STREAM_SPLIT for floating
    point, PLAIN for the rest. -/
theorem encodeFixedValues_decode {X : External} {D : Decoders} (hD : D.Inverts X) {k : ColumnKind}
    (hk : k.isFixed = true) {name : String} {nullable : Bool} {vs : List Bytes}
    (h : ∀ v ∈ vs, v.length = k.stored) (mode : Nat) (stats : MinMax) :
    ChunkBodies.Decode D (k.spec name nullable)
      ⟨none, (encodeFixedValues X vs.flatten (k.spec name nullable) mode).1,
        (encodeFixedValues X vs.flatten (k.spec name nullable) mode).2, stats⟩
      (vs.map k.ofStored) := by
  have hlen := ByteSeq.length_flatten h
  have hplain := readPlain_eq hk name nullable vs.length vs.flatten
  rw [ByteSeq.pieces_flatten h] at hplain
  have hdelta : ∀ w, k.stored = w → w = 4 ∨ w = 8 →
      D.deltaBinaryPacked w (X.deltaBinaryPackedEncode w
        ((chunks w (vs.flatten.length / w) vs.flatten).map signedLE)) =
      some (vs.map signedLE) := by
    rintro w rfl hw
    have hpos : 0 < k.stored := by omega
    rw [hlen, Nat.mul_div_cancel _ hpos, chunks_flatten h]
    refine hD.deltaBinaryPacked _ _ hw fun v hv => ?_
    obtain ⟨bs, hbs, rfl⟩ := List.mem_map.mp hv
    have := signedLE_bounds bs
    rwa [h bs hbs] at this
  have hsplit : ∀ w, k.stored = w → w = 4 ∨ w = 8 →
      D.byteStreamSplit (X.byteStreamSplitEncode vs.flatten w (vs.flatten.length / w)) w
        vs.length = some vs.flatten := by
    rintro w rfl hw
    have hpos : 0 < k.stored := by omega
    rw [hlen, Nat.mul_div_cancel _ hpos]
    exact hD.byteStreamSplit _ _ _ hlen
  unfold ChunkBodies.Decode
  rw [List.length_map]
  unfold encodeFixedValues
  split
  · rename_i hmode
    cases k with
    | null => cases hk
    | bool => cases hk
    | bytes utf8 large => cases hk
    | narrow w signed hw =>
      refine (congrArg (Option.map (List.map Value.int32)) (hdelta 4 rfl (by decide))).trans ?_
      rw [Option.map_some, List.map_map]
      rfl
    | int32 unsigned =>
      refine (congrArg (Option.map (List.map Value.int32)) (hdelta 4 rfl (by decide))).trans ?_
      rw [Option.map_some, List.map_map]
      rfl
    | int64 unsigned =>
      refine (congrArg (Option.map (List.map Value.int64)) (hdelta 8 rfl (by decide))).trans ?_
      rw [Option.map_some, List.map_map]
      rfl
    | float => simp [ColumnKind.spec] at hmode
    | double => simp [ColumnKind.spec] at hmode
    | fixed width pos => simp [ColumnKind.spec] at hmode
  split
  · rename_i hmode
    cases k with
    | null => cases hk
    | bool => cases hk
    | bytes utf8 large => cases hk
    | narrow w signed hw => simp [ColumnKind.spec] at hmode
    | int32 unsigned => simp [ColumnKind.spec] at hmode
    | int64 unsigned => simp [ColumnKind.spec] at hmode
    | float =>
      exact (congrArg (fun o => Option.bind o (readPlain .float 0 vs.length))
        (hsplit 4 rfl (by decide))).trans hplain
    | double =>
      exact (congrArg (fun o => Option.bind o (readPlain .double 0 vs.length))
        (hsplit 8 rfl (by decide))).trans hplain
    | fixed width pos => simp [ColumnKind.spec] at hmode
  · exact hplain

/-! ## Statistics -/

/-- The instantiation of `compute_stats` that a column kind uses. -/
def ColumnKind.statType? : ColumnKind → Option StatType
  | .narrow w signed _ =>
    some (if w = 1 then (if signed then .int8 else .uint8) else if signed then .int16 else .uint16)
  | .int32 unsigned => some (if unsigned then .uint32 else .int32)
  | .int64 unsigned => some (if unsigned then .uint64 else .int64)
  | .float => some .float
  | .double => some .double
  | _ => none

/-- The kinds with typed elements, each with its instantiation. -/
inductive TypedKind : ColumnKind → StatType → Prop where
  | int8 {h : 1 = 1 ∨ 1 = 2} : TypedKind (.narrow 1 true h) .int8
  | uint8 {h : 1 = 1 ∨ 1 = 2} : TypedKind (.narrow 1 false h) .uint8
  | int16 {h : 2 = 1 ∨ 2 = 2} : TypedKind (.narrow 2 true h) .int16
  | uint16 {h : 2 = 1 ∨ 2 = 2} : TypedKind (.narrow 2 false h) .uint16
  | int32 : TypedKind (.int32 false) .int32
  | uint32 : TypedKind (.int32 true) .uint32
  | int64 : TypedKind (.int64 false) .int64
  | uint64 : TypedKind (.int64 true) .uint64
  | float : TypedKind .float .float
  | double : TypedKind .double .double

theorem ColumnKind.typedKind {k : ColumnKind} {t : StatType} (hk : k.statType? = some t) :
    TypedKind k t := by
  cases k with
  | narrow w signed hw =>
    cases hk
    rcases hw with rfl | rfl
    · cases signed
      · exact .uint8
      · exact .int8
    · cases signed
      · exact .uint16
      · exact .int16
  | int32 unsigned =>
    cases hk
    cases unsigned
    · exact .int32
    · exact .uint32
  | int64 unsigned =>
    cases hk
    cases unsigned
    · exact .int64
    · exact .uint64
  | float =>
    cases hk
    exact .float
  | double =>
    cases hk
    exact .double
  | null => cases hk
  | bool => cases hk
  | fixed width pos => cases hk
  | bytes utf8 large => cases hk

theorem TypedKind.width {k : ColumnKind} {t : StatType} (hk : TypedKind k t) :
    t.layout.1 = k.width := by
  cases hk <;> rfl

/-- The scan stops once both values were seen, and otherwise finds those of the valid rows. -/
theorem boolScan_spec {validity : Option Bytes} {src : Bytes} {bit : Nat → Bool} (is : List Nat)
    (hv : ∀ i ∈ is, validBit validity i = .ok (rowValid validity i))
    (hb : ∀ i ∈ is, readBit src i = .ok (bit i)) (anyTrue anyFalse : Bool) :
    boolScan validity src is anyTrue anyFalse =
      .ok (anyTrue || ((is.filter (rowValid validity)).map bit).contains true,
        anyFalse || ((is.filter (rowValid validity)).map bit).contains false) := by
  induction is generalizing anyTrue anyFalse with
  | nil => simp [boolScan]
  | cons i is ih =>
    have ih := ih (fun j hj => hv j (List.mem_cons_of_mem i hj))
      (fun j hj => hb j (List.mem_cons_of_mem i hj))
    rw [boolScan, hv i List.mem_cons_self, hb i List.mem_cons_self]
    by_cases hboth : (anyTrue && anyFalse) = true
    · rw [if_pos hboth]
      rw [Bool.and_eq_true] at hboth
      simp [hboth]
    rw [if_neg hboth]
    cases hr : rowValid validity i with
    | false =>
      rw [List.filter_cons_of_neg (by simp [hr])]
      exact ih anyTrue anyFalse
    | true =>
      rw [List.filter_cons_of_pos hr]
      cases hbit : bit i with
      | true => simp [ih, hbit]
      | false => simp [ih, hbit]

/-- The booleans at the valid rows. -/
def ArrowArray.validBits (arr : ArrowArray) (validity : Option Bytes) : List Bool :=
  (validRows validity arr.length.toNat).map fun i => (ByteSeq.getBit (arr.bytes 1) i).getD false

section FixedStats

variable (X : External) {name : String} {nullable : Bool} {arr : ArrowArray}
  {validity : Option Bytes}

/-- A kind with typed elements goes through `compute_stats`. -/
theorem fixedStats_typed {k : ColumnKind} {t : StatType} (hk : TypedKind k t)
    (h : k.BuffersOk arr) :
    fixedStats X arr (k.spec name nullable) validity =
      typedStats X t (arr.bytes 1) arr.length.toNat validity := by
  unfold fixedStats
  cases hk <;>
    simp only [ArrowArray.data_bytes (h.data (by simp)), toSize_length h.length] <;> rfl

/-- Booleans are bounded by which of the two there are. -/
theorem fixedStats_bool (h : ColumnKind.bool.BuffersOk arr)
    (hv : ValidityOk validity arr.length.toNat) :
    fixedStats X arr (ColumnKind.bool.spec name nullable) validity =
      .ok (if (arr.validBits validity).contains true || (arr.validBits validity).contains false then
        some ([if (arr.validBits validity).contains false then 0 else 1],
          [if (arr.validBits validity).contains true then 1 else 0])
      else none) := by
  have hbits := h.bits rfl
  have hread : ∀ i ∈ List.range arr.length.toNat, readBit (arr.bytes 1) i =
      .ok ((ByteSeq.getBit (arr.bytes 1) i).getD false) := by
    intro i hi
    have hi := List.mem_range.mp hi
    obtain ⟨b, hb⟩ := Option.isSome_iff_exists.mp
      (ByteSeq.getBit_isSome.mpr (show i / 8 < (arr.bytes 1).length by omega))
    unfold readBit
    rw [hb]
    rfl
  have hscan := boolScan_spec (List.range arr.length.toNat)
    (fun i hi => validBit_ok hv (List.mem_range.mp hi)) hread false false
  unfold fixedStats
  simp only [ArrowArray.data_bytes (h.data (by simp)), toSize_length h.length, ColumnKind.spec]
  rw [if_neg (by decide), hscan]
  simp only [Except.map, ArrowArray.validBits, validRows, Bool.false_or]
  rfl

theorem fixedStats_fixed {width : Nat} {pos : 0 < width}
    (h : (ColumnKind.fixed width pos).BuffersOk arr) (hv : ValidityOk validity arr.length.toNat) :
    fixedStats X arr ((ColumnKind.fixed width pos).spec name nullable) validity =
      .ok (X.computeBinaryStats ((validRows validity arr.length.toNat).map
        (ByteSeq.element width (arr.bytes 1)))) := by
  have hsrc := h.elements
  have hread := forValid_rows hv fun i hi => (readElem_ok hsrc hi).1
  unfold fixedStats
  simp only [ArrowArray.data_bytes (h.data (by simp)), toSize_length h.length, ColumnKind.spec]
  rw [show (ColumnKind.fixed width pos).width = width from rfl] at hread
  rw [hread]
  rfl

/-- **Statistics never fail on well-formed buffers.** -/
theorem fixedStats_ok {k : ColumnKind} (h : k.BuffersOk arr)
    (hv : ValidityOk validity arr.length.toNat) :
    ∃ m, fixedStats X arr (k.spec name nullable) validity = .ok m := by
  have hsrc := h.elements
  have typed : ∀ t : StatType, TypedKind k t →
      ∃ m, fixedStats X arr (k.spec name nullable) validity = .ok m := by
    intro t ht
    rw [fixedStats_typed X ht h]
    unfold typedStats readPrefix
    dsimp only
    rw [ht.width, if_pos hsrc]
    exact ⟨_, rfl⟩
  cases k with
  | null => exact ⟨none, rfl⟩
  | bool => exact ⟨_, fixedStats_bool X h hv⟩
  | fixed width pos => exact ⟨_, fixedStats_fixed X h hv⟩
  | bytes utf8 large =>
    unfold fixedStats
    simp only [ArrowArray.data_bytes (h.data (by simp))]
    exact ⟨none, rfl⟩
  | narrow w signed hw => exact typed _ (ColumnKind.typedKind rfl)
  | int32 unsigned => exact typed _ (ColumnKind.typedKind rfl)
  | int64 unsigned => exact typed _ (ColumnKind.typedKind rfl)
  | float => exact typed _ .float
  | double => exact typed _ .double

end FixedStats

/-! ## Chunks -/

/-- A fixed-width column's bodies, plain or of a dictionary. -/
theorem chunkBodies_fixed {X : External} {D : Decoders} (hD : D.Inverts X) {k : ColumnKind}
    (hk : k.isFixed = true) {name : String} {nullable : Bool} {arr : ArrowArray}
    (h : k.BuffersOk arr) {validity : Option Bytes} (hv : ValidityOk validity arr.length.toNat)
    (mode : Nat) :
    ∃ b, chunkBodies X arr (k.spec name nullable) validity mode = .ok b ∧
      b.Decode D (k.spec name nullable) (k.values arr validity) := by
  obtain ⟨stats, hstats⟩ := @fixedStats_ok X name nullable arr validity k h hv
  obtain ⟨vs, hbody, hlen, hvals⟩ := @buildPlainFixed_ok k hk name nullable arr h validity hv
  have hdec := @encodeFixedValues_decode X D hD k hk name nullable vs hlen mode stats
  have hvalues : k.values arr validity = vs.map k.ofStored := by
    rw [hvals]
    cases k <;> first | rfl | cases hk
  rw [hvalues]
  refine ⟨_, ?_, hdec⟩
  unfold chunkBodies fixedBody
  rw [hstats, hbody]
  cases k <;> first | rfl | cases hk

/-- A column of booleans has one plain body, packed a bit a value. -/
theorem chunkBodies_bool {X : External} (D : Decoders) {name : String} {nullable : Bool}
    {arr : ArrowArray} (h : ColumnKind.bool.BuffersOk arr) {validity : Option Bytes}
    (hv : ValidityOk validity arr.length.toNat) (mode : Nat) :
    ∃ b, chunkBodies X arr (ColumnKind.bool.spec name nullable) validity mode = .ok b ∧
      b.Decode D (ColumnKind.bool.spec name nullable) (ColumnKind.bool.values arr validity) := by
  obtain ⟨stats, hstats⟩ := @fixedStats_ok X name nullable arr validity .bool h hv
  obtain ⟨body, bits, hbody, hread, hvals⟩ := buildPlainBool_ok h hv
  refine ⟨⟨none, .plain, body, stats⟩, ?_, ?_⟩
  · unfold chunkBodies fixedBody
    rw [hstats, hbody]
    rfl
  · have hvalues : ColumnKind.bool.values arr validity = bits.map Value.boolean := hvals.symm
    unfold ChunkBodies.Decode
    rw [hvalues, List.length_map]
    show (readBooleans bits.length body).map _ = _
    rw [hread]
    rfl

/-- A column of byte strings, unless DELTA_BYTE_ARRAY is asked for and cannot write one of them. -/
theorem chunkBodies_bytes {X : External} {D : Decoders} (hD : D.Inverts X) {utf8 large : Bool}
    {name : String} {nullable : Bool} {arr : ArrowArray}
    (h : (ColumnKind.bytes utf8 large).BuffersOk arr) {validity : Option Bytes}
    (hv : ValidityOk validity arr.length.toNat) (mode : Nat) :
    (∃ b, chunkBodies X arr ((ColumnKind.bytes utf8 large).spec name nullable) validity mode =
        .ok b ∧
      (b.Small → b.Decode D ((ColumnKind.bytes utf8 large).spec name nullable)
        ((ColumnKind.bytes utf8 large).values arr validity))) ∨
    mode = kEncDelta ∧
      chunkBodies X arr ((ColumnKind.bytes utf8 large).spec name nullable) validity mode =
        .error (.thrown "a string longer than 2 GiB") := by
  have hbuild : chunkBodies X arr ((ColumnKind.bytes utf8 large).spec name nullable) validity
      mode = (byteArrayPages X (byteStrings large arr validity) mode).map
        ByteArrayPages.bodies := by
    unfold chunkBodies
    have hs : ((ColumnKind.bytes utf8 large).spec name nullable).extract = .byteArray := rfl
    rw [if_pos hs, buildByteArrayPages_eq X h hv mode]
    rfl
  rw [hbuild]
  rcases byteArrayPages_total X (byteStrings large arr validity) mode with
    ⟨p, hp⟩ | ⟨hmode, _, herr⟩
  · left
    refine ⟨p.bodies, by rw [hp]; rfl, fun hsmall => ?_⟩
    have hvalues : (ColumnKind.bytes utf8 large).values arr validity =
        (byteStrings large arr validity).map Value.byteArray := by
      unfold byteStrings
      rw [List.map_map]
      rfl
    rw [hvalues]
    exact byteArrayPages_decode hD hp hsmall ⟨rfl, rfl⟩
  · right
    exact ⟨hmode, by rw [herr]; rfl⟩

/-- **The bodies of a chunk decode to the valid values**, for every type and mode.  Building them
    fails only on a string DELTA_BYTE_ARRAY cannot write. -/
theorem chunkBodies_decode {X : External} {D : Decoders} (hD : D.Inverts X) {k : ColumnKind}
    {name : String} {nullable : Bool} {arr : ArrowArray} (h : k.BuffersOk arr)
    {validity : Option Bytes} (hv : ValidityOk validity arr.length.toNat) (mode : Nat) :
    (∃ b, chunkBodies X arr (k.spec name nullable) validity mode = .ok b ∧
      (b.Small → b.Decode D (k.spec name nullable) (k.values arr validity))) ∨
    mode = kEncDelta ∧ chunkBodies X arr (k.spec name nullable) validity mode =
      .error (.thrown "a string longer than 2 GiB") := by
  cases k with
  | null => exact .inl ⟨⟨none, .plain, [], none⟩, rfl, fun _ => rfl⟩
  | bool =>
    obtain ⟨b, hb, hdec⟩ := @chunkBodies_bool X D name nullable arr h validity hv mode
    exact .inl ⟨b, hb, fun _ => hdec⟩
  | bytes utf8 large => exact chunkBodies_bytes hD h hv mode
  | narrow w signed hw =>
    obtain ⟨b, hb, hdec⟩ := chunkBodies_fixed hD rfl h hv mode
    exact .inl ⟨b, hb, fun _ => hdec⟩
  | int32 unsigned =>
    obtain ⟨b, hb, hdec⟩ := chunkBodies_fixed hD rfl h hv mode
    exact .inl ⟨b, hb, fun _ => hdec⟩
  | int64 unsigned =>
    obtain ⟨b, hb, hdec⟩ := chunkBodies_fixed hD rfl h hv mode
    exact .inl ⟨b, hb, fun _ => hdec⟩
  | float =>
    obtain ⟨b, hb, hdec⟩ := chunkBodies_fixed hD rfl h hv mode
    exact .inl ⟨b, hb, fun _ => hdec⟩
  | double =>
    obtain ⟨b, hb, hdec⟩ := chunkBodies_fixed hD rfl h hv mode
    exact .inl ⟨b, hb, fun _ => hdec⟩
  | fixed width pos =>
    obtain ⟨b, hb, hdec⟩ := chunkBodies_fixed hD rfl h hv mode
    exact .inl ⟨b, hb, fun _ => hdec⟩

/-! ## Pages -/

/-- The pages of a chunk hold bodies that fit them. -/
theorem ChunkPages.Built.small {X : External} {codec : CompressionCodec} {b : ChunkBodies}
    {levels : Bytes} {n : Nat} {ps : ChunkPages} (h : ps.Built X codec b levels n) : b.Small := by
  constructor
  · have hsmall := (h.encoded ps.data (by simp [ChunkPages.pages])).small
    rw [h.body, List.length_append] at hsmall
    omega
  · intro size body hb
    have hdict := h.dict
    rw [hb] at hdict
    cases hp : ps.dict with
    | none => rw [hp] at hdict; cases hdict
    | some p =>
      rw [hp] at hdict
      cases hdict with
      | some hbody hsize _ =>
        rw [← hbody]
        exact ⟨hsize, (h.encoded p (by simp [ChunkPages.pages, hp])).small⟩

/-- The entry count and body of a dictionary page, as its header gives them. -/
def Page.dictionary (p : Page) : Option (Nat × Bytes) :=
  p.header.dictionaryPageHeader.map fun h => (h.numValues, p.body)

theorem DictPage.dictionary {d : Option (Nat × Bytes)} {p : Option Page} (h : DictPage d p) :
    p.bind Page.dictionary = d := by
  cases h with
  | none => rfl
  | some hb _ hh =>
    rw [Option.bind_some, Page.dictionary, hh, ← hb]
    rfl

/-- An exception. -/
def Fault.IsThrown (f : Fault) : Prop := ∃ what, f = .thrown what

theorem Exit.Within.thrown {e : Exit} (h : e.Within Fault.IsThrown) : ∃ what, e = .thrown what := by
  cases e with
  | refused status why =>
    obtain ⟨what, hw⟩ := h
    cases hw
  | thrown what => exact ⟨what, rfl⟩
  | undefined =>
    obtain ⟨what, hw⟩ := h
    cases hw

/-- **Value pages round-trip for every type, validity and encoding mode.**  Writing the pages of a
    leaf never reads outside its buffers, and the pages it writes decode, by the encoding the data
    page's header names, to the values at the valid rows. -/
theorem valuePages_roundTrip {X : External} {D : Decoders} (hD : D.Inverts X)
    {format : Option String} {name : String} {nullable : Bool} {s : ColumnSpec}
    (hs : mapFormat format name nullable = .ok s) :
    (∃ k : ColumnKind, s = k.spec name nullable) ∧
    ∀ k : ColumnKind, s = k.spec name nullable →
      ∀ (arr : ArrowArray) (validity : Option Bytes), k.BuffersOk arr →
      ValidityOk validity arr.length.toNat →
      ∀ (levels : Bytes) (n : Nat) (hasLevels : Bool) (c : ColumnChunkMeta) (w : Writer),
      c.hasDictionary = false → c.dictionaryPageOffset = 0 →
      match writeLeafPages X arr s validity levels n hasLevels c w with
      | .ok _ w' => ∃ (dict : Option Page) (data : Page) (values : Bytes) (header : DataPageHeader),
          w' = w.put ((dict.toList ++ [data]).flatMap Page.pieces) ∧
          (∀ p ∈ dict.toList ++ [data], p.Encoded X w.codec) ∧
          data.body = levels ++ values ∧
          data.header.dataPageHeader = some header ∧
          readValues D s.type s.typeLength (k.values arr validity).length
            (dict.bind Page.dictionary) header.encoding values = some (k.values arr validity)
      | .error e _ => ∃ what, e = .thrown what := by
  refine ⟨?_, ?_⟩
  · obtain ⟨k, hk, _⟩ := mapFormat_kind hs
    exact ⟨k, hk⟩
  intro k hk arr validity hbuf hv levels n hasLevels c w hdict hoff
  have hbodies := @chunkBodies_decode X D hD k name nullable arr hbuf validity hv
  rw [← hk] at hbodies
  cases hw : writeLeafPages X arr s validity levels n hasLevels c w with
  | ok c' w' =>
    obtain ⟨b, ps, hb, hbuilt, rfl, _⟩ := writeLeafPages_ok ⟨hdict, hoff⟩ hw
    rcases hbodies w.encoding with ⟨b', hb', hdec⟩ | ⟨_, herr⟩
    · rw [hb] at hb'
      cases hb'
      have hheader : ps.data.header.dataPageHeader =
          some ⟨n, b.encoding, .rle, .rle⟩ := by
        rw [hbuilt.header]
        rfl
      refine ⟨ps.dict, ps.data, b.values, _, rfl, hbuilt.encoded, hbuilt.body, hheader, ?_⟩
      rw [hbuilt.dict.dictionary]
      exact hdec hbuilt.small
    · rw [hb] at herr
      cases herr
  | error e w' =>
    have hthrown : ∀ mode, FailsIn Fault.IsThrown (chunkBodies X arr s validity mode) := by
      intro mode f hf
      rcases hbodies mode with ⟨b, hb, _⟩ | ⟨_, herr⟩
      · rw [hb] at hf
        cases hf
      · rw [herr] at hf
        cases hf
        exact ⟨_, rfl⟩
    exact (within_writeLeafPages (fun what => ⟨what, rfl⟩) hthrown ⟨hdict, hoff⟩ hw).thrown

/-- Five strings, the third one null. -/
def names : ArrowArray :=
  .strings [0, 2, 3, 3, 5, 7] [0x61, 0x62, 0x63, 0x61, 0x62, 0x61, 0x62] (some [0b11011]) 1

theorem names_buffersOk : (ColumnKind.bytes true false).BuffersOk names := by
  refine ⟨by decide, fun _ => ⟨_, rfl⟩, by simp, by decide, ?_⟩
  intro utf8 large hk
  cases hk
  refine ⟨⟨_, rfl⟩, fun i hi => ?_⟩
  match i, hi with
  | 0, _ => exact ⟨0, 2, rfl, rfl, by decide⟩
  | 1, _ => exact ⟨2, 3, rfl, rfl, by decide⟩
  | 2, _ => exact ⟨3, 3, rfl, rfl, by decide⟩
  | 3, _ => exact ⟨3, 5, rfl, rfl, by decide⟩
  | 4, _ => exact ⟨5, 7, rfl, rfl, by decide⟩

theorem valuePages_roundTrip_names :
    ∃ (c : ColumnChunkMeta) (w : Writer) (dict : Option Page) (data : Page) (values : Bytes)
      (header : DataPageHeader),
      writeLeafPages .reference names ((ColumnKind.bytes true false).spec "name" true)
        (some [0b11011]) [] 5 true { type := .byteArray, path := ["name"] }
        freshWriter = .ok c w ∧
      data.body = values ∧ data.header.dataPageHeader = some header ∧
      readValues referenceDecoders .byteArray 0 4 (dict.bind Page.dictionary) header.encoding
        values = some [.byteArray [0x61, 0x62], .byteArray [0x63], .byteArray [0x61, 0x62],
          .byteArray [0x61, 0x62]] := by
  have hwrites : (match writeLeafPages .reference names
      ((ColumnKind.bytes true false).spec "name" true) (some [0b11011]) [] 5 true
      { type := .byteArray, path := ["name"] }
      freshWriter with
    | .ok _ _ => true
    | .error _ _ => false) = true := by decide +kernel
  have hv : ValidityOk (some [0b11011]) names.length.toNat := by
    intro bm hbm
    cases hbm
    decide
  have hformat : mapFormat (some "u") "name" true =
      .ok ((ColumnKind.bytes true false).spec "name" true) := rfl
  have h := (valuePages_roundTrip referenceDecoders_invert hformat).2 (.bytes true false) rfl names
    (some [0b11011]) names_buffersOk hv [] 5 true { type := .byteArray, path := ["name"] }
    freshWriter rfl rfl
  cases hw : writeLeafPages .reference names ((ColumnKind.bytes true false).spec "name" true)
      (some [0b11011]) [] 5 true { type := .byteArray, path := ["name"] }
      freshWriter with
  | ok c w =>
    rw [hw] at h
    obtain ⟨dict, data, values, header, _, _, hbody, hheader, hread⟩ := h
    exact ⟨c, w, dict, data, values, header, rfl, hbody, hheader, hread⟩
  | error e w =>
    rw [hw] at hwrites
    cases hwrites

end N2P
