import Mathlib.Data.Nat.Log
import N2P.FileLayout
import N2P.FlatWalk
import N2P.SchemaAgreement

/-!
# The framing of a data page

A reader of a V1 data page knows the maximum levels of its leaf from the footer's schema, and the
number of values from the page header.  From these alone it must tell the repetition stream, the
definition stream and the value bytes apart.

* `dictionaryBitWidth_eq_clog` — the widths the writer uses are the least that do.
* `readPage` — the reader.
* `leafLevels` — the level sequences of a leaf, under a list or not.
* `dataPages_framed` — every data page a writer records is split into its leaf's levels and exactly
  its value bytes.
-/

namespace N2P

open Outcome Preorder Preorder.RoseTree

/-! ## Bit widths -/

/-- The width is the logarithm, rounded up. -/
theorem dictionaryBitWidth_eq_clog {n : Nat} (h : n ≤ 2 ^ 64) :
    dictionaryBitWidth n = Nat.clog 2 n := by
  obtain ⟨hfits, hleast⟩ := @bitWidthFrom_spec n 64 0 (by simpa using h)
  apply Nat.le_antisymm
  · exact hleast _ (Nat.zero_le _) (Nat.le_pow_clog (by decide) n)
  · exact Nat.clog_le_of_le_pow hfits

/-- The width of a dictionary's indices is the least that holds every one. -/
theorem dictionaryBitWidth_least {n : Nat} (h : n ≤ 2 ^ 32) :
    dictionaryBitWidth n ≤ 32 ∧ (∀ i < n, i < 2 ^ dictionaryBitWidth n) ∧
      ∀ w, (∀ i < n, i < 2 ^ w) → dictionaryBitWidth n ≤ w := by
  rw [dictionaryBitWidth_eq_clog (by omega)]
  have hfits := Nat.le_pow_clog (by decide : 1 < 2) n
  refine ⟨Nat.clog_le_of_le_pow h, fun i hi => by omega, fun w hw => ?_⟩
  apply Nat.clog_le_of_le_pow
  cases n with
  | zero => exact Nat.zero_le _
  | succ m => exact hw m (Nat.lt_succ_self m)

/-! ## A reader of the page -/

/-- A stream of `n` levels up to `max`, behind its length; there is none where `max` is 0. -/
def readStream (D : Decoders) (max n : Nat) (bs : Bytes) : Option (List Nat × Bytes) :=
  if max = 0 then some (List.replicate n 0, bs)
  else
    let len := ByteSeq.ofLE (bs.take 4)
    if 4 + len ≤ bs.length then
      (D.rleHybrid ((bs.drop 4).take len) (Nat.clog 2 (max + 1)) n).map (·, bs.drop (4 + len))
    else none

/-- A data page of `n` values: repetition levels, definition levels, value bytes. -/
def readPage (D : Decoders) (maxRep maxDef n : Nat) (bs : Bytes) :
    Option (List Nat × List Nat × Bytes) :=
  (readStream D maxRep n bs).bind fun (reps, bs) =>
    (readStream D maxDef n bs).map fun (dfns, bs) => (reps, dfns, bs)

/-- The levels a stream of bytes stands for in the writer. -/
structure StreamOf (X : External) (max : Nat) (levels : List Nat) (bs : Bytes) : Prop where
  bounded : ∀ l ∈ levels, l ≤ max
  bytes : if max = 0 then bs = []
    else encodeDefinitionLevels X levels (dictionaryBitWidth (max + 1)) = .ok bs

/-- **A stream is read back, and what follows it is left.** -/
theorem readStream_append {X : External} {D : Decoders} (hD : D.Inverts X) {max : Nat}
    (hmax : max ≤ INT32_MAX) {levels : List Nat} {bs : Bytes} (h : StreamOf X max levels bs)
    (rest : Bytes) : readStream D max levels.length (bs ++ rest) = some (levels, rest) := by
  unfold INT32_MAX at hmax
  have hbytes := h.bytes
  unfold readStream
  by_cases h0 : max = 0
  · rw [if_pos h0] at hbytes ⊢
    have hzero : List.replicate levels.length 0 = levels := by
      refine (List.eq_replicate_of_mem fun l hl => ?_).symm
      have := h.bounded l hl
      omega
    rw [hbytes, hzero]
    rfl
  · rw [if_neg h0] at hbytes ⊢
    unfold encodeDefinitionLevels withLengthPrefix at hbytes
    split at hbytes
    · cases hbytes
    rename_i hlen
    cases hbytes
    rw [dictionaryBitWidth_eq_clog (by omega)] at hlen ⊢
    have hwidth := Nat.le_pow_clog (by decide : 1 < 2) (max + 1)
    have hsmall : Nat.clog 2 (max + 1) ≤ 32 := Nat.clog_le_of_le_pow (by omega)
    have hdecode := hD.rleHybrid levels (Nat.clog 2 (max + 1)) hsmall (fun l hl => by
      have := h.bounded l hl
      omega)
    generalize X.rleHybridEncode levels (Nat.clog 2 (max + 1)) = run at *
    have h4 : (leSize run.length).length = 4 := length_leBytes _
    have htake : (leSize run.length ++ run ++ rest).take 4 = leSize run.length := by
      rw [List.append_assoc, ← h4, List.take_left]
    have hdrop : (leSize run.length ++ run ++ rest).drop 4 = run ++ rest := by
      rw [List.append_assoc, ← h4, List.drop_left]
    have hlt : run.length < 2 ^ 32 := by
      unfold UINT32_MAX at hlen
      omega
    dsimp only
    rw [htake, ofLE_leSize hlt, if_pos (by simp [h4]), ← List.drop_drop, hdrop,
      List.take_left, List.drop_left, hdecode]
    rfl

/-! ## The levels of a leaf -/

/-- The repetition and definition levels of a leaf's entries. -/
def leafLevels (leaf : LeafSpec) (batch : ArrowArray) : Except Fault (List Nat × List Nat) :=
  if leaf.hasList then (shredLeaf leaf batch).map fun r => (r.2.rep, r.2.dfn)
  else
    match flatNodes leaf batch with
    | .error e => .error e
    | .ok (nodes, _) =>
      let n := toSize batch.length
      let level (i : Nat) : Except Fault (List Nat) :=
        (flatLevel (leaf.col.extract = .null) nodes leaf.pathOptional i 0).map fun l => [l.1]
      (flatMapM level (List.range n)).map fun dfns => (List.replicate n 0, dfns)

/-- A row's level counts the OPTIONAL nodes above its first null. -/
theorem flatLevel_bounds {nullLeaf : Bool} {i : Nat} (nodes : List ArrowArray) :
    ∀ (opts : List Bool) (d d' : Nat) (p : Bool), nodes.length = opts.length →
      flatLevel nullLeaf nodes opts i d = .ok (d', p) →
      d' ≤ d + opts.count true ∧ (p = true ↔ d' = d + opts.count true) := by
  induction nodes with
  | nil =>
    intro opts d d' p hlen h
    have hopts : opts = [] := List.eq_nil_of_length_eq_zero hlen.symm
    subst hopts
    cases h
    exact ⟨Nat.le_add_right d _, iff_of_true rfl rfl⟩
  | cons a as ih =>
    intro opts d d' p hlen h
    cases opts with
    | nil => cases hlen
    | cons optional opts =>
      have hlen' : as.length = opts.length := by simpa using hlen
      rw [flatLevel] at h
      cases optional with
      | false =>
        rw [if_pos (by decide)] at h
        simpa using ih opts d d' p hlen' h
      | true =>
        rw [if_neg (by simp)] at h
        rw [List.count_cons_self]
        split at h
        · cases h
          exact ⟨by omega, iff_of_false (by simp) (by omega)⟩
        split at h
        · cases h
        split at h
        · cases h
        · cases h
          exact ⟨by omega, iff_of_false (by simp) (by omega)⟩
        · obtain ⟨hle, hmax⟩ := ih opts (d + 1) d' p hlen' h
          rw [hmax]
          exact ⟨by omega, by omega⟩

/-- Where every node is REQUIRED, every row has level 0. -/
theorem flatLevel_required {nullLeaf : Bool} {i : Nat} (nodes : List ArrowArray) :
    ∀ (opts : List Bool) (d : Nat), nodes.length = opts.length → opts.count true = 0 →
      flatLevel nullLeaf nodes opts i d = .ok (d, true) := by
  induction nodes with
  | nil => exact fun _ _ _ _ => rfl
  | cons a as ih =>
    intro opts d hlen hcount
    cases opts with
    | nil => cases hlen
    | cons optional opts =>
      cases optional with
      | false =>
        rw [flatLevel, if_pos (by decide)]
        exact ih opts d (by simpa using hlen) (by simpa using hcount)
      | true =>
        rw [List.count_cons_self] at hcount
        omega

theorem length_followIdx {idx : List Nat} : ∀ {a : ArrowArray} {nodes : List ArrowArray},
    followIdx idx a = .ok nodes → nodes.length = idx.length := by
  induction idx with
  | nil =>
    intro a nodes h
    cases h
    rfl
  | cons i is ih =>
    intro a nodes h
    rw [followIdx] at h
    split at h
    · cases h
    split at h
    · cases h
    obtain ⟨below, hbelow, rfl⟩ := map_eq_ok.mp h
    rw [List.length_cons, List.length_cons, ih hbelow]

/-- The path of a leaf outside lists: one flag for each index, and the maximum level. -/
theorem flat_path {columns : List ArrowSchema} {leaf : LeafSpec} (h : LeafOfColumns columns leaf)
    (hflat : leaf.hasList = false) :
    leaf.pathIdx.length = leaf.pathOptional.length ∧
      leaf.pathOptional.count true = leaf.maxDefLevel ∧ leaf.maxRepLevel = 0 := by
  obtain ⟨steps, hsteps⟩ := h.steps
  have hf := hsteps.flat hflat
  obtain ⟨ss, st, rfl, hk, hss, i, hidx⟩ := hf.structs
  refine ⟨?_, ?_, ?_⟩
  · rw [hidx, hf.opt]
    simp
  · rw [hf.opt, hf.maxDef]
    clear hsteps hf hidx
    induction ss with
    | nil => cases hopt : st.optional <;> simp [defLevels, hk, hopt, StepKind.isList]
    | cons s ss ih =>
      have hs := hss s List.mem_cons_self
      have ih := ih fun s' hs' => hss s' (List.mem_cons_of_mem s hs')
      rw [List.cons_append, List.map_cons, defLevels, ← ih, hs, List.count_cons]
      cases s.optional <;> simp [StepKind.isList, Nat.add_comm]
  · obtain ⟨_, _, _, _, _, _, _, rfl, _⟩ := hsteps
    simpa [NodeCall.leaf, leafSpec] using hflat

/-- `rle_bitmap_encode` gives the stream of the bits, one bit wide. -/
def BitmapLevels (X : External) : Prop :=
  ∀ (bm : Bytes) (n : Nat), n ≤ 8 * bm.length →
    X.rleBitmapEncode bm n = X.rleHybridEncode ((List.range n).map fun i =>
      (rowValid (some bm) i).toNat) 1

/-- What a leaf's level bytes stand for. -/
structure LevelsOf (X : External) (leaf : LeafSpec) (batch : ArrowArray) (inp : LeafInputs)
    (reps dfns : List Nat) : Prop where
  levels : leafLevels leaf batch = .ok (reps, dfns)
  repsLength : reps.length = inp.numLevels
  dfnsLength : dfns.length = inp.numLevels
  bytes : ∃ repBytes defBytes, StreamOf X leaf.maxRepLevel reps repBytes ∧
    StreamOf X leaf.maxDefLevel dfns defBytes ∧ inp.levels = repBytes ++ defBytes

/-- A leaf under a list has both streams. -/
theorem levelsOf_list {X : External} {columns : List ArrowSchema} {nodes : List SchemaNode}
    {leaves : List LeafSpec} (h : flattenColumns columns 0 ([], []) = .ok (nodes, leaves))
    {leaf : LeafSpec} (hleaf : leaf ∈ leaves) (hlist : leaf.hasList = true) {batch : ArrowArray}
    {inp : LeafInputs} (hinp : leafInputs X leaf batch = .ok inp) :
    ∃ reps dfns, LevelsOf X leaf batch inp reps dfns := by
  obtain ⟨hst, hD, hR⟩ := list_leaf_steps h hleaf hlist
  rw [maxDef_stepRepetitions] at hD
  rw [maxRep_stepRepetitions] at hR
  have hof := leafOf_of_flattenColumns h leaf hleaf
  obtain ⟨hrepWidth, hdefWidth⟩ := leaf_bitWidths hof
  have hpos : 0 < leaf.maxRepLevel := by
    obtain ⟨_, _, _, c, spec, _, _, rfl⟩ := hof
    simpa [NodeCall.leaf, leafSpec] using hlist
  have hle := repLevels_le_defLevels leaf.steps
  obtain ⟨leafArr, sh, repBytes, defBytes, hshred, hrep, hdef, rfl⟩ := leafInputs_list hlist hinp
  obtain ⟨hlengths, hreps, hdfns⟩ := shredLeaf_levels hst hshred
  refine ⟨sh.rep, sh.dfn, ?_, hlengths, rfl, repBytes, defBytes, ⟨?_, ?_⟩, ⟨?_, ?_⟩, rfl⟩
  · unfold leafLevels
    rw [if_pos hlist, hshred]
    rfl
  · rw [hR]
    exact hreps
  · rw [if_neg (by omega), ← hrepWidth]
    exact hrep
  · rw [hD]
    exact hdfns
  · rw [if_neg (by omega), ← hdefWidth]
    exact hdef

/-- The level of every row, and the flags of the rows that end at a value. -/
theorem flatRows_ok {leaf : LeafSpec} {nodes : List ArrowArray} {n : Nat} (hn : n < 2 ^ 63)
    (hlen : nodes.length = leaf.pathOptional.length)
    (hopt : leaf.pathOptional.count true = leaf.maxDefLevel) {fl : FlatLevels}
    (h : flatRows leaf nodes n = .ok fl) :
    ∃ level : Nat → Nat × Bool,
      (∀ i < n, flatLevel (leaf.col.extract = .null) nodes leaf.pathOptional i 0 = .ok (level i) ∧
        (level i).1 ≤ leaf.maxDefLevel ∧
        ByteSeq.getBit fl.present i = some (decide ((level i).1 = leaf.maxDefLevel))) ∧
      (1 < leaf.maxDefLevel → fl.dfn = (List.range n).map fun i => (level i).1) ∧
      fl.present.length = (n + 7) / 8 ∧
      fl.presentCount = (validRows (some fl.present) n).length := by
  rw [flatRows_eq leaf nodes hn] at h
  split at h
  · cases h
  -- a loop that ends well had a level in every row
  have hrow : ∀ i, ∃ l : Nat × Bool, i < n →
      flatLevel (leaf.col.extract = .null) nodes leaf.pathOptional i 0 = .ok l := by
    intro i
    by_cases hi : i < n
    · obtain ⟨s, t, hst⟩ := foldlM_eq_ok h i (List.mem_range.mpr hi)
      unfold flatRow at hst
      split at hst
      · cases hst
      rename_i d p hl
      exact ⟨(d, p), fun _ => hl⟩
    · exact ⟨(0, false), fun hi' => absurd hi' hi⟩
  choose level hlevel using hrow
  have hbounds : ∀ i < n, (level i).1 ≤ leaf.maxDefLevel ∧
      ((level i).2 = true ↔ (level i).1 = leaf.maxDefLevel) := by
    intro i hi
    have := flatLevel_bounds nodes leaf.pathOptional 0 (level i).1 (level i).2 hlen (hlevel i hi)
    rw [hopt] at this
    simpa using this
  obtain ⟨bs, hbs, hbits⟩ := setAll_rows n fun i => (level i).2
  rw [flatRows_fold (fun i hi => ⟨hlevel i hi, (hbounds i hi).2.mp⟩) hbs] at h
  cases h
  refine ⟨level, fun i hi => ⟨hlevel i hi, (hbounds i hi).1, ?_⟩, fun hD => ?_, ?_, ?_⟩
  · have hiff := (hbounds i hi).2
    rw [hbits i hi]
    cases hp : (level i).2 with
    | true => simp [hiff.mp hp]
    | false =>
      have hne : (level i).1 ≠ leaf.maxDefLevel := fun he => by simp [hp] at hiff; exact hiff he
      simp [hne]
  · simp [hD]
  · rw [ByteSeq.length_setAll hbs, List.length_replicate]
  · have hrows : validRows (some bs) n = (List.range n).filter fun i => (level i).2 := by
      apply List.filter_congr
      intro i hi
      simp [rowValid, hbits i (List.mem_range.mp hi)]
    rw [hrows]

/-- The levels of a path with one optional node are the bits of its mask. -/
theorem levels_eq_rowValid {bm : Bytes} {level : Nat → Nat} {n : Nat}
    (h : ∀ i < n, level i ≤ 1 ∧ ByteSeq.getBit bm i = some (decide (level i = 1))) :
    (List.range n).map level = (List.range n).map fun i => (rowValid (some bm) i).toNat := by
  refine List.map_congr_left fun i hi => ?_
  obtain ⟨hle, hbit⟩ := h i (List.mem_range.mp hi)
  have hvalid : rowValid (some bm) i = decide (level i = 1) := by simp [rowValid, hbit]
  rw [hvalid]
  by_cases hl : level i = 1
  · simp [hl]
  · have hzero : level i = 0 := by omega
    simp [hzero]

/-- A leaf outside lists has no repetition stream, and a definition stream unless every node is
    REQUIRED. -/
theorem levelsOf_flat {X : External} (hbits : BitmapLevels X) {columns : List ArrowSchema}
    {leaf : LeafSpec} (hof : LeafOfColumns columns leaf) (hflat : leaf.hasList = false)
    {batch : ArrowArray} {inp : LeafInputs} (hinp : leafInputs X leaf batch = .ok inp)
    (hn : inp.numLevels ≤ INT32_MAX) : ∃ reps dfns, LevelsOf X leaf batch inp reps dfns := by
  unfold INT32_MAX at hn
  obtain ⟨hidx, hopt, hR⟩ := flat_path hof hflat
  obtain ⟨_, hdefWidth⟩ := leaf_bitWidths hof
  obtain ⟨nodes, child, p, _, _, hnodes, hfollow, _, _, hlv, rfl⟩ := leafInputs_flat hflat hinp
  have hn : toSize batch.length ≤ 2 ^ 31 - 1 := hn
  have hlen : nodes.length = leaf.pathOptional.length := by
    rw [length_followIdx hfollow, hidx]
  generalize hnn : toSize batch.length = n at *
  have hleaf : ∀ level : Nat → Nat × Bool,
      (∀ i < n, flatLevel (leaf.col.extract = .null) nodes leaf.pathOptional i 0 =
        .ok (level i)) →
      leafLevels leaf batch =
        .ok (List.replicate n 0, (List.range n).map fun i => (level i).1) := by
    intro level h
    unfold leafLevels
    rw [if_neg (by simp [hflat]), hnodes]
    dsimp only
    rw [hnn, flatMapM_ok (g := fun i => [(level i).1]) (fun i hi => by
      rw [h i (List.mem_range.mp hi)]
      rfl), ← List.map_eq_flatMap]
    rfl
  have hreps : StreamOf X leaf.maxRepLevel (List.replicate n 0) [] := by
    refine ⟨fun l hl => ?_, by rw [if_pos hR]⟩
    rw [List.eq_of_mem_replicate hl]
    exact Nat.zero_le _
  rcases flatLevels_ok hlv with ⟨hD, fl, p', hfl, hp, heq⟩ | ⟨hD, heq⟩
  · cases heq
    obtain ⟨level, hrows, hdfn, hbytes, _⟩ := flatRows_ok (by omega) hlen hopt hfl
    refine ⟨_, _, hleaf level fun i hi => (hrows i hi).1, by simp, by simp, [], p, hreps,
      ⟨fun l hl => ?_, ?_⟩, rfl⟩
    · obtain ⟨i, hi, rfl⟩ := List.mem_map.mp hl
      exact (hrows i (List.mem_range.mp hi)).2.1
    · rw [if_neg (by omega)]
      by_cases h1 : leaf.maxDefLevel = 1
      · rw [if_pos h1] at hp
        have hwidth : dictionaryBitWidth 2 = 1 := by decide
        have hone : ∀ i < n, (level i).1 ≤ 1 ∧
            ByteSeq.getBit fl.present i = some (decide ((level i).1 = 1)) := by
          intro i hi
          obtain ⟨_, hle, hbit⟩ := hrows i hi
          rw [h1] at hle hbit
          exact ⟨hle, hbit⟩
        have hlevels := levels_eq_rowValid hone
        rw [h1, hwidth]
        unfold encodeDefinitionLevels
        rw [hlevels, ← hbits fl.present n (by omega)]
        exact hp
      · rw [if_neg h1] at hp
        rw [← hdfn (by omega), ← hdefWidth]
        exact hp
  · cases heq
    refine ⟨_, _, hleaf (fun _ => (0, true)) fun i _ => ?_, by simp, by simp, [], [], hreps,
      ⟨fun l hl => ?_, by rw [if_pos hD]⟩, rfl⟩
    · exact flatLevel_required nodes leaf.pathOptional 0 hlen (by rw [hopt, hD])
    · obtain ⟨i, _, rfl⟩ := List.mem_map.mp hl
      exact Nat.zero_le _

/-! ## Every data page -/

/-- A reader that has the leaf's path in the footer's schema, and the page's header, finds the
    leaf's levels and the value bytes. -/
structure Framed (D : Decoders) (batch : ArrowArray) (path : List SchemaElement) (x : Chunk) :
    Prop where
  pieces : ∃ hdr reps dfns, x.pages.data.header.dataPageHeader = some hdr ∧
    leafLevels x.leaf batch = .ok (reps, dfns) ∧
    readPage D (readerMaxRep path) (readerMaxDef path) hdr.numValues x.pages.data.body =
      some (reps, dfns, x.bodies.values)

theorem levelsOf {X : External} (hbits : BitmapLevels X) {columns : List ArrowSchema}
    {nodes : List SchemaNode} {leaves : List LeafSpec}
    (h : flattenColumns columns 0 ([], []) = .ok (nodes, leaves)) {leaf : LeafSpec}
    (hleaf : leaf ∈ leaves) {batch : ArrowArray} {inp : LeafInputs}
    (hinp : leafInputs X leaf batch = .ok inp) (hn : inp.numLevels ≤ INT32_MAX) :
    ∃ reps dfns, LevelsOf X leaf batch inp reps dfns := by
  cases hl : leaf.hasList with
  | true => exact levelsOf_list h hleaf hl hinp
  | false => exact levelsOf_flat hbits (leafOf_of_flattenColumns h leaf hleaf) hl hinp hn

/-- A leaf has no more repetition than definition levels. -/
theorem maxRep_le_maxDef {path : List SchemaElement} : readerMaxRep path ≤ readerMaxDef path := by
  unfold readerMaxRep readerMaxDef
  apply List.countP_mono_left
  intro e _ he
  simpa using Or.inr (of_decide_eq_true he)

/-- The page of a chunk is split where the writer joined it. -/
theorem Chunk.Of.framed {X : External} {D : Decoders} (hD : D.Inverts X) {batch : ArrowArray}
    {codec : CompressionCodec} {encoding : Nat} {x : Chunk} (h : x.Of X batch codec encoding)
    {reps dfns : List Nat} (hlevels : LevelsOf X x.leaf batch x.inp reps dfns)
    {path : List SchemaElement} (hpath : LeafAgrees path x.leaf)
    (hint : x.leaf.maxDefLevel ≤ INT32_MAX) : Framed D batch path x := by
  obtain ⟨repBytes, defBytes, hrep, hdef, hbytes⟩ := hlevels.bytes
  have hle := @maxRep_le_maxDef path
  rw [← hpath.maxRep] at hrep
  rw [← hpath.maxDef] at hdef hint
  refine ⟨_, reps, dfns, by rw [h.built.header]; rfl, hlevels.levels, ?_⟩
  dsimp only
  unfold readPage
  have hreps := readStream_append hD (by omega) hrep (defBytes ++ x.bodies.values)
  have hdfns := readStream_append hD hint hdef x.bodies.values
  rw [hlevels.repsLength] at hreps
  rw [hlevels.dfnsLength] at hdfns
  rw [h.built.body, hbytes, List.append_assoc, hreps, Option.bind_some]
  dsimp only
  rw [hdfns]
  rfl

/-- **Every data page is framed as a reader of the schema expects.**  Whatever calls led to it, the
    writer's recorded chunks follow the paths of the tree a reader decodes from the footer's schema,
    and from the maximum levels of its path alone the reader splits each data page into the leaf's
    repetition levels, its definition levels, and exactly the value bytes.  The widths in use are the
    least that do.  A level is an `int` in the source. -/
theorem dataPages_framed {X : External} {D : Decoders} (hD : D.Inverts X) (hbits : BitmapLevels X)
    {w : Writer} (hw : Reachable X w) (hint : ∀ leaf ∈ w.leaves, leaf.maxDefLevel ≤ INT32_MAX) :
    (∃ gs, Recorded X w gs ∧ ∀ g ∈ gs, ∃ t,
      decode SchemaElement.childCount (fileMetaData w).schema = some t ∧
      List.Forall₂ (Framed D g.batch) ((paths SchemaElement.isPrimitive t).map List.tail)
        g.chunks) ∧
    (∀ m ≤ INT32_MAX, dictionaryBitWidth (m + 1) = Nat.clog 2 (m + 1)) ∧
    ∀ n ≤ 2 ^ 32, dictionaryBitWidth n ≤ 32 ∧ (∀ i < n, i < 2 ^ dictionaryBitWidth n) ∧
      ∀ width, (∀ i < n, i < 2 ^ width) → dictionaryBitWidth n ≤ width := by
  obtain ⟨gs, hrec⟩ := hw.recorded
  refine ⟨⟨gs, hrec, fun g hg => ?_⟩, fun m hm => ?_, fun n hn => dictionaryBitWidth_least hn⟩
  · have hlocked : w.schemaLocked = true := by
      cases hl : w.schemaLocked with
      | true => rfl
      | false =>
        rw [hrec.unlocked hl] at hg
        cases hg
    obtain ⟨_, columns, hflat, htop⟩ := hrec.locked hlocked
    obtain ⟨ts, bs, hf⟩ := flattenColumns_spec columns 0 _ _ hflat
    have htree := footerTree_of_flattened hf htop.symm
    refine ⟨_, htree.decode, ?_⟩
    have hpaths := htree.leaves
    have hgroup := hrec.of g hg
    rw [← hgroup.leaves, List.forall₂_map_right_iff] at hpaths
    have hmem : List.Forall₂ (fun _ x => x ∈ g.chunks)
        ((paths SchemaElement.isPrimitive
          (.node (rootElement w.topChildren) (maps schemaElement ts))).map List.tail) g.chunks :=
      List.forall₂_iff_get.mpr ⟨hpaths.length_eq, fun i _ hi => List.get_mem g.chunks ⟨i, hi⟩⟩
    refine (List.Forall₂.mp (fun path x hpath hx => ?_) hpaths hmem)
    have hof := hgroup.of x hx
    have hleaf : x.leaf ∈ w.leaves := hgroup.leaves ▸ List.mem_map_of_mem hx
    obtain ⟨reps, dfns, hlevels⟩ := levelsOf hbits hflat hleaf hof.inputs hof.built.count
    exact hof.framed hD hlevels hpath (hint x.leaf hleaf)
  · unfold INT32_MAX at hm
    exact dictionaryBitWidth_eq_clog (by omega)

theorem dataPages_framed_listBatch :
    ∃ w gs, n2pWriterWriteBatch .reference freshWriter (some listSchema) (some listBatch.array) =
        some (.ok, w) ∧ Recorded .reference w gs ∧ gs ≠ [] ∧
      ∀ g ∈ gs, ∃ t, decode SchemaElement.childCount (fileMetaData w).schema = some t ∧
        List.Forall₂ (Framed referenceDecoders g.batch)
          ((paths SchemaElement.isPrimitive t).map List.tail) g.chunks := by
  have hfacts : (n2pWriterWriteBatch .reference freshWriter (some listSchema)
      (some listBatch.array)).map (fun r => (r.1, r.2.leaves, r.2.rowGroups.length)) =
      some (.ok, [listLeaf], 1) := by decide +kernel
  obtain ⟨⟨status, w⟩, hcall, heq⟩ := Option.map_eq_some_iff.mp hfacts
  simp only [Prod.mk.injEq] at heq
  obtain ⟨rfl, hleaves, hgroups⟩ := heq
  have hreach : Reachable .reference w := by
    refine ⟨.fresh 8191 none, "out.parquet", [.writeBatch (some listSchema) (some listBatch)],
      [.ok], run_cons.mpr ⟨.ok, w, [], hcall, rfl, rfl⟩⟩
  obtain ⟨⟨gs, hrec, hall⟩, _⟩ := dataPages_framed referenceDecoders_invert (fun _ _ _ => rfl) hreach
    (by rw [hleaves]; decide)
  refine ⟨w, gs, hcall, hrec, ?_, hall⟩
  rintro rfl
  rw [hrec.groups] at hgroups
  cases hgroups

end N2P
