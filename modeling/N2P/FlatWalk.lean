import N2P.LevelStreams

/-!
# The row loop and the Shredder

A leaf outside lists has its levels from a loop over rows and nodes that reads `pathOptional` and
the bitmaps alone; a leaf under a list has them from the Shredder, which walks the steps and goes by
the null counts.  On a path of structs both can be run, the Shredder on the steps `flatten_node`
built there and then dropped.

* `visit_flat` — on one row of well-formed arrays both end at the same level and presence.
* `foldlM_flatRow` — what the row loop leaves behind, in terms of its rows.
* `flatWalk_agrees` — for any such leaf and batch, the loop and the Shredder agree on every level,
  presence bit and count, and at max level 1 the bitmap is the level sequence.
-/

namespace N2P

open Outcome Shredder

/-! ## One row -/

/-- An array on a path of structs, as the Arrow format promises it for `n` rows; a REQUIRED node
    has no null. -/
structure RowsOk (leaf : LeafSpec) (n : Nat) (st : PathStep) (a : ArrowArray) : Prop where
  node : NodeOk (leaf.nullStep st) a
  length : a.length = n
  buffers : 0 < a.nBuffers → a.buffers ≠ none
  noNulls : st.optional = false → ∀ e < n, leaf.nullAt st a e = false

/-- The bit the row loop reads is the array's. -/
theorem RowsOk.validBit {leaf : LeafSpec} {n : Nat} {st : PathStep} {a : ArrowArray}
    (h : RowsOk leaf n st a) {e : Nat} (he : e < n) :
    ∃ bm, a.validity = .ok bm ∧ validBit bm e = .ok (a.bitAt e) := by
  unfold ArrowArray.validity ArrowArray.bitAt
  by_cases hnb : a.nBuffers > 0
  · rw [if_pos hnb, if_neg (by omega)]
    rcases h.node.bitmap with hb | hb | ⟨v, rest, hb, hbits⟩
    · omega
    · exact absurd hb (h.buffers hnb)
    · have hb0 : a.buffer 0 = .ok v := by simp [ArrowArray.buffer, hb]
      have hq : a.buffer? 0 = v := by simp [ArrowArray.buffer?, hb]
      refine ⟨v, hb0, ?_⟩
      rw [hq]
      cases v with
      | none => rfl
      | some bm =>
        have hlen := hbits bm rfl
        rw [h.length] at hlen
        have hsome : (ByteSeq.getBit bm e).isSome := ByteSeq.getBit_isSome.mpr (by omega)
        obtain ⟨b, hbit⟩ := Option.isSome_iff_exists.mp hsome
        simp [N2P.validBit, readBit, hbit]
  · rw [if_neg hnb, if_pos (by omega)]
    exact ⟨none, rfl, rfl⟩

/-- One node of the row loop: it ends at an OPTIONAL node's null. -/
theorem flatLevel_cons {leaf : LeafSpec} {n : Nat} {st : PathStep} {a : ArrowArray}
    (h : RowsOk leaf n st a) {e : Nat} (he : e < n) {nullLeaf : Bool} {as : List ArrowArray}
    (hnull : leaf.nullStep st = (as.isEmpty && nullLeaf)) (opts : List Bool) (d : Nat) :
    flatLevel nullLeaf (a :: as) (st.optional :: opts) e d =
      if st.optional && leaf.nullAt st a e then .ok (d, false)
      else flatLevel nullLeaf as opts e (d + st.defStep) := by
  rw [flatLevel, ← hnull]
  unfold PathStep.defStep LeafSpec.nullAt ArrowArray.slotNull
  cases hopt : st.optional with
  | false => rfl
  | true =>
    cases hn : leaf.nullStep st with
    | true => rfl
    | false =>
      obtain ⟨bm, hbm, hbit⟩ := h.validBit he
      simp only [Bool.not_true, Bool.false_eq_true, if_false, hbm, hbit]
      cases a.bitAt e <;> rfl

/-- The loop's answer for a row as the entry it stands for. -/
def rowEntry (r e : Nat) (level : Nat × Bool) : Visit :=
  ⟨r, level.1, if level.2 then some e else none⟩

/-- **On a path of structs the row loop and the Shredder end alike.** -/
theorem visit_flat {leaf : LeafSpec} {n e : Nat} (he : e < n) {st : PathStep}
    (hk : st.kind = .leaf) (ss : List PathStep) (hss : ∀ s ∈ ss, s.kind = .struct)
    {a : ArrowArray} {nodes : List ArrowArray}
    (hn : followIdx (ss.map (·.child)) a = .ok nodes)
    (hok : List.Forall₂ (RowsOk leaf n) (ss ++ [st]) (a :: nodes)) (r d : Nat) :
    ∃ level, flatLevel (leaf.col.extract = .null) (a :: nodes) ((ss ++ [st]).map (·.optional)) e d =
        .ok level ∧
      visit leaf (ss ++ [st]) a e r d = .ok [rowEntry r e level] := by
  induction ss generalizing a nodes d with
  | nil =>
    cases hn
    obtain ⟨ha, _⟩ := List.forall₂_cons.mp hok
    have hslot := ha.node.slot (by rw [ha.length]; omega) fun hopt => ha.noNulls hopt e he
    have hnull : leaf.nullStep st = (([] : List ArrowArray).isEmpty &&
        decide (leaf.col.extract = .null)) := by
      simp [LeafSpec.nullStep, hk]
    rw [List.nil_append, List.map_singleton, flatLevel_cons ha he hnull]
    cases hend : st.optional && leaf.nullAt st a e with
    | true =>
      rw [hend] at hslot
      exact ⟨_, rfl, visit_null hslot⟩
    | false =>
      rw [hend] at hslot
      exact ⟨_, rfl, visit_leaf hslot hk⟩
  | cons s ss ih =>
    have hs := hss s List.mem_cons_self
    rw [List.map_cons, followIdx] at hn
    split at hn
    · cases hn
    rename_i hc
    push Not at hc
    split at hn
    · cases hn
    rename_i next hnext
    obtain ⟨below, hbelow, rfl⟩ := map_eq_ok.mp hn
    obtain ⟨ha, hrest⟩ := List.forall₂_cons.mp hok
    have hslot := ha.node.slot (by rw [ha.length]; omega) fun hopt => ha.noNulls hopt e he
    have hnull : leaf.nullStep s = ((next :: below).isEmpty &&
        decide (leaf.col.extract = .null)) := by
      simp [LeafSpec.nullStep, hs]
    rw [List.cons_append, List.map_cons, flatLevel_cons ha he hnull]
    cases hend : s.optional && leaf.nullAt s a e with
    | true =>
      rw [hend] at hslot
      exact ⟨_, rfl, visit_null hslot⟩
    | false =>
      rw [hend] at hslot
      have hchild : structChild leaf s a = .ok next :=
        structChild_eq_ok.mpr ⟨hc.2, ArrowArray.child_eq_ok.mp hnext⟩
      rw [visit_struct hslot hs hchild]
      apply ih (fun s' hs' => hss s' (List.mem_cons_of_mem s hs')) hbelow hrest

/-! ## The row loop -/

/-- One row of the loop, from its level and presence. -/
theorem flatRow_eq {leaf : LeafSpec} {nodes : List ArrowArray} {i : Nat} {level : Nat × Bool}
    (h : flatLevel (leaf.col.extract = .null) nodes leaf.pathOptional i 0 = .ok level)
    (hmax : level.2 = true → level.1 = leaf.maxDefLevel) (out : FlatLevels) :
    flatRow leaf nodes out i =
      match if level.2 then ByteSeq.setBit out.present i else some out.present with
      | none => .error .undefined
      | some bs =>
        .ok { dfn := if leaf.maxDefLevel > 1 then out.dfn ++ [level.1] else out.dfn
              present := bs
              presentCount := out.presentCount + if level.2 then 1 else 0 } := by
  obtain ⟨d, p⟩ := level
  unfold flatRow
  rw [h]
  cases p with
  | false =>
    by_cases hD : leaf.maxDefLevel > 1
    · simp [hD]
    · simp [hD]
  | true =>
    dsimp only
    have hd : d = leaf.maxDefLevel := hmax rfl
    rw [if_pos ⟨rfl, hd⟩]
    by_cases hD : leaf.maxDefLevel > 1
    · cases hb : ByteSeq.setBit out.present i <;> simp only [if_pos hD, if_true, hb]
    · cases hb : ByteSeq.setBit out.present i <;> simp only [if_neg hD, if_true, hb]

/-- **What the row loop leaves behind.** -/
theorem foldlM_flatRow {leaf : LeafSpec} {nodes : List ArrowArray} {level : Nat → Nat × Bool}
    (is : List Nat) (h : ∀ i ∈ is, flatLevel (leaf.col.extract = .null) nodes leaf.pathOptional i 0 =
      .ok (level i) ∧ ((level i).2 = true → (level i).1 = leaf.maxDefLevel)) (out : FlatLevels) :
    is.foldlM (flatRow leaf nodes) out =
      match ByteSeq.setAll out.present (is.filter fun i => (level i).2) with
      | none => .error .undefined
      | some bs =>
        .ok { dfn :=
                if leaf.maxDefLevel > 1 then out.dfn ++ is.map (fun i => (level i).1) else out.dfn
              present := bs
              presentCount := out.presentCount + (is.filter fun i => (level i).2).length } := by
  induction is generalizing out with
  | nil =>
    simp [ByteSeq.setAll]
    rfl
  | cons i is ih =>
    obtain ⟨hi, hmax⟩ := h i List.mem_cons_self
    have ih := ih fun j hj => h j (List.mem_cons_of_mem i hj)
    rw [List.foldlM_cons, flatRow_eq hi hmax]
    cases hp : (level i).2 with
    | false =>
      rw [List.filter_cons_of_neg (by simp [hp])]
      show List.foldlM (flatRow leaf nodes) _ is = _
      rw [ih]
      by_cases hD : leaf.maxDefLevel > 1
      · simp [hD]
      · simp [hD]
    | true =>
      rw [List.filter_cons_of_pos (p := fun i => (level i).2) hp]
      have hall : ByteSeq.setAll out.present (i :: is.filter fun i => (level i).2) =
          (ByteSeq.setBit out.present i).bind fun bs =>
            ByteSeq.setAll bs (is.filter fun i => (level i).2) := rfl
      rw [hall, if_pos rfl]
      cases hb : ByteSeq.setBit out.present i with
      | none => rfl
      | some bs =>
        show List.foldlM (flatRow leaf nodes) _ is = _
        rw [ih, Option.bind_some]
        by_cases hD : leaf.maxDefLevel > 1
        · simp [hD, Nat.add_assoc, Nat.add_comm 1]
        · simp [hD, Nat.add_assoc, Nat.add_comm 1]

/-! ## A whole column -/

/-- The leaf with the steps `flatten_node` built for it. -/
def LeafSpec.withSteps (leaf : LeafSpec) (steps : List PathStep) : LeafSpec := { leaf with steps }

/-- The output before the first row, over a leaf array of `n` rows. -/
def Shredded.blank (n : Nat) : Shredded :=
  { rep := [], dfn := [], present := List.replicate ((n + 7) / 8) 0, presentCount := 0 }

theorem RowsOk.withSteps {leaf : LeafSpec} {n : Nat} {st : PathStep} {a : ArrowArray}
    (h : RowsOk leaf n st a) (steps : List PathStep) : RowsOk (leaf.withSteps steps) n st a :=
  ⟨h.node, h.length, h.buffers, h.noNulls⟩

/-- A path of structs has no list. -/
theorem stepsFrom_structs {k : Nat} {st : PathStep} (hk : st.kind = .leaf) (ss : List PathStep)
    (hss : ∀ s ∈ ss, s.kind = .struct) : StepsFrom k (ss ++ [st]) := by
  induction ss with
  | nil => simp [StepsFrom, hk]
  | cons s ss ih =>
    have hs := hss s List.mem_cons_self
    simp only [List.cons_append, StepsFrom, hs]
    exact ih fun s' hs' => hss s' (List.mem_cons_of_mem s hs')

/-- The level and presence of every row, as the loop and the Shredder have them. -/
structure RowsAgree (leaf : LeafSpec) (steps : List PathStep) (arrays : List ArrowArray)
    (column : ArrowArray) (n : Nat) (level : Nat → Nat × Bool) : Prop where
  loop : ∀ i < n, flatLevel (leaf.col.extract = .null) arrays leaf.pathOptional i 0 = .ok (level i)
  shredder : ∀ i < n, visit (leaf.withSteps steps) steps column i 0 0 = .ok [rowEntry 0 i (level i)]
  bounded : ∀ i < n, (level i).1 ≤ leaf.maxDefLevel
  max : ∀ i < n, (level i).2 = true ↔ (level i).1 = leaf.maxDefLevel

theorem rowsAgree {leaf : LeafSpec} {steps : List PathStep} (hst : FlatSteps leaf steps) {n : Nat}
    {batch : ArrowArray} {arrays : List ArrowArray} (hn : followIdx leaf.pathIdx batch = .ok arrays)
    (hok : List.Forall₂ (RowsOk leaf n) steps arrays) :
    ∃ column level, arrays.head? = some column ∧ RowsAgree leaf steps arrays column n level := by
  obtain ⟨ss, st, rfl, hk, hss, i, hidx⟩ := hst.structs
  rw [hidx, followIdx] at hn
  split at hn
  · cases hn
  split at hn
  · cases hn
  rename_i column _
  obtain ⟨below, hbelow, rfl⟩ := map_eq_ok.mp hn
  have hok' := hok.imp fun s a h => h.withSteps (ss ++ [st])
  have hrow : ∀ e : Nat, ∃ level : Nat × Bool, e < n →
      flatLevel (leaf.col.extract = .null) (column :: below) leaf.pathOptional e 0 = .ok level ∧
      visit (leaf.withSteps (ss ++ [st])) (ss ++ [st]) column e 0 0 =
        .ok [rowEntry 0 e level] := by
    intro e
    by_cases he : e < n
    · obtain ⟨level, hloop, hvisit⟩ := visit_flat he hk ss hss hbelow hok' 0 0
      rw [hst.opt]
      exact ⟨level, fun _ => ⟨hloop, hvisit⟩⟩
    · exact ⟨(0, false), fun h => absurd h he⟩
  choose level hlevel using hrow
  have hsteps := @stepsFrom_structs 0 st hk ss hss
  refine ⟨column, level, rfl, fun e he => (hlevel e he).1, fun e he => (hlevel e he).2, ?_, ?_⟩
  · intro e he
    have hslot := visit_levels _ _ 0 column e 0 0 _ hsteps (le_refl 0) (hlevel e he).2
    have := hslot.upper _ (List.mem_singleton_self _)
    rw [hst.maxDef]
    simpa [rowEntry] using this
  · intro e he
    have := visit_dfn _ _ 0 column e 0 0 _ hsteps (hlevel e he).2 _ (List.mem_singleton_self _)
    rw [hst.maxDef]
    cases hp : (level e).2 <;> simpa [rowEntry, hp] using this

/-- The entries of the rows, one each. -/
theorem rowVisits_flat {leaf : LeafSpec} {steps : List PathStep} {arrays : List ArrowArray}
    {column : ArrowArray} {n : Nat} {level : Nat → Nat × Bool}
    (h : RowsAgree leaf steps arrays column n level) :
    rowVisits (leaf.withSteps steps) column n =
      .ok ((List.range n).map fun i => rowEntry 0 i (level i)) := by
  have hrows := flatMapM_ok (f := fun (i : Nat) => visit (leaf.withSteps steps) steps column i 0 0)
    (g := fun i => [rowEntry 0 i (level i)]) fun i hi => h.shredder i (List.mem_range.mp hi)
  rw [← List.map_eq_flatMap] at hrows
  exact hrows

theorem positions_rowEntry (is : List Nat) (level : Nat → Nat × Bool) :
    positions (is.map fun i => rowEntry 0 i (level i)) = is.filter fun i => (level i).2 := by
  induction is with
  | nil => rfl
  | cons i is ih =>
    unfold positions at ih ⊢
    cases hp : (level i).2 <;> simp_all [rowEntry]

/-- Every row of a column fits a bitmap of its rows. -/
theorem setAll_rows (n : Nat) (p : Nat → Bool) :
    ∃ bs, ByteSeq.setAll (List.replicate ((n + 7) / 8) 0) ((List.range n).filter p) = some bs ∧
      ∀ i < n, ByteSeq.getBit bs i = some (p i) := by
  have hfit : ∀ i ∈ (List.range n).filter p,
      i / 8 < (List.replicate ((n + 7) / 8) (0 : UInt8)).length := by
    intro i hi
    have := List.mem_range.mp (List.mem_of_mem_filter hi)
    rw [List.length_replicate]
    omega
  obtain ⟨bs, hbs⟩ := Option.isSome_iff_exists.mp (ByteSeq.setAll_isSome hfit)
  refine ⟨bs, hbs, fun i hi => ?_⟩
  rw [ByteSeq.getBit_setAll hbs i]
  cases hp : p i with
  | true => rw [if_pos (List.mem_filter.mpr ⟨List.mem_range.mpr hi, hp⟩)]
  | false =>
    rw [if_neg fun hmem => by simp [hp] at hmem]
    have hsome : (ByteSeq.getBit (List.replicate ((n + 7) / 8) 0) i).isSome := by
      rw [ByteSeq.getBit_isSome, List.length_replicate]
      omega
    obtain ⟨b, hb⟩ := Option.isSome_iff_exists.mp hsome
    have hzero := ByteSeq.getBit_zeros ((n + 7) / 8) i
    cases b <;> simp_all

/-- **The row loop and the Shredder on one column of `n` rows.** -/
structure WalksAgree (leaf : LeafSpec) (steps : List PathStep) (arrays : List ArrowArray)
    (column : ArrowArray) (n : Nat) (sh : Shredded) : Prop where
  /-- Each row is one entry of repetition level 0, with the loop's level and presence. -/
  rows : ∀ i < n, ∃ d p,
    flatLevel (leaf.col.extract = .null) arrays leaf.pathOptional i 0 = .ok (d, p) ∧
    (∀ out, row (leaf.withSteps steps) column i out =
      out.record ⟨0, d, if p then some i else none⟩) ∧
    sh.dfn[i]? = some d ∧ ByteSeq.getBit sh.present i = some p
  rep : sh.rep = List.replicate n 0
  length : sh.dfn.length = n
  /-- The loop runs but for a vector too long to make. -/
  loop : (∃ fl, flatRows leaf arrays n = .ok fl ∧ fl.present = sh.present ∧
      fl.presentCount = sh.presentCount ∧ (1 < leaf.maxDefLevel → fl.dfn = sh.dfn)) ∨
    flatRows leaf arrays n = .error (.thrown vectorAssign) ∧ 1 < leaf.maxDefLevel ∧
      (2 ^ 63 - 1) / 4 < n
  /-- At max level 1 the bitmap is the level sequence. -/
  bitmap : leaf.maxDefLevel = 1 → sh.dfn =
    (List.range n).map fun i => if ByteSeq.getBit sh.present i = some true then 1 else 0
  /-- The level stream, the validity map and the null count the loop's leaf is written with. -/
  written : ∀ (X : External) (levels : Bytes) (validity : Option Bytes) (nullCount : Int),
    flatLevels X leaf arrays n = .ok (levels, validity, nullCount) →
    (leaf.maxDefLevel = 1 → encodeDefinitionLevelsBitmap X sh.present n = .ok levels) ∧
    (1 < leaf.maxDefLevel → encodeDefinitionLevels X sh.dfn leaf.defBitWidth = .ok levels) ∧
    validity = (if sh.presentCount < n then some sh.present else none) ∧
    nullCount = (sh.dfn.length : Int) - sh.presentCount

/-- The loop runs, but for a level vector too long to make. -/
theorem flatRows_eq (leaf : LeafSpec) (arrays : List ArrowArray) {n : Nat} (hn : n < 2 ^ 63) :
    flatRows leaf arrays n =
      if 1 < leaf.maxDefLevel ∧ (2 ^ 63 - 1) / 4 < n then .error (.thrown vectorAssign)
      else
        (List.range n).foldlM (flatRow leaf arrays)
          { dfn := [], present := List.replicate ((n + 7) / 8) 0, presentCount := 0 } := by
  unfold flatRows
  rw [Nat.mod_eq_of_lt (by omega)]
  have hbytes : allocate 1 ((n + 7) / 8) vectorAssign = .ok () := by
    unfold allocate
    rw [if_neg (by omega)]
  by_cases hbig : 1 < leaf.maxDefLevel ∧ (2 ^ 63 - 1) / 4 < n
  · rw [if_pos hbig, if_pos hbig.1]
    unfold allocate
    rw [if_pos hbig.2]
    rfl
  · have hlevels : allocate 4 (if leaf.maxDefLevel > 1 then n else 0) vectorAssign = .ok () := by
      unfold allocate
      rw [if_neg]
      split
      · rename_i hD
        exact fun h => hbig ⟨hD, h⟩
      · omega
    rw [if_neg hbig, hlevels]
    dsimp only
    rw [hbytes]
    rfl

/-- The loop, once the level of every row is known. -/
theorem flatRows_fold {leaf : LeafSpec} {arrays : List ArrowArray} {n : Nat}
    {level : Nat → Nat × Bool} {bs : Bytes}
    (h : ∀ i < n, flatLevel (leaf.col.extract = .null) arrays leaf.pathOptional i 0 =
      .ok (level i) ∧ ((level i).2 = true → (level i).1 = leaf.maxDefLevel))
    (hbs : ByteSeq.setAll (List.replicate ((n + 7) / 8) 0)
      ((List.range n).filter fun i => (level i).2) = some bs) :
    (List.range n).foldlM (flatRow leaf arrays)
        { dfn := [], present := List.replicate ((n + 7) / 8) 0, presentCount := 0 } =
      .ok { dfn := if leaf.maxDefLevel > 1 then (List.range n).map fun i => (level i).1 else []
            present := bs
            presentCount := ((List.range n).filter fun i => (level i).2).length } := by
  rw [foldlM_flatRow (List.range n) fun i hi => h i (List.mem_range.mp hi)]
  rw [hbs]
  simp

/-- What the Shredder makes of rows of one entry each. -/
def Shredded.ofRows (n : Nat) (level : Nat → Nat × Bool) (bs : Bytes) : Shredded :=
  (Shredded.blank n).after ((List.range n).map fun i => rowEntry 0 i (level i)) bs

@[simp] theorem Shredded.ofRows_present (n : Nat) (level : Nat → Nat × Bool) (bs : Bytes) :
    (Shredded.ofRows n level bs).present = bs := rfl

@[simp] theorem Shredded.ofRows_rep (n : Nat) (level : Nat → Nat × Bool) (bs : Bytes) :
    (Shredded.ofRows n level bs).rep = List.replicate n 0 := by
  simp [Shredded.ofRows, Shredded.after, Shredded.blank, rowEntry, Function.comp_def]

@[simp] theorem Shredded.ofRows_dfn (n : Nat) (level : Nat → Nat × Bool) (bs : Bytes) :
    (Shredded.ofRows n level bs).dfn = (List.range n).map fun i => (level i).1 := by
  simp [Shredded.ofRows, Shredded.after, Shredded.blank, rowEntry, Function.comp_def]

@[simp] theorem Shredded.ofRows_presentCount (n : Nat) (level : Nat → Nat × Bool) (bs : Bytes) :
    (Shredded.ofRows n level bs).presentCount =
      ((List.range n).filter fun i => (level i).2).length := by
  have hpos := positions_rowEntry (List.range n) level
  simp [Shredded.ofRows, Shredded.after, Shredded.blank, hpos]

section RowsAgree

variable {leaf : LeafSpec} {steps : List PathStep} {arrays : List ArrowArray}
  {column : ArrowArray} {n : Nat} {level : Nat → Nat × Bool} {bs : Bytes}

/-- Both loops set the same bits and count them alike. -/
theorem RowsAgree.fold (h : RowsAgree leaf steps arrays column n level)
    (hbs : ByteSeq.setAll (List.replicate ((n + 7) / 8) 0)
      ((List.range n).filter fun i => (level i).2) = some bs) :
    (List.range n).foldlM (flatRow leaf arrays)
        { dfn := [], present := List.replicate ((n + 7) / 8) 0, presentCount := 0 } =
      .ok { dfn := if leaf.maxDefLevel > 1 then (Shredded.ofRows n level bs).dfn else []
            present := bs
            presentCount := (Shredded.ofRows n level bs).presentCount } := by
  rw [flatRows_fold (fun i hi => ⟨h.loop i hi, (h.max i hi).mp⟩) hbs]
  simp

/-- At max level 1 a row's level is its presence. -/
theorem RowsAgree.level_one (h : RowsAgree leaf steps arrays column n level)
    (hD : leaf.maxDefLevel = 1) {i : Nat} (hi : i < n) :
    (level i).1 = if (level i).2 then 1 else 0 := by
  have hmax := h.max i hi
  have hle := h.bounded i hi
  cases hp : (level i).2 with
  | true =>
    rw [if_pos rfl, hmax.mp hp, hD]
  | false =>
    have hne : (level i).1 ≠ leaf.maxDefLevel := fun he => by simp [hp] at hmax; exact hmax he
    rw [if_neg (by simp)]
    omega

/-- Without OPTIONAL nodes every row is present. -/
theorem RowsAgree.all_present (h : RowsAgree leaf steps arrays column n level)
    (hD : leaf.maxDefLevel = 0) :
    ((List.range n).filter fun i => (level i).2) = List.range n := by
  rw [List.filter_eq_self]
  intro i hi
  have hle := h.bounded i (List.mem_range.mp hi)
  exact (h.max i (List.mem_range.mp hi)).mpr (by omega)

/-- What the loop's leaf is written with. -/
theorem RowsAgree.written (h : RowsAgree leaf steps arrays column n level) (hn : n < 2 ^ 63)
    (hbs : ByteSeq.setAll (List.replicate ((n + 7) / 8) 0)
      ((List.range n).filter fun i => (level i).2) = some bs)
    {X : External} {levels : Bytes} {validity : Option Bytes} {nullCount : Int}
    (hlv : flatLevels X leaf arrays n = .ok (levels, validity, nullCount)) :
    let sh := Shredded.ofRows n level bs
    (leaf.maxDefLevel = 1 → encodeDefinitionLevelsBitmap X sh.present n = .ok levels) ∧
    (1 < leaf.maxDefLevel → encodeDefinitionLevels X sh.dfn leaf.defBitWidth = .ok levels) ∧
    validity = (if sh.presentCount < n then some sh.present else none) ∧
    nullCount = (sh.dfn.length : Int) - sh.presentCount := by
  rcases flatLevels_ok hlv with ⟨hD, fl, p, hfl, hp, heq⟩ | ⟨hD, heq⟩
  · rw [flatRows_eq leaf arrays hn] at hfl
    split at hfl
    · cases hfl
    rw [h.fold hbs] at hfl
    cases hfl
    cases heq
    refine ⟨fun h1 => ?_, fun h1 => ?_, rfl, by simp⟩
    · rw [if_pos h1] at hp
      exact hp
    · rw [if_neg (by omega), if_pos h1] at hp
      exact hp
  · have hall := h.all_present hD
    cases heq
    refine ⟨fun h1 => by omega, fun h1 => by omega, ?_, ?_⟩
    · rw [Shredded.ofRows_presentCount, hall, List.length_range, if_neg (by omega)]
    · rw [Shredded.ofRows_dfn, Shredded.ofRows_presentCount, hall, List.length_map]
      omega

/-- The rows decide everything else. -/
theorem walksAgree_of_rows (hn : n < 2 ^ 63) (h : RowsAgree leaf steps arrays column n level) :
    ∃ sh, rows (leaf.withSteps steps) column n (.blank n) = .ok sh ∧
      WalksAgree leaf steps arrays column n sh := by
  obtain ⟨bs, hbs, hbits⟩ := setAll_rows n fun i => (level i).2
  have hpos := positions_rowEntry (List.range n) level
  have hrows : rows (leaf.withSteps steps) column n (.blank n) = .ok (.ofRows n level bs) :=
    rows_eq_ok.mpr ⟨_, bs, rowVisits_flat h, by rw [hpos]; exact hbs, rfl⟩
  refine ⟨_, hrows, ?_, by simp, by simp, ?_, ?_, fun X levels validity nullCount hlv => ?_⟩
  · intro i hi
    refine ⟨(level i).1, (level i).2, h.loop i hi, fun out => ?_, ?_, hbits i hi⟩
    · have happ := walk_applies (leaf.withSteps steps) steps column i 0 0 out
      rw [h.shredder i hi] at happ
      have happ : walk (leaf.withSteps steps) steps column i 0 0 out =
          (out.record (rowEntry 0 i (level i)) >>= fun s => pure s) := happ
      rw [bind_pure] at happ
      exact happ
    · rw [Shredded.ofRows_dfn, List.getElem?_map, List.getElem?_range hi]
      rfl
  · rw [flatRows_eq leaf arrays hn]
    split
    · rename_i hbig
      exact .inr ⟨rfl, hbig.1, hbig.2⟩
    · refine .inl ⟨_, h.fold hbs, rfl, rfl, fun hD => ?_⟩
      rw [if_pos hD]
  · intro hD
    rw [Shredded.ofRows_dfn]
    refine List.map_congr_left fun i hi => ?_
    rw [List.mem_range] at hi
    rw [Shredded.ofRows_present, hbits i hi, h.level_one hD hi]
    cases (level i).2 <;> simp
  · exact h.written hn hbs hlv

end RowsAgree

/-- **The flat walk agrees with the Shredder.**  For every leaf on a path of structs, with the steps
    `flatten_node` built for it, and every batch whose arrays on the path are well formed: the row
    loop and the Shredder see the same levels, presence bits and counts. -/
theorem flatWalk_agrees {columns : List ArrowSchema} {nodes : List SchemaNode}
    {leaves : List LeafSpec} (h : flattenColumns columns 0 ([], []) = .ok (nodes, leaves))
    {leaf : LeafSpec} (hleaf : leaf ∈ leaves) (hflat : leaf.hasList = false) :
    (∃ steps, LeafSteps columns leaf steps) ∧
    ∀ steps, LeafSteps columns leaf steps →
      ∀ (batch : ArrowArray) (n : Nat) (arrays : List ArrowArray), n < 2 ^ 63 →
        followIdx leaf.pathIdx batch = .ok arrays → List.Forall₂ (RowsOk leaf n) steps arrays →
        ∃ column sh, arrays.head? = some column ∧
          rows (leaf.withSteps steps) column n (.blank n) = .ok sh ∧
          WalksAgree leaf steps arrays column n sh := by
  refine ⟨(leafOf_of_flattenColumns h leaf hleaf).steps, ?_⟩
  intro steps hsteps batch n arrays hn hfollow hok
  obtain ⟨column, level, hcolumn, hrows⟩ := rowsAgree (hsteps.flat hflat) hfollow hok
  obtain ⟨sh, hsh, hagree⟩ := walksAgree_of_rows hn hrows
  exact ⟨column, sh, hcolumn, hsh, hagree⟩

/-- A nullable number in a nullable struct. -/
def pointColumns : List ArrowSchema := [.nested "+s" "point" true [.leaf "i" "x" true]]

def pointSteps : List PathStep :=
  [{ kind := .struct, optional := true, child := 0 }, { kind := .leaf, optional := true }]

def pointLeaf : LeafSpec :=
  leafSpec ((ColumnKind.int32 false).spec "x" true) [0, 0] ["point", "x"] [true, true] pointSteps

/-- `{1}`, `{null}`, `null`. -/
def pointRows : ArrowArray := .struct 3 (some [0b011]) 1 [.int32 [1, 0, 0] (some [0b101]) (-1)]

theorem flatWalk_agrees_pointRows :
    ∃ arrays sh, followIdx pointLeaf.pathIdx (.struct 3 none 0 [pointRows]) = .ok arrays ∧
      rows (pointLeaf.withSteps pointSteps) pointRows 3 (.blank 3) = .ok sh ∧
      WalksAgree pointLeaf pointSteps arrays pointRows 3 sh := by
  obtain ⟨_, hall⟩ := @flatWalk_agrees pointColumns _ [pointLeaf] rfl pointLeaf
    (List.mem_singleton_self _) rfl
  have hsteps : LeafSteps pointColumns pointLeaf pointSteps :=
    ⟨0, _, _, _, rfl, .single (.field (i := 0) rfl rfl), ⟨by decide, by decide, by decide, rfl⟩,
      rfl, rfl⟩
  obtain ⟨column, sh, hcolumn, hsh, hagree⟩ := hall pointSteps hsteps (.struct 3 none 0 [pointRows])
    3 _ (by decide) rfl (by
      refine .cons ⟨⟨rfl, ?_, .inr (by decide)⟩, rfl, by decide, nofun⟩
        (.cons ⟨⟨rfl, ?_, .inl rfl⟩, rfl, by decide, nofun⟩ .nil)
      · exact .inr (.inr ⟨_, _, rfl, fun bm h => by cases h; decide⟩)
      · exact .inr (.inr ⟨_, _, rfl, fun bm h => by cases h; decide⟩))
  cases hcolumn
  exact ⟨_, sh, rfl, hsh, hagree⟩

end N2P
