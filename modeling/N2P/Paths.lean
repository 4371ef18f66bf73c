import N2P.Writer

/-!
# Arrays along a path

What a step of a path means for the array it starts from, read the way the Arrow specification
defines it: the child it leads to (`PathStep.target?`), a list's offsets (`PathStep.offset?`) and
whether a slot is null (`ArrowArray.slotNull`).  The Shredder's checks are then stated in these
terms: `slot_eq_ok`, `structChild_eq_ok` and `listRange_eq_ok` say exactly when each passes.

`Reached` is the set of slots a walk of one row comes to: below an OPTIONAL node's null, or outside
a list slot's range, nothing is reached.
-/

namespace N2P

/-! ## Reading an array -/

/-- Child `i`, when there is one. -/
def ArrowArray.child? (a : ArrowArray) (i : Nat) : Option ArrowArray := a.children.bind (·[i]?)

/-- Buffer `k`, when there is one and it is not null. -/
def ArrowArray.buffer? (a : ArrowArray) (k : Nat) : Option Bytes := (a.buffers.bind (·[k]?)).join

theorem ArrowArray.child_eq_ok {a c : ArrowArray} {i : Nat} :
    a.child i = .ok c ↔ a.child? i = some c := by
  unfold ArrowArray.child ArrowArray.child?
  cases a.children with
  | none => simp
  | some cs => cases h : cs[i]? <;> simp [h]

theorem ArrowArray.buffer_eq_ok {a : ArrowArray} {k : Nat} {b : Bytes} :
    a.buffer k = .ok (some b) ↔ a.buffer? k = some b := by
  unfold ArrowArray.buffer ArrowArray.buffer?
  cases a.buffers with
  | none => simp
  | some bs => cases h : bs[k]? <;> simp [h]

theorem ArrowArray.child?_isSome {a c : ArrowArray} {i : Nat} (h : a.child? i = some c) :
    a.children.isNone = false := by
  unfold ArrowArray.child? at h
  cases hc : a.children <;> simp_all

theorem ArrowArray.buffer?_isSome {a : ArrowArray} {k : Nat} {b : Bytes}
    (h : a.buffer? k = some b) : a.buffers.isNone = false := by
  unfold ArrowArray.buffer? at h
  cases hb : a.buffers <;> simp_all

/-- A slot's validity bit; without a bitmap every slot is valid. -/
def ArrowArray.bitAt (a : ArrowArray) (e : Nat) : Bool :=
  if a.nBuffers < 1 then true
  else
    match a.buffer? 0 with
    | none => true
    | some bm => (ByteSeq.getBit bm e).getD true

/-- A slot is null: the null type has no other slots. -/
def ArrowArray.slotNull (nullType : Bool) (a : ArrowArray) (e : Nat) : Bool :=
  nullType || !a.bitAt e

/-! ## Reading a step -/

theorem StepKind.cases_isList (k : StepKind) : k = .leaf ∨ k = .struct ∨ k.isList = true := by
  cases k <;> simp [StepKind.isList]

theorem StepKind.isList_ne {k : StepKind} (h : k.isList) : k ≠ .leaf ∧ k ≠ .struct := by
  cases k <;> simp_all [StepKind.isList]

/-- Bytes of one offset. -/
def PathStep.offsetWidth (st : PathStep) : Nat := if st.kind = .largeList then 8 else 4

/-- Entry `e` of a list's offsets. -/
def PathStep.offset? (st : PathStep) (a : ArrowArray) (e : Nat) : Option Int :=
  (a.buffer? 1).bind fun off => (readOffset st.offsetWidth off e).toOption

/-- The array the next step starts from. -/
def PathStep.target? (st : PathStep) (a : ArrowArray) : Option ArrowArray :=
  match st.kind with
  | .leaf => some a
  | .struct => a.child? st.child
  | .map => (a.child? 0).bind (·.child? st.child)
  | _ => a.child? 0

/-- The leaf array at the end of the steps. -/
def leafOf? : List PathStep → ArrowArray → Option ArrowArray
  | [], a => some a
  | st :: rest, a => if st.kind = .leaf then some a else (st.target? a).bind (leafOf? rest)

/-- A step to a leaf of the null type. -/
def LeafSpec.nullStep (leaf : LeafSpec) (st : PathStep) : Bool :=
  st.kind = .leaf && leaf.col.extract = .null

/-- A slot of the array at a step is null. -/
def LeafSpec.nullAt (leaf : LeafSpec) (st : PathStep) (a : ArrowArray) (e : Nat) : Bool :=
  a.slotNull (leaf.nullStep st) e

/-- The definition levels a node adds. -/
def PathStep.defStep (st : PathStep) : Nat := if st.optional then 1 else 0

/-- The slots a walk from slot `e` of `a` comes to.  Only an OPTIONAL node's null ends it. -/
inductive Reached (leaf : LeafSpec) :
    List PathStep → ArrowArray → Nat → PathStep → ArrowArray → Nat → Prop where
  | here {st rest a e} : Reached leaf (st :: rest) a e st a e
  | struct {st rest a e child st' a' e'} (hk : st.kind = .struct)
      (hv : st.optional = true → leaf.nullAt st a e = false) (ht : st.target? a = some child)
      (h : Reached leaf rest child e st' a' e') : Reached leaf (st :: rest) a e st' a' e'
  | list {st rest a e child st' a' e'} {s t : Int} {p : Nat} (hk : st.kind.isList)
      (hv : st.optional = true → leaf.nullAt st a e = false) (ht : st.target? a = some child)
      (hs : st.offset? a e = some s) (hn : st.offset? a (e + 1) = some t)
      (hsp : s ≤ p) (hpt : p < t)
      (h : Reached leaf rest child p st' a' e') : Reached leaf (st :: rest) a e st' a' e'

theorem Reached.mem {leaf : LeafSpec} {steps : List PathStep} {a : ArrowArray} {e : Nat}
    {st' : PathStep} {a' : ArrowArray} {e' : Nat} (h : Reached leaf steps a e st' a' e') :
    st' ∈ steps := by
  induction h with
  | here => exact List.mem_cons_self
  | struct _ _ _ _ ih => exact List.mem_cons_of_mem _ ih
  | list _ _ _ _ _ _ _ _ ih => exact List.mem_cons_of_mem _ ih

/-! ## The path to the leaf array -/

theorem nextArray_eq_ok {st : PathStep} {a child : ArrowArray} (hk : st.kind ≠ .leaf)
    (h : nextArray st a = .ok child) : st.target? a = some child := by
  unfold nextArray at h
  unfold PathStep.target?
  split at h
  · cases h
  cases hkind : st.kind with
  | leaf => exact absurd hkind hk
  | struct =>
    simp only [hkind] at h
    split at h
    · exact ArrowArray.child_eq_ok.mp h
    · cases h
  | list => simp only [hkind] at h; exact ArrowArray.child_eq_ok.mp h
  | largeList => simp only [hkind] at h; exact ArrowArray.child_eq_ok.mp h
  | map =>
    simp only [hkind] at h
    split at h
    · cases h
    rename_i entries hentries
    split at h
    · rw [ArrowArray.child_eq_ok.mp hentries]
      exact ArrowArray.child_eq_ok.mp h
    · cases h

/-- `write_list_leaf` finds the array the walk ends in. -/
theorem followSteps_eq_ok {steps : List PathStep} {a x : ArrowArray}
    (h : followSteps steps a = .ok x) : leafOf? steps a = some x := by
  induction steps generalizing a with
  | nil => cases h; rfl
  | cons st rest ih =>
    unfold followSteps at h
    unfold leafOf?
    split
    · rename_i hk
      rw [if_pos hk] at h
      cases h
      rfl
    · rename_i hk
      rw [if_neg hk] at h
      split at h
      · cases h
      · rename_i next hnext
        rw [nextArray_eq_ok hk hnext]
        exact ih h

/-! ## The Shredder's checks -/

namespace Shredder

theorem valid_eq_ok {a : ArrowArray} {e : Nat} {b : Bool} (h : valid a e = .ok b) :
    a.nullCount = 0 ∧ b = true ∨ a.nullCount ≠ 0 ∧ b = a.bitAt e := by
  unfold valid at h
  split at h
  · rename_i hc
    cases h
    by_cases h0 : a.nullCount = 0
    · exact .inl ⟨h0, rfl⟩
    · refine .inr ⟨h0, ?_⟩
      unfold ArrowArray.bitAt
      rcases hc with hc | hc | hc
      · exact absurd hc h0
      · rw [if_pos hc]
      · have hn : a.buffer? 0 = none := by
          unfold ArrowArray.buffer?
          rw [Option.isNone_iff_eq_none.mp hc]
          rfl
        simp [hn]
  · rename_i hc
    have h0 : a.nullCount ≠ 0 := fun h => hc (.inl h)
    have hn : ¬ a.nBuffers < 1 := fun h => hc (.inr (.inl h))
    refine .inr ⟨h0, ?_⟩
    unfold ArrowArray.bitAt
    rw [if_neg hn]
    split at h
    · cases h
    · rename_i hb
      cases h
      have : a.buffer? 0 = none := by
        cases hq : a.buffer? 0 with
        | none => rfl
        | some bm => rw [ArrowArray.buffer_eq_ok.mpr hq] at hb; cases hb
      simp [this]
    · rename_i bm hb
      rw [ArrowArray.buffer_eq_ok.mp hb]
      unfold readBit at h
      split at h
      · cases h
      · rename_i b' hb'
        cases h
        simp [hb']

/-- Whether the walk goes past a node. -/
def slot (leaf : LeafSpec) (st : PathStep) (a : ArrowArray) (e : Int) : Except Fault Bool :=
  (enter leaf st a e 0).map Option.isSome

theorem enter_eq (leaf : LeafSpec) (st : PathStep) (a : ArrowArray) (e : Int) (d : Nat) :
    enter leaf st a e d =
      (slot leaf st a e).map fun b => if b then some (d + st.defStep) else none := by
  unfold slot enter PathStep.defStep
  by_cases ho : a.offset ≠ 0
  · simp only [if_pos ho]; rfl
  by_cases he : e < 0 ∨ e ≥ a.length
  · simp only [if_neg ho, if_pos he]; rfl
  simp only [if_neg ho, if_neg he]
  by_cases hopt : st.optional = true
  · simp only [if_pos hopt]
    by_cases hl : st.kind = .leaf ∧ leaf.col.extract = .null
    · simp only [if_pos hl]; rfl
    · simp only [if_neg hl]
      cases valid a e.toNat with
      | error f => rfl
      | ok b => cases b <;> rfl
  · simp only [if_neg hopt]
    by_cases hn : a.nullCount > 0
    · simp only [if_pos hn]
      cases valid a e.toNat with
      | error f => rfl
      | ok b => cases b <;> rfl
    · simp only [if_neg hn]; rfl

/-- When a node lets the walk past it (`b`), or ends it as null. -/
theorem slot_eq_ok {leaf : LeafSpec} {st : PathStep} {a : ArrowArray} {e : Int} {b : Bool} :
    slot leaf st a e = .ok b ↔
      a.offset = 0 ∧ 0 ≤ e ∧ e < a.length ∧
        if st.optional then if leaf.nullStep st then b = false else valid a e.toNat = .ok b
        else b = true ∧ (0 < a.nullCount → valid a e.toNat = .ok true) := by
  unfold slot enter
  by_cases ho : a.offset ≠ 0
  · simp only [if_pos ho, fail, Except.map, reduceCtorEq, false_iff]
    exact fun h => ho h.1
  by_cases he : e < 0 ∨ e ≥ a.length
  · simp only [if_neg ho, if_pos he, fail, Except.map, reduceCtorEq, false_iff]
    rintro ⟨_, h1, h2, _⟩
    omega
  have hb : a.offset = 0 ∧ 0 ≤ e ∧ e < a.length := ⟨not_not.mp ho, by omega, by omega⟩
  simp only [if_neg he, hb, true_and]
  by_cases hopt : st.optional = true
  · simp only [if_pos hopt]
    by_cases hl : st.kind = .leaf ∧ leaf.col.extract = .null
    · simp [hl, LeafSpec.nullStep, Except.map, eq_comm]
    · have hl' : leaf.nullStep st = false := by
        unfold LeafSpec.nullStep
        simpa using hl
      simp only [if_neg hl, hl', Bool.false_eq_true, if_false]
      cases valid a e.toNat with
      | error f => simp [Except.map]
      | ok b' => cases b' <;> simp [Except.map]
  · simp only [if_neg hopt]
    by_cases hn : a.nullCount > 0
    · simp only [if_pos hn]
      cases valid a e.toNat with
      | error f => simp [Except.map, hn]
      | ok b' => cases b' <;> simp [Except.map, hn, fail, eq_comm]
    · simp [hn, Except.map, eq_comm]

theorem structChild_eq_ok {leaf : LeafSpec} {st : PathStep} {a child : ArrowArray} :
    structChild leaf st a = .ok child ↔
      (st.child : Int) < a.nChildren ∧ a.child? st.child = some child := by
  unfold structChild
  split
  · rename_i h
    refine iff_of_false nofun ?_
    rintro ⟨h1, h2⟩
    rcases h with h | h
    · rw [ArrowArray.child?_isSome h2] at h; cases h
    · omega
  · rename_i h
    rw [ArrowArray.child_eq_ok]
    push Not at h
    exact (and_iff_right h.2).symm

/-- A map's entries, as the walk checks them. -/
def EntriesOk (st : PathStep) (a : ArrowArray) (t : Int) : Prop :=
  st.kind = .map → ∀ entries, a.child? 0 = some entries →
    entries.offset = 0 ∧ entries.nChildren = 2 ∧ t ≤ entries.length

/-- The child array of a list slot, once its entries are checked. -/
theorem listTarget_eq_ok {leaf : LeafSpec} {st : PathStep} {a first child : ArrowArray} {t : Int}
    (hk : st.kind.isList) (hf : a.child? 0 = some first) :
    (if st.kind = .map then
        if first.offset ≠ 0 ∨ first.children.isNone ∨ first.nChildren ≠ 2 then
          fail leaf .mapEntries
        else if t > first.length then fail leaf .mapPastEntries
        else first.child st.child
      else .ok first) = .ok child ↔ EntriesOk st a t ∧ st.target? a = some child := by
  unfold EntriesOk PathStep.target?
  by_cases hm : st.kind = .map
  · rw [if_pos hm, hm, hf]
    simp only [forall_const, Option.some.injEq, forall_eq', Option.bind_some]
    split
    · rename_i h
      refine iff_of_false nofun ?_
      rintro ⟨⟨h1, h2, _⟩, hc⟩
      rcases h with h | h | h
      · exact h h1
      · rw [ArrowArray.child?_isSome hc] at h; cases h
      · exact h h2
    rename_i h
    push Not at h
    split
    · refine iff_of_false nofun ?_
      rintro ⟨⟨_, _, h3⟩, _⟩
      omega
    · rw [ArrowArray.child_eq_ok]
      refine (and_iff_right ⟨h.1, h.2.2, ?_⟩).symm
      omega
  · rw [if_neg hm]
    cases hkind : st.kind <;> simp_all [StepKind.isList]

/-- A list slot's target starts from the list's first child. -/
theorem target?_first {st : PathStep} {a child : ArrowArray} (hk : st.kind.isList)
    (h : st.target? a = some child) : ∃ first, a.child? 0 = some first := by
  unfold PathStep.target? at h
  cases hkind : st.kind with
  | leaf =>
    rw [hkind] at hk
    cases hk
  | struct =>
    rw [hkind] at hk
    cases hk
  | list =>
    rw [hkind] at h
    exact ⟨_, h⟩
  | largeList =>
    rw [hkind] at h
    exact ⟨_, h⟩
  | map =>
    rw [hkind] at h
    obtain ⟨x, hx, _⟩ := Option.bind_eq_some_iff.mp h
    exact ⟨x, hx⟩

theorem offset?_eq_some {st : PathStep} {a : ArrowArray} {off : Bytes}
    (hbuf : a.buffer? 1 = some off) {e : Nat} {x : Int} :
    st.offset? a e = some x ↔
      readOffset (if st.kind = .largeList then 8 else 4) off e = .ok x := by
  unfold PathStep.offset? PathStep.offsetWidth
  rw [hbuf, Option.bind_some]
  cases readOffset (if st.kind = .largeList then 8 else 4) off e with
  | error f => exact iff_of_false nofun nofun
  | ok y => simp [Except.toOption]

theorem listRange_eq_ok {leaf : LeafSpec} {st : PathStep} {a child : ArrowArray} {e : Nat}
    {s t : Int} (hk : st.kind.isList) :
    listRange leaf st a e = .ok (child, s, t) ↔
      2 ≤ a.nBuffers ∧ 1 ≤ a.nChildren ∧ st.offset? a e = some s ∧
        st.offset? a (e + 1) = some t ∧ (EntriesOk st a t ∧ st.target? a = some child) ∧
        0 ≤ s ∧ s ≤ t ∧ t ≤ child.length := by
  constructor
  · intro h
    unfold listRange at h
    split at h
    · cases h
    rename_i hnb
    split at h
    · cases h
    · cases h
    rename_i off hoff
    split at h
    · cases h
    rename_i hnc
    push Not at hnb hnc
    have hbuf : a.buffer? 1 = some off := ArrowArray.buffer_eq_ok.mp hoff
    dsimp only at h
    split at h
    · rename_i s' t' first hs ht hfirst
      have hfirst := ArrowArray.child_eq_ok.mp hfirst
      split at h
      · cases h
      rename_i target htarget
      split at h
      · cases h
      rename_i hrange
      cases h
      have := (listTarget_eq_ok hk hfirst).mp htarget
      exact ⟨hnb.1, hnc.2, (offset?_eq_some hbuf).mpr hs, (offset?_eq_some hbuf).mpr ht, this,
        by omega, by omega, by omega⟩
    · cases h
  · rintro ⟨hnb, hnc, hs, ht, htarget, h0, hst, htc⟩
    obtain ⟨off, hbuf, _⟩ := Option.bind_eq_some_iff.mp hs
    obtain ⟨first, hfirst⟩ := target?_first hk htarget.2
    rw [offset?_eq_some hbuf] at hs ht
    unfold listRange
    rw [if_neg (by rw [ArrowArray.buffer?_isSome hbuf]; simp; omega),
      ArrowArray.buffer_eq_ok.mpr hbuf]
    dsimp only
    rw [if_neg (by rw [ArrowArray.child?_isSome hfirst]; simp; omega)]
    simp only [hs, ht, ArrowArray.child_eq_ok.mpr hfirst]
    rw [(listTarget_eq_ok hk hfirst).mpr htarget]
    dsimp only
    rw [if_neg (by omega)]

end Shredder

end N2P
