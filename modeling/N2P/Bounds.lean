import N2P.LevelStreams

/-!
# The Shredder stays within its buffers

The arrays under a list are untrusted: lengths, offsets, null counts, child counts and the contents
of the offset buffers are whatever the caller passes.  All that is asked of an array is that its own
buffers are as long as its own length says.  A read or write outside a buffer is
`Fault.undefined`, so that what is proved here is that a leaf's shredding never ends in it.

* `Covered` — the arrays on a path have the buffers their lengths declare.
* `walk_inBounds` — no walk reads or writes outside a buffer, whether or not it is refused.
* `shredLeaf_inBounds` — the same for a leaf of a batch, and its walks end in the array that sized
  `present`.
-/

namespace N2P

open Outcome Shredder

/-! ## Declared lengths -/

/-- A struct's length is an `int64_t`, and its pointer lists have the entries it declares. -/
structure ArrowArray.Declared (a : ArrowArray) : Prop where
  int64 : IsInt64 a.length
  buffers : ∀ bs, a.buffers = some bs → a.nBuffers ≤ bs.length
  children : ∀ cs, a.children = some cs → a.nChildren ≤ cs.length

/-- An array's buffers are as long as its length requires. -/
structure BuffersCover (st : PathStep) (a : ArrowArray) : Prop extends a.Declared where
  bitmap : ∀ bm, a.buffer? 0 = some bm → a.length ≤ 8 * bm.length
  offsets : st.kind.isList → ∀ off, a.buffer? 1 = some off →
    (a.length + 1) * st.offsetWidth ≤ off.length

/-- The arrays on a path have the buffers their lengths require. -/
def Covered : List PathStep → ArrowArray → Prop
  | [], _ => True
  | st :: rest, a =>
    BuffersCover st a ∧
      (st.kind = .map → ∀ entries, a.child? 0 = some entries → entries.Declared) ∧
      ∀ child, st.target? a = some child → Covered rest child

/-- Anything but undefined behaviour. -/
def Defined (f : Fault) : Prop := f ≠ .undefined

@[simp] theorem defined_refused (why : Refusal) : Defined (.refused why) := by
  rintro ⟨⟩

@[simp] theorem defined_thrown (what : String) : Defined (.thrown what) := by
  rintro ⟨⟩

theorem ArrowArray.Declared.child {a : ArrowArray} (h : a.Declared) {i : Nat}
    (hc : ¬ a.children.isNone = true) (hi : (i : Int) < a.nChildren) :
    ∃ c, a.child i = .ok c ∧ a.child? i = some c := by
  unfold ArrowArray.child ArrowArray.child?
  cases hcs : a.children with
  | none =>
    exact absurd (by rw [hcs]; rfl) hc
  | some cs =>
    have hlen := h.children cs hcs
    have hlt : i < cs.length := by omega
    refine ⟨cs[i], ?_, ?_⟩
    · simp [hlt]
    · simp [hlt]

theorem ArrowArray.Declared.buffer {a : ArrowArray} (h : a.Declared) {k : Nat}
    (hb : ¬ a.buffers.isNone = true) (hk : (k : Int) < a.nBuffers) :
    ∃ b, a.buffer k = .ok b ∧ a.buffer? k = b := by
  unfold ArrowArray.buffer ArrowArray.buffer?
  cases hbs : a.buffers with
  | none =>
    exact absurd (by rw [hbs]; rfl) hb
  | some bs =>
    have hlen := h.buffers bs hbs
    have hlt : k < bs.length := by omega
    refine ⟨bs[k], ?_, ?_⟩
    · simp [hlt]
    · simp [hlt]

/-! ## The reads at a node -/

theorem failsIn_fail {α : Type} (leaf : LeafSpec) (e : ShredError) :
    FailsIn Defined (fail leaf e : Except Fault α) := by
  exact failsIn_error.mpr (defined_refused _)

/-- A validity bit is read inside its bitmap. -/
theorem valid_inBounds {st : PathStep} {a : ArrowArray} (h : BuffersCover st a) {e : Nat}
    (he : e < a.length) : ∃ b, valid a e = .ok b := by
  unfold valid
  split
  · exact ⟨true, rfl⟩
  rename_i hc
  push Not at hc
  obtain ⟨_, hnb, hbuf⟩ := hc
  obtain ⟨b, hb, hb'⟩ := h.buffer (k := 0) hbuf (by omega)
  rw [hb]
  cases b with
  | none => exact ⟨true, rfl⟩
  | some bm =>
    have hlen := h.bitmap bm hb'
    have hsome : (ByteSeq.getBit bm e).isSome := ByteSeq.getBit_isSome.mpr (by omega)
    obtain ⟨b, hbit⟩ := Option.isSome_iff_exists.mp hsome
    exact ⟨b, by simp [readBit, hbit]⟩

theorem enter_inBounds {leaf : LeafSpec} {st : PathStep} {a : ArrowArray} (h : BuffersCover st a)
    (e : Int) (d : Nat) : FailsIn Defined (enter leaf st a e d) := by
  unfold enter
  split
  · exact failsIn_fail leaf _
  split
  · exact failsIn_fail leaf _
  rename_i hrange
  obtain ⟨b, hb⟩ := @valid_inBounds st a h e.toNat (by omega)
  rw [hb]
  split
  · split
    · exact failsIn_ok _
    · exact failsIn_ok _
  split
  · cases b with
    | true => exact failsIn_ok _
    | false => exact failsIn_fail leaf _
  · exact failsIn_ok _

theorem structChild_inBounds (leaf : LeafSpec) {st : PathStep} {a : ArrowArray}
    (h : BuffersCover st a) : FailsIn Defined (structChild leaf st a) := by
  unfold structChild
  split
  · exact failsIn_fail leaf _
  rename_i hc
  push Not at hc
  obtain ⟨c, hc, _⟩ := h.child (i := st.child) hc.1 hc.2
  rw [hc]
  exact failsIn_ok c

/-- An offset is read inside its buffer. -/
theorem readOffset_inBounds {w : Nat} {off : Bytes} {i : Nat} (h : (i + 1) * w ≤ off.length) :
    ∃ x, readOffset w off i = .ok x := by
  unfold readOffset readElem
  rw [if_pos h]
  exact ⟨_, rfl⟩

/-- The offsets up to slot `e`'s end are inside their buffer. -/
theorem offsets_inBounds {st : PathStep} {a : ArrowArray} {off : Bytes}
    (hlen : (a.length + 1) * st.offsetWidth ≤ off.length) {e i : Nat} (he : e < a.length)
    (hi : i ≤ e + 1) :
    ∃ x, readOffset (if st.kind = .largeList then 8 else 4) off i = .ok x := by
  apply readOffset_inBounds
  show (i + 1) * st.offsetWidth ≤ off.length
  have hmul : ((i : Int) + 1) * st.offsetWidth ≤ (a.length + 1) * st.offsetWidth :=
    Int.mul_le_mul_of_nonneg_right (by omega) (by omega)
  have : (((i + 1) * st.offsetWidth : Nat) : Int) ≤ off.length := by
    push_cast
    omega
  omega

/-- A map's key and value are children that its entries declare. -/
theorem listTarget_inBounds (leaf : LeafSpec) {st : PathStep} {first : ArrowArray} (t : Int)
    (hentries : st.kind = .map → first.Declared) (hmap : st.kind = .map → st.child < 2) :
    FailsIn Defined
      (if st.kind = .map then
        if first.offset ≠ 0 ∨ first.children.isNone ∨ first.nChildren ≠ 2 then
          fail leaf .mapEntries
        else if t > first.length then fail leaf .mapPastEntries
        else first.child st.child
      else .ok first) := by
  split
  · rename_i hm
    split
    · exact failsIn_fail leaf _
    rename_i hent
    push Not at hent
    split
    · exact failsIn_fail leaf _
    have hlt := hmap hm
    obtain ⟨c, hc, _⟩ := (hentries hm).child (i := st.child) hent.2.1 (by omega)
    rw [hc]
    exact failsIn_ok c
  · exact failsIn_ok first

theorem listRange_inBounds (leaf : LeafSpec) {st : PathStep} {a : ArrowArray}
    (h : BuffersCover st a) (hk : st.kind.isList)
    (hentries : st.kind = .map → ∀ entries, a.child? 0 = some entries → entries.Declared)
    (hmap : st.kind = .map → st.child < 2) {e : Nat} (he : e < a.length) :
    FailsIn Defined (listRange leaf st a e) := by
  unfold listRange
  split
  · exact failsIn_fail leaf _
  rename_i hnb
  push Not at hnb
  obtain ⟨b, hb, hb'⟩ := h.buffer (k := 1) hnb.2 (by omega)
  rw [hb]
  cases b with
  | none => exact failsIn_fail leaf _
  | some off =>
  dsimp only
  split
  · exact failsIn_fail leaf _
  rename_i hnc
  push Not at hnc
  obtain ⟨first, hfirst, hfirst'⟩ := h.child (i := 0) hnc.1 (by omega)
  have hlen := h.offsets hk off hb'
  obtain ⟨s, hs⟩ := offsets_inBounds hlen he (Nat.le_succ e)
  obtain ⟨t, ht⟩ := offsets_inBounds hlen he (Nat.le_refl (e + 1))
  rw [hs, ht, hfirst]
  dsimp only
  have htarget := listTarget_inBounds leaf t (fun hm => hentries hm first hfirst') hmap
  split
  · rename_i heq
    exact htarget.rethrow heq
  · split
    · exact failsIn_fail leaf _
    · exact failsIn_ok _

/-! ## The walk -/

/-- The output's bitmap keeps its size. -/
def Sized (bytes : Nat) (out : Shredded) : Prop := out.present.length = bytes

theorem mark_inBounds {out : Shredded} {e bytes : Nat} (h : Sized bytes out)
    (he : e < 8 * bytes) : Meets Defined (Sized bytes) (out.mark e) := by
  unfold Sized at h
  have hsome : (ByteSeq.setBit out.present e).isSome := ByteSeq.setBit_isSome.mpr (by omega)
  obtain ⟨bs, hbs⟩ := Option.isSome_iff_exists.mp hsome
  unfold Shredded.mark
  rw [hbs, meets_ok]
  show bs.length = bytes
  rw [ByteSeq.length_setBit hbs, h]

theorem leafOf?_next {st : PathStep} {rest : List PathStep} {a child x : ArrowArray}
    (hk : st.kind ≠ .leaf) (ht : st.target? a = some child) (h : leafOf? (st :: rest) a = some x) :
    leafOf? rest child = some x := by
  unfold leafOf? at h
  rwa [if_neg hk, ht] at h

/-- **No walk reads or writes outside a buffer**, whether it ends well or is refused. -/
theorem walk_inBounds (leaf : LeafSpec) {x : ArrowArray} {bytes : Nat}
    (hx : x.length ≤ 8 * bytes) : ∀ (steps : List PathStep) (k : Nat) (a : ArrowArray) (e : Int)
    (r d : Nat) (out : Shredded), StepsFrom k steps →
    (∀ st ∈ steps, st.kind = .map → st.child < 2) → Covered steps a →
    leafOf? steps a = some x → Sized bytes out →
    Meets Defined (Sized bytes) (walk leaf steps a e r d out) := by
  intro steps
  induction steps with
  | nil =>
    intro k a e r d out hst
    exact hst.elim
  | cons st rest ih =>
    intro k a e r d out hst hmap hcov hleaf hout
    obtain ⟨hcover, hentries, hnext⟩ := hcov
    have hrest : ∀ st' ∈ rest, st'.kind = .map → st'.child < 2 :=
      fun st' hst' => hmap st' (List.mem_cons_of_mem st hst')
    unfold walk
    have henter := @enter_inBounds leaf st a hcover e d
    cases hent : enter leaf st a e d with
    | error f =>
      rw [hent, failsIn_error] at henter
      exact meets_error.mpr henter
    | ok o =>
    cases o with
    | none => exact meets_ok.mpr hout
    | some d' =>
    rw [enter_eq] at hent
    obtain ⟨b, hslot, _⟩ := map_eq_ok.mp hent
    obtain ⟨_, h0, hlt, _⟩ := slot_eq_ok.mp hslot
    have hemit : Sized bytes (out.emit r d') := hout
    -- below a list, each element is walked in turn
    have list (hk : st.kind.isList) : Meets Defined (Sized bytes)
        (listRange leaf st a e.toNat >>= fun range =>
          if range.2.1 = range.2.2 then .ok (out.emit r d')
          else
            (List.range (range.2.2 - range.2.1).toNat).foldlM
              (fun out (j : Nat) => walk leaf rest range.1 (range.2.1 + j)
                (if j = 0 then r else st.repLevel) (d' + 1) out)
              out) := by
      refine meets_bind (listRange_inBounds leaf hcover hk hentries
        (hmap st List.mem_cons_self) (by omega)) fun range hlr => ?_
      obtain ⟨child, s, t⟩ := range
      obtain ⟨_, _, _, _, ⟨_, htarget⟩, _⟩ := (listRange_eq_ok hk).mp hlr
      dsimp only
      split
      · exact meets_ok.mpr hemit
      · refine meets_foldlM (fun out hout j _ => ?_) hout
        exact ih (k + 1) child _ _ _ out (hst.list hk).2 hrest
          (hnext child htarget) (leafOf?_next (StepKind.isList_ne hk).1 htarget hleaf) hout
    cases hk : st.kind with
    | leaf =>
      have hax : a = x := by simpa [leafOf?, hk] using hleaf
      subst hax
      exact mark_inBounds hemit (by omega)
    | struct =>
      have hchild := structChild_inBounds leaf hcover
      cases hsc : structChild leaf st a with
      | error f =>
        rw [hsc, failsIn_error] at hchild
        exact meets_error.mpr hchild
      | ok child =>
        have htarget : st.target? a = some child := by
          simpa [PathStep.target?, hk] using (structChild_eq_ok.mp hsc).2
        exact ih k child _ _ _ out (hst.struct hk) hrest
          (hnext child htarget) (leafOf?_next (by simp [hk]) htarget hleaf) hout
    | list | largeList | map =>
      have h := list (by rw [hk]; rfl)
      cases hlr : listRange leaf st a e.toNat with
      | error f =>
        rw [hlr] at h
        exact h
      | ok range =>
        rw [hlr] at h
        exact h

/-- The row loop stays within its buffers. -/
theorem rows_inBounds {leaf : LeafSpec} {column x : ArrowArray} {bytes : Nat}
    (hx : x.length ≤ 8 * bytes) (hst : StepsFrom 0 leaf.steps)
    (hmap : ∀ st ∈ leaf.steps, st.kind = .map → st.child < 2) (hcov : Covered leaf.steps column)
    (hleaf : leafOf? leaf.steps column = some x) (n : Nat) {out : Shredded}
    (hout : Sized bytes out) : Meets Defined (Sized bytes) (rows leaf column n out) := by
  unfold rows row
  refine meets_foldlM (fun out hout i _ => ?_) hout
  exact walk_inBounds leaf hx leaf.steps 0 column i 0 0 out hst hmap hcov hleaf hout

/-! ## The leaf array -/

theorem nextArray_inBounds {st : PathStep} {a : ArrowArray} (h : BuffersCover st a)
    (hentries : st.kind = .map → ∀ entries, a.child? 0 = some entries → entries.Declared)
    (hmap : st.kind = .map → st.child < 2) : FailsIn Defined (nextArray st a) := by
  have hmismatch : FailsIn Defined
      (.error (.refused .structureMismatch) : Except Fault ArrowArray) :=
    failsIn_error.mpr (defined_refused _)
  unfold nextArray
  dsimp only
  split
  · exact hmismatch
  rename_i hc
  push Not at hc
  obtain ⟨first, hfirst, hfirst'⟩ := h.child (i := 0) hc.1 (by omega)
  rw [hfirst]
  cases hk : st.kind with
  | struct =>
    dsimp only
    split
    · rename_i hlt
      obtain ⟨c, hc, _⟩ := h.child hc.1 hlt
      rw [hc]
      exact failsIn_ok c
    · exact hmismatch
  | map =>
    dsimp only
    split
    · rename_i hent
      have hlt := hmap hk
      obtain ⟨c, hc, _⟩ := (hentries hk first hfirst').child (i := st.child)
        (by rw [Option.isNone_iff_eq_none]; exact Option.isSome_iff_ne_none.mp hent.1) (by omega)
      rw [hc]
      exact failsIn_ok c
    · exact hmismatch
  | list => exact failsIn_ok first
  | largeList => exact failsIn_ok first
  | leaf => exact failsIn_ok first

theorem followSteps_inBounds (steps : List PathStep) (a : ArrowArray)
    (hmap : ∀ st ∈ steps, st.kind = .map → st.child < 2) (hcov : Covered steps a) :
    FailsIn Defined (followSteps steps a) := by
  induction steps generalizing a with
  | nil => exact failsIn_ok a
  | cons st rest ih =>
    obtain ⟨hcover, hentries, hnext⟩ := hcov
    unfold followSteps
    split
    · exact failsIn_ok a
    rename_i hk
    have hfails := nextArray_inBounds hcover hentries (hmap st List.mem_cons_self)
    cases hna : nextArray st a with
    | error f =>
      rw [hna, failsIn_error] at hfails
      exact failsIn_error.mpr hfails
    | ok next =>
      refine ih next (fun st' hst' => hmap st' (List.mem_cons_of_mem st hst')) ?_
      exact hnext next (nextArray_eq_ok hk hna)

theorem Covered.leafArray {steps : List PathStep} {k : Nat} {a x : ArrowArray}
    (hst : StepsFrom k steps) (h : Covered steps a) (hx : leafOf? steps a = some x) :
    IsInt64 x.length := by
  induction steps generalizing k a with
  | nil => exact hst.elim
  | cons st rest ih =>
    obtain ⟨hcover, _, hnext⟩ := h
    by_cases hk : st.kind = .leaf
    · have hax : a = x := by simpa [leafOf?, hk] using hx
      rw [← hax]
      exact hcover.int64
    · obtain ⟨child, ht, hx⟩ : ∃ child, st.target? a = some child ∧ leafOf? rest child = some x := by
        unfold leafOf? at hx
        rw [if_neg hk] at hx
        exact Option.bind_eq_some_iff.mp hx
      have hsteps : ∃ k', StepsFrom k' rest := by
        rcases st.kind.cases_isList with hl | hs | hl
        · exact absurd hl hk
        · exact ⟨k, hst.struct hs⟩
        · exact ⟨k + 1, (hst.list hl).2⟩
      obtain ⟨k', hst'⟩ := hsteps
      exact ih hst' (hnext child ht) hx

/-- `present` has a bit for every slot of the leaf array. -/
theorem length_le_present {n : Int} (h : IsInt64 n) : n ≤ 8 * toSize (Int.tdiv (n + 7) 8) := by
  obtain ⟨hlow, hhigh⟩ := h
  by_cases h0 : 0 ≤ n
  · rw [Int.tdiv_eq_ediv_of_nonneg (by omega), toSize_of_nonneg (by omega) (by omega)]
    omega
  · omega

/-- The steps end in one array. -/
theorem stepArray_leaf {steps : List PathStep} {a y : ArrowArray} {outside : Bool} {st : PathStep}
    (h : StepArray steps a outside st y) (hk : st.kind = .leaf) : leafOf? steps a = some y := by
  induction h with
  | here => exact if_pos hk
  | struct hk' ht _ ih =>
    unfold leafOf?
    rw [if_neg (by simp [hk']), ht]
    exact ih hk
  | list hk' ht _ ih =>
    unfold leafOf?
    rw [if_neg (StepKind.isList_ne hk').1, ht]
    exact ih hk

theorem validateChild_inBounds (child : ArrowArray) (s : ColumnSpec) (rows : Int) :
    FailsIn Defined (validateChild child s rows) := by
  unfold validateChild
  dsimp only
  split
  · exact failsIn_error.mpr (defined_refused _)
  split
  · exact failsIn_error.mpr (defined_refused _)
  split
  · exact failsIn_error.mpr (defined_refused _)
  split
  · exact failsIn_ok ()
  have hneed : ∀ need : Int, FailsIn Defined
      (if child.nBuffers < need ∨ child.buffers.isNone then
        .error (.refused (.missingBuffers s.name)) else .ok () : Except Fault Unit) := by
    intro need
    split
    · exact failsIn_error.mpr (defined_refused _)
    · exact failsIn_ok ()
  exact hneed _

theorem allocate_inBounds (size n : Nat) (what : String) :
    FailsIn Defined (allocate size n what) := by
  unfold allocate
  split
  · exact failsIn_error.mpr (defined_thrown what)
  · exact failsIn_ok ()

/-- **Shredding a leaf under a list or map never reads or writes outside a buffer**, whether the
    batch is accepted or refused; `present` has a bit for every slot of the leaf array, and that
    array is the one every walk of the column ends in. -/
theorem shredLeaf_inBounds {columns : List ArrowSchema} {nodes : List SchemaNode}
    {leaves : List LeafSpec} (h : flattenColumns columns 0 ([], []) = .ok (nodes, leaves))
    {leaf : LeafSpec} (hleaf : leaf ∈ leaves) (hlist : leaf.hasList = true) {batch : ArrowArray}
    (hbatch : batch.Declared)
    (hcov : ∀ column, topColumn leaf batch = .ok column → Covered leaf.steps column) :
    Meets Defined (fun out => out.1.length ≤ 8 * (out.2.present.length : Int))
        (shredLeaf leaf batch) ∧
      ∀ column leafArr, topColumn leaf batch = .ok column →
        followSteps leaf.steps column = .ok leafArr →
        ∀ outside st x, StepArray leaf.steps column outside st x → st.kind = .leaf →
          x = leafArr := by
  obtain ⟨hst, _⟩ := list_leaf_steps h hleaf hlist
  have hof := leafOf_of_flattenColumns h leaf hleaf
  have hmap := leaf_mapSteps hof
  refine ⟨?_, ?_⟩
  · unfold shredLeaf
    have hcolumn : FailsIn Defined (topColumn leaf batch) := by
      unfold topColumn
      cases hidx : leaf.pathIdx with
      | nil => exact absurd hidx (leaf_pathIdx hof)
      | cons ci is =>
        dsimp only
        split
        · exact failsIn_error.mpr (defined_refused _)
        · rename_i hc
          push Not at hc
          obtain ⟨c, hc, _⟩ := hbatch.child hc.1 hc.2
          rw [hc]
          exact failsIn_ok c
    refine meets_bind hcolumn fun column hcolumn => ?_
    have hcover := hcov column hcolumn
    refine meets_bind (followSteps_inBounds leaf.steps column hmap hcover) fun leafArr hfollow => ?_
    have hx := followSteps_eq_ok hfollow
    have hlen := length_le_present (hcover.leafArray hst hx)
    refine meets_bind (validateChild_inBounds leafArr leaf.col leafArr.length) fun _ _ => ?_
    refine meets_bind (allocate_inBounds _ _ _) fun _ _ => ?_
    refine meets_bind (allocate_inBounds _ _ _) fun _ _ => ?_
    have hstart : Sized _ ⟨[], [], List.replicate (toSize (Int.tdiv (leafArr.length + 7) 8)) 0, 0⟩ :=
      List.length_replicate ..
    have hrows := rows_inBounds hlen hst hmap hcover hx batch.length.toNat hstart
    refine meets_bind hrows.1 fun sh hsh => ?_
    rw [show (pure (leafArr, sh) : Except Fault (ArrowArray × Shredded)) = .ok (leafArr, sh) from rfl,
      meets_ok]
    have hsized : sh.present.length = toSize (Int.tdiv (leafArr.length + 7) 8) := hrows.2 sh hsh
    rw [hsized]
    exact hlen
  · intro column leafArr hcolumn hfollow outside st x hstep hk
    have hx := stepArray_leaf hstep hk
    rw [followSteps_eq_ok hfollow] at hx
    exact (Option.some.inj hx).symm

/-- Offsets that go back, and past a child of one slot. -/
def straySlots : ArrowArray := .list [0, 1, 7, -2] (some [0b101]) 1 (.int32 [1] none 5)

/-- The batch is refused, and nothing outside its buffers is read on the way. -/
theorem shredLeaf_inBounds_straySlots :
    (shredLeaf listLeaf (.struct 3 none 0 [straySlots])).isOk = false ∧
    Meets Defined (fun out => out.1.length ≤ 8 * (out.2.present.length : Int))
        (shredLeaf listLeaf (.struct 3 none 0 [straySlots])) ∧
      ∀ column leafArr, topColumn listLeaf (.struct 3 none 0 [straySlots]) = .ok column →
        followSteps listLeaf.steps column = .ok leafArr →
        ∀ outside st x, StepArray listLeaf.steps column outside st x → st.kind = .leaf →
          x = leafArr := by
  refine ⟨by decide +kernel, ?_⟩
  apply @shredLeaf_inBounds listColumns _ [listLeaf] rfl listLeaf (by simp) rfl
  · exact ⟨by decide, by rintro _ ⟨⟩; decide, by rintro _ ⟨⟩; decide⟩
  · rintro column ⟨⟩
    refine ⟨⟨⟨by decide, by rintro _ ⟨⟩; decide, by rintro _ ⟨⟩; decide⟩, ?_, ?_⟩, nofun, ?_⟩
    · rintro _ ⟨⟩
      decide
    · rintro _ _ ⟨⟩
      decide
    · rintro child ⟨⟩
      refine ⟨⟨⟨by decide, by rintro _ ⟨⟩; decide, by rintro _ ⟨⟩⟩, ?_, ?_⟩, nofun, ?_⟩
      · rintro _ ⟨⟩
      · rintro ⟨⟩
      · exact fun _ _ => trivial

end N2P
