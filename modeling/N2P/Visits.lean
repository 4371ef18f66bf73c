import N2P.Lib.Dremel
import N2P.Lib.Outcome
import N2P.Paths

/-!
# The walk as a list of visits

`Shredder::walk` threads one output object through its recursion.  `visit` is the same recursion
with the output as a list: one entry for every slot the walk emits, with the leaf position of the
slots that hold a value.  `walk_applies` says that `walk` records exactly these entries, so every
property of the levels and of `present` is a property of `visit`.

* `rows_eq_ok` — what a successful `row` loop leaves in the output, in terms of the visits.
* `visit_cases`, `visit_faults` — how a visit of one slot can go well, and where it can fail.
-/

namespace N2P

open Outcome

/-- One slot the walk emits: its levels, and its position in the leaf array if it has a value. -/
abbrev Visit := Dremel.Entry Nat

/-- The leaf positions visited, in emission order. -/
def positions (vs : List Visit) : List Nat := vs.filterMap (·.value)

/-- Emit one entry, and mark its position. -/
def Shredded.record (out : Shredded) (v : Visit) : Except Fault Shredded :=
  match v.value with
  | none => .ok (out.emit v.rep v.dfn)
  | some p => (out.emit v.rep v.dfn).mark p

/-- `out` with the levels of `vs` appended, and `bs` for its bitmap. -/
def Shredded.after (out : Shredded) (vs : List Visit) (bs : Bytes) : Shredded :=
  { rep := out.rep ++ vs.map (·.rep), dfn := out.dfn ++ vs.map (·.dfn), present := bs,
    presentCount := out.presentCount + (positions vs).length }

theorem record_error {out : Shredded} {v : Visit} {f : Fault} (h : out.record v = .error f) :
    f = .undefined := by
  unfold Shredded.record Shredded.mark at h
  split at h
  · cases h
  · split at h
    · exact (Except.error.inj h).symm
    · cases h

/-- Recording a list of entries sets their positions in order. -/
theorem foldlM_record (vs : List Visit) (out : Shredded) :
    vs.foldlM Shredded.record out =
      match ByteSeq.setAll out.present (positions vs) with
      | none => .error .undefined
      | some bs => .ok (out.after vs bs) := by
  induction vs generalizing out with
  | nil => simp [positions, ByteSeq.setAll, Shredded.after]; rfl
  | cons v vs ih =>
    obtain ⟨r, d, value⟩ := v
    rw [List.foldlM_cons]
    cases value with
    | none =>
      show (vs.foldlM Shredded.record (out.emit r d)) = _
      rw [ih]
      simp [positions, Shredded.emit, Shredded.after]
    | some p =>
      have hall : ByteSeq.setAll out.present (positions (⟨r, d, some p⟩ :: vs)) =
          (ByteSeq.setBit out.present p).bind fun bs => ByteSeq.setAll bs (positions vs) := rfl
      rw [hall]
      simp only [Shredded.record, Shredded.mark, Shredded.emit]
      cases hb : ByteSeq.setBit out.present p with
      | none => rfl
      | some bs =>
        show vs.foldlM Shredded.record _ = _
        rw [ih, Option.bind_some]
        simp [positions, Shredded.after, Nat.add_assoc, Nat.add_comm 1]

namespace Shredder

/-- What `walk` emits at a slot, by the steps from `k` on. -/
def visit (leaf : LeafSpec) : List PathStep → ArrowArray → Int → Nat → Nat →
    Except Fault (List Visit)
  | [], _, _, _, _ => .error .undefined
  | st :: rest, a, e, r, d =>
    match enter leaf st a e d with
    | .error f => .error f
    | .ok none => .ok [⟨r, d, none⟩]
    | .ok (some d) =>
      match st.kind with
      | .leaf => .ok [⟨r, d, some e.toNat⟩]
      | .struct =>
        match structChild leaf st a with
        | .error f => .error f
        | .ok child => visit leaf rest child e r d
      | _ =>
        match listRange leaf st a e.toNat with
        | .error f => .error f
        | .ok (child, s, t) =>
          if s = t then .ok [⟨r, d, none⟩]
          else
            flatMapM
              (fun (j : Nat) =>
                visit leaf rest child (s + j) (if j = 0 then r else st.repLevel) (d + 1))
              (List.range (t - s).toNat)

/-- What the rows `0 .. n-1` emit. -/
def rowVisits (leaf : LeafSpec) (column : ArrowArray) (n : Nat) : Except Fault (List Visit) :=
  flatMapM (fun (i : Nat) => visit leaf leaf.steps column i 0 0) (List.range n)

/-- **`walk` records the visits of its slot.** -/
theorem walk_applies (leaf : LeafSpec) (steps : List PathStep) (a : ArrowArray) (e : Int)
    (r d : Nat) (out : Shredded) :
    Applies Shredded.record .undefined out (visit leaf steps a e r d)
      (walk leaf steps a e r d out) := by
  induction steps generalizing a e r d out with
  | nil => exact .inl rfl
  | cons st rest ih =>
    have single : ∀ v : Visit, Applies Shredded.record .undefined out (.ok [v]) (out.record v) := by
      intro v
      show _ = (out.record v >>= fun s => pure s)
      rw [bind_pure]
    unfold visit walk
    cases enter leaf st a e d with
    | error f => exact .inl rfl
    | ok o =>
    cases o with
    | none => exact single ⟨r, d, none⟩
    | some d' =>
    have list : Applies Shredded.record .undefined out
        (match listRange leaf st a e.toNat with
          | .error f => .error f
          | .ok (child, s, t) =>
            if s = t then .ok [⟨r, d', none⟩]
            else
              flatMapM
                (fun (j : Nat) =>
                  visit leaf rest child (s + j) (if j = 0 then r else st.repLevel) (d' + 1))
                (List.range (t - s).toNat))
        (match listRange leaf st a e.toNat with
          | .error f => .error f
          | .ok (child, s, t) =>
            if s = t then .ok (out.emit r d')
            else
              (List.range (t - s).toNat).foldlM
                (fun out (j : Nat) =>
                  walk leaf rest child (s + j) (if j = 0 then r else st.repLevel) (d' + 1) out)
                out) := by
      split
      · exact .inl rfl
      split
      · exact single ⟨r, d', none⟩
      · exact foldlM_applies (fun _ _ _ => record_error) fun j _ out => ih ..
    cases hk : st.kind with
    | leaf => exact single ⟨r, d', some e.toNat⟩
    | struct =>
      cases structChild leaf st a with
      | error f => exact .inl rfl
      | ok child => exact ih ..
    | list => exact list
    | largeList => exact list
    | map => exact list

theorem rows_applies (leaf : LeafSpec) (column : ArrowArray) (n : Nat) (out : Shredded) :
    Applies Shredded.record .undefined out (rowVisits leaf column n) (rows leaf column n out) :=
  foldlM_applies (fun _ _ _ => record_error) fun _ _ _ => walk_applies ..

/-! ## One slot -/

section visit

variable {leaf : LeafSpec} {st : PathStep} {rest : List PathStep} {a : ArrowArray} {e : Int}
  {r d : Nat}

theorem visit_null (hs : slot leaf st a e = .ok false) :
    visit leaf (st :: rest) a e r d = .ok [⟨r, d, none⟩] := by
  rw [visit, enter_eq, hs]
  rfl

theorem visit_leaf (hs : slot leaf st a e = .ok true) (hk : st.kind = .leaf) :
    visit leaf (st :: rest) a e r d = .ok [⟨r, d + st.defStep, some e.toNat⟩] := by
  rw [visit, enter_eq, hs, hk]
  rfl

theorem visit_struct {child : ArrowArray} (hs : slot leaf st a e = .ok true)
    (hk : st.kind = .struct) (hc : structChild leaf st a = .ok child) :
    visit leaf (st :: rest) a e r d = visit leaf rest child e r (d + st.defStep) := by
  rw [visit, enter_eq, hs]
  simp only [Except.map, if_true, hk, hc]

theorem visit_list {child : ArrowArray} {s t : Int} (hs : slot leaf st a e = .ok true)
    (hk : st.kind.isList) (hc : listRange leaf st a e.toNat = .ok (child, s, t)) :
    visit leaf (st :: rest) a e r d =
      if s = t then .ok [⟨r, d + st.defStep, none⟩]
      else
        flatMapM
          (fun (j : Nat) =>
            visit leaf rest child (s + j) (if j = 0 then r else st.repLevel) (d + st.defStep + 1))
          (List.range (t - s).toNat) := by
  rw [visit, enter_eq, hs]
  simp only [Except.map, if_true]
  cases hkind : st.kind with
  | leaf => rw [hkind] at hk; cases hk
  | struct => rw [hkind] at hk; cases hk
  | list => simp only [hc]
  | largeList => simp only [hc]
  | map => simp only [hc]

/-- How a visit goes well. -/
inductive VisitCase (leaf : LeafSpec) (st : PathStep) (rest : List PathStep) (a : ArrowArray)
    (e : Int) (r d : Nat) (vs : List Visit) : Prop where
  | null (hs : slot leaf st a e = .ok false) (hv : vs = [⟨r, d, none⟩])
  | leaf (hs : slot leaf st a e = .ok true) (hk : st.kind = .leaf)
      (hv : vs = [⟨r, d + st.defStep, some e.toNat⟩])
  | struct (child : ArrowArray) (hs : slot leaf st a e = .ok true) (hk : st.kind = .struct)
      (hc : structChild leaf st a = .ok child)
      (hv : visit leaf rest child e r (d + st.defStep) = .ok vs)
  | empty (child : ArrowArray) (s : Int) (hs : slot leaf st a e = .ok true) (hk : st.kind.isList)
      (hc : listRange leaf st a e.toNat = .ok (child, s, s))
      (hv : vs = [⟨r, d + st.defStep, none⟩])
  | list (child : ArrowArray) (s t : Int) (hs : slot leaf st a e = .ok true) (hk : st.kind.isList)
      (hc : listRange leaf st a e.toNat = .ok (child, s, t)) (hne : s ≠ t)
      (hv : flatMapM
          (fun (j : Nat) =>
            visit leaf rest child (s + j) (if j = 0 then r else st.repLevel) (d + st.defStep + 1))
          (List.range (t - s).toNat) = .ok vs)

theorem visit_cases {vs : List Visit} (h : visit leaf (st :: rest) a e r d = .ok vs) :
    VisitCase leaf st rest a e r d vs := by
  have hslot : ∃ b, slot leaf st a e = .ok b := by
    cases hs : slot leaf st a e with
    | error f => rw [visit, enter_eq, hs] at h; cases h
    | ok b => exact ⟨b, rfl⟩
  obtain ⟨b, hs⟩ := hslot
  cases b with
  | false =>
    rw [visit_null hs] at h
    exact .null hs (Except.ok.inj h).symm
  | true =>
  rcases st.kind.cases_isList with hl | hst | hk
  · rw [visit_leaf hs hl] at h
    exact .leaf hs hl (Except.ok.inj h).symm
  · cases hc : structChild leaf st a with
    | error f => rw [visit, enter_eq, hs] at h; simp [Except.map, hst, hc] at h
    | ok child =>
      rw [visit_struct hs hst hc] at h
      exact .struct child hs hst hc h
  cases hc : listRange leaf st a e.toNat with
  | error f =>
    rw [visit, enter_eq, hs] at h
    cases hkind : st.kind <;> simp_all [Except.map, StepKind.isList]
  | ok range =>
    obtain ⟨child, s, t⟩ := range
    rw [visit_list hs hk hc] at h
    split at h
    · rename_i hst
      subst hst
      exact .empty child s hs hk hc (Except.ok.inj h).symm
    · rename_i hne
      exact .list child s t hs hk hc hne h

/-- Where a visit fails. -/
inductive VisitFault (leaf : LeafSpec) (st : PathStep) (rest : List PathStep) (a : ArrowArray)
    (e : Int) (r d : Nat) (f : Fault) : Prop where
  | slot (hs : slot leaf st a e = .error f)
  | child (hs : slot leaf st a e = .ok true) (hk : st.kind = .struct)
      (hc : structChild leaf st a = .error f)
  | struct (child : ArrowArray) (hs : slot leaf st a e = .ok true) (hk : st.kind = .struct)
      (hc : structChild leaf st a = .ok child)
      (hv : visit leaf rest child e r (d + st.defStep) = .error f)
  | range (hs : slot leaf st a e = .ok true) (hk : st.kind.isList)
      (hc : listRange leaf st a e.toNat = .error f)
  | list (child : ArrowArray) (s t : Int) (hs : slot leaf st a e = .ok true) (hk : st.kind.isList)
      (hc : listRange leaf st a e.toNat = .ok (child, s, t)) (j : Nat) (hj : j < (t - s).toNat)
      (hv : visit leaf rest child (s + j) (if j = 0 then r else st.repLevel) (d + st.defStep + 1) =
        .error f)

theorem visit_faults {f : Fault} (h : visit leaf (st :: rest) a e r d = .error f) :
    VisitFault leaf st rest a e r d f := by
  cases hs : slot leaf st a e with
  | error f' =>
    rw [visit, enter_eq, hs] at h
    cases h
    exact .slot hs
  | ok b =>
  cases b with
  | false =>
    rw [visit_null hs] at h
    cases h
  | true =>
  rcases st.kind.cases_isList with hl | hst | hk
  · rw [visit_leaf hs hl] at h
    cases h
  · cases hc : structChild leaf st a with
    | error f' =>
      rw [visit, enter_eq, hs] at h
      simp only [Except.map, hst, hc, if_true, Except.error.injEq] at h
      rw [← h]
      exact .child hs hst hc
    | ok child =>
      rw [visit_struct hs hst hc] at h
      exact .struct child hs hst hc h
  cases hc : listRange leaf st a e.toNat with
  | error f' =>
    have : f' = f := by
      rw [visit, enter_eq, hs] at h
      cases hkind : st.kind <;> simp_all [Except.map, StepKind.isList]
    subst this
    exact .range hs hk hc
  | ok range =>
    obtain ⟨child, s, t⟩ := range
    rw [visit_list hs hk hc] at h
    split at h
    · cases h
    · obtain ⟨j, hj, hv⟩ := flatMapM_eq_error h
      exact .list child s t hs hk hc j (List.mem_range.mp hj) hv

end visit

theorem positions_flatMap {ι : Type} (g : ι → List Visit) (is : List ι) :
    positions (is.flatMap g) = is.flatMap fun i => positions (g i) := by
  simp only [positions, List.filterMap_flatMap]

/-- Every position of the visits of a run of slots comes from one of them. -/
theorem mem_positions_flatMapM {ι : Type} {f : ι → Except Fault (List Visit)} {is : List ι}
    {vs : List Visit} (h : flatMapM f is = .ok vs) {p : Nat} (hp : p ∈ positions vs) :
    ∃ i ∈ is, ∃ part, f i = .ok part ∧ p ∈ positions part := by
  obtain ⟨g, hg, rfl⟩ := flatMapM_eq_ok.mp h
  rw [positions_flatMap, List.mem_flatMap] at hp
  obtain ⟨i, hi, hp⟩ := hp
  exact ⟨i, hi, g i, hg i hi, hp⟩

/-- Every position visited lies in the leaf array. -/
theorem visit_bound {leaf : LeafSpec} {x : ArrowArray} (steps : List PathStep) :
    ∀ {a : ArrowArray} {e : Int} {r d : Nat} {vs : List Visit},
      leafOf? steps a = some x → visit leaf steps a e r d = .ok vs →
      ∀ p ∈ positions vs, p < x.length := by
  induction steps with
  | nil => intro a e r d vs _ h; cases h
  | cons st rest ih =>
    intro a e r d vs hx h p hp
    rcases visit_cases h with ⟨_, rfl⟩ | ⟨hs, hk, rfl⟩ | ⟨child, hs, hk, hc, hv⟩ |
      ⟨child, s, hs, hk, hc, rfl⟩ | ⟨child, s, t, hs, hk, hc, hne, hv⟩
    · cases hp
    · obtain ⟨_, h0, hlt, _⟩ := slot_eq_ok.mp hs
      have hpe : p = e.toNat := by simpa [positions] using hp
      have hax : a = x := by simpa [leafOf?, hk] using hx
      subst hax
      omega
    · have ht : st.target? a = some child := by
        simpa [PathStep.target?, hk] using (structChild_eq_ok.mp hc).2
      exact ih (by simpa [leafOf?, hk, ht] using hx) hv p hp
    · cases hp
    · have ht : st.target? a = some child := ((listRange_eq_ok hk).mp hc).2.2.2.2.1.2
      have hx' : leafOf? rest child = some x := by
        unfold leafOf? at hx
        rw [if_neg (by rintro h; rw [h] at hk; cases hk), ht] at hx
        exact hx
      obtain ⟨j, _, part, hpart, hpj⟩ := mem_positions_flatMapM hv hp
      exact ih hx' hpart p hpj

/-! ## The slots a walk comes to -/

/-- A slot the walk goes past. -/
theorem slot_of_passes {leaf : LeafSpec} {st : PathStep} {a : ArrowArray} {e : Nat} {b : Bool}
    (hv : st.optional = true → leaf.nullAt st a e = false) (h : slot leaf st a e = .ok b) :
    b = true := by
  obtain ⟨_, _, _, hb⟩ := slot_eq_ok.mp h
  cases hopt : st.optional with
  | false =>
    rw [if_neg (by simp [hopt])] at hb
    exact hb.1
  | true =>
    have hnull := hv hopt
    unfold LeafSpec.nullAt ArrowArray.slotNull at hnull
    simp only [Bool.or_eq_false_iff, Bool.not_eq_false'] at hnull
    rw [if_pos hopt, if_neg (by simp [hnull.1])] at hb
    rcases valid_eq_ok hb with ⟨_, rfl⟩ | ⟨_, rfl⟩
    · rfl
    · exact hnull.2

/-- A walk that goes well visits every slot it comes to. -/
theorem reached_visit {leaf : LeafSpec} {steps : List PathStep} {a : ArrowArray} {e : Nat}
    {st' : PathStep} {a' : ArrowArray} {e' : Nat} (h : Reached leaf steps a e st' a' e') :
    ∀ {r d : Nat} {vs : List Visit}, visit leaf steps a e r d = .ok vs →
      ∃ rest' r' d' vs', visit leaf (st' :: rest') a' e' r' d' = .ok vs' := by
  induction h with
  | here =>
    intro r d vs hv
    exact ⟨_, r, d, vs, hv⟩
  | @struct st rest a e child st' a' e' hk hpass ht _ ih =>
    intro r d vs hv
    rcases visit_cases hv with ⟨hs, _⟩ | ⟨_, hk', _⟩ | ⟨c, _, _, hc, hrest⟩ | ⟨_, _, _, hk', _, _⟩ |
      ⟨_, _, _, _, hk', _, _, _⟩
    · exact absurd (slot_of_passes hpass hs) (by simp)
    · rw [hk] at hk'
      cases hk'
    · have hct : st.target? a = some c := by
        simpa [PathStep.target?, hk] using (structChild_eq_ok.mp hc).2
      rw [ht] at hct
      cases hct
      exact ih hrest
    · exact absurd hk (StepKind.isList_ne hk').2
    · exact absurd hk (StepKind.isList_ne hk').2
  | @list st rest a e child st' a' e' s t p hk hpass ht hs hn hsp hpt _ ih =>
    intro r d vs hv
    rcases visit_cases hv with ⟨hslot, _⟩ | ⟨_, hk', _⟩ | ⟨_, _, hk', _, _⟩ | ⟨c, s', _, _, hc, _⟩ |
      ⟨c, s', t', _, _, hc, _, hrest⟩
    · exact absurd (slot_of_passes hpass hslot) (by simp)
    · exact absurd hk' (StepKind.isList_ne hk).1
    · exact absurd hk' (StepKind.isList_ne hk).2
    · obtain ⟨_, _, hs', hn', _⟩ := (listRange_eq_ok hk).mp hc
      rw [Int.toNat_natCast] at hs' hn'
      rw [hs] at hs'
      rw [hn] at hn'
      cases hs'
      cases hn'
      omega
    · obtain ⟨_, _, hs', hn', ⟨_, hct⟩, h0, _⟩ := (listRange_eq_ok hk).mp hc
      rw [Int.toNat_natCast] at hs' hn'
      rw [hs] at hs'
      rw [hn] at hn'
      rw [ht] at hct
      cases hs'
      cases hn'
      cases hct
      obtain ⟨g, hg, _⟩ := flatMapM_eq_ok.mp hrest
      have hj := hg (p - s.toNat) (List.mem_range.mpr (by omega))
      rw [show s + ((p - s.toNat : Nat) : Int) = (p : Int) by omega] at hj
      exact ih hj

/-- A slot that is visited has passed its node's checks. -/
theorem visit_slot {leaf : LeafSpec} {st : PathStep} {rest : List PathStep} {a : ArrowArray}
    {e : Int} {r d : Nat} {vs : List Visit} (h : visit leaf (st :: rest) a e r d = .ok vs) :
    ∃ b, slot leaf st a e = .ok b := by
  rcases visit_cases h with ⟨hs, _⟩ | ⟨hs, _, _⟩ | ⟨_, hs, _, _, _⟩ | ⟨_, _, hs, _, _, _⟩ |
    ⟨_, _, _, hs, _, _, _, _⟩
  all_goals exact ⟨_, hs⟩

/-! ## The row loop -/

/-- **What the row loop leaves behind.** -/
theorem rows_eq_ok {leaf : LeafSpec} {column : ArrowArray} {n : Nat} {out out' : Shredded} :
    rows leaf column n out = .ok out' ↔
      ∃ vs bs, rowVisits leaf column n = .ok vs ∧
        ByteSeq.setAll out.present (positions vs) = some bs ∧ out' = out.after vs bs := by
  have happ := rows_applies leaf column n out
  constructor
  · intro h
    obtain ⟨vs, hv, hrec⟩ := happ.of_ok h
    rw [foldlM_record] at hrec
    split at hrec
    · cases hrec
    · rename_i bs hbs
      exact ⟨vs, bs, hv, hbs, (Except.ok.inj hrec).symm⟩
  · rintro ⟨vs, bs, hv, hbs, rfl⟩
    rw [hv] at happ
    rw [show rows leaf column n out = _ from happ, foldlM_record, hbs]

end Shredder

/-- What the Shredder's output says of the visits. -/
structure Shredded.Of (sh : Shredded) (vs : List Visit) : Prop where
  rep : sh.rep = vs.map (·.rep)
  dfn : sh.dfn = vs.map (·.dfn)
  present : ∀ p, p ∈ ByteSeq.setBits sh.present ↔ p ∈ positions vs
  count : sh.presentCount = (positions vs).length

/-- A leaf that is shredded without error. -/
theorem shredLeaf_eq_ok {leaf : LeafSpec} {batch leafArr : ArrowArray} {sh : Shredded}
    (h : shredLeaf leaf batch = .ok (leafArr, sh)) :
    ∃ column vs, topColumn leaf batch = .ok column ∧ followSteps leaf.steps column = .ok leafArr ∧
      validateChild leafArr leaf.col leafArr.length = .ok () ∧
      Shredder.rowVisits leaf column batch.length.toNat = .ok vs ∧ sh.Of vs ∧
      ByteSeq.setAll (List.replicate (toSize (Int.tdiv (leafArr.length + 7) 8)) 0) (positions vs) =
        some sh.present := by
  unfold shredLeaf at h
  obtain ⟨column, hcolumn, h⟩ := bind_eq_ok.mp h
  obtain ⟨arr, hfollow, h⟩ := bind_eq_ok.mp h
  obtain ⟨_, hvalid, h⟩ := bind_eq_ok.mp h
  obtain ⟨_, _, h⟩ := bind_eq_ok.mp h
  obtain ⟨_, _, h⟩ := bind_eq_ok.mp h
  obtain ⟨out, hrows, h⟩ := bind_eq_ok.mp h
  cases h
  obtain ⟨vs, bs, hvisits, hbs, rfl⟩ := Shredder.rows_eq_ok.mp hrows
  refine ⟨column, vs, hcolumn, hfollow, hvalid, hvisits, ⟨rfl, rfl, fun p => ?_, ?_⟩, hbs⟩
  · exact ByteSeq.mem_setBits_setAll hbs
  · simp [Shredded.after]

end N2P
