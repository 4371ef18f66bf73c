import N2P.FlatWalk
import N2P.LeafPositions
import N2P.PagePlans
import N2P.Records

/-!
# The lengths in an emitted page

* `PagePlan.For` — a planned page, in terms of the batch.
* `writeBatch_final`, `writeOneBatch_stream` — the stream after a call is what the leaf loop left.
* `pageLengths_exact` — every page `write_batch` streams states its numbers exactly, and the first
  that cannot makes the call an I/O error.
-/

namespace N2P

open Outcome

/-! ## One call -/

/-- The commit streams nothing. -/
theorem finalState_commit (batch : ArrowArray) (rg : RowGroupMeta) (w : Writer) :
    (finalState (commit batch rg w)).out = w.out ∧
      (finalState (commit batch rg w)).leaves = w.leaves := by
  have h : commit batch rg w =
      (if w.out.good = true then pure () else refuse .ioError .ioError : WriterM Unit)
        { w with rowGroups := w.rowGroups ++ [rg], totalRows := w.totalRows + batch.length } := rfl
  rw [h]
  split
  · exact ⟨rfl, rfl⟩
  · exact ⟨rfl, rfl⟩

/-- The stream after a call: untouched, or as the leaf loop left it. -/
theorem writeOneBatch_stream (X : External) (schema : Option ArrowSchema)
    (batch : Option ArrowArray) (w : Writer) :
    (finalState (writeOneBatch X schema batch w)).out = w.out ∨
      ∃ sc b w1, checkArguments schema batch = .ok (sc, b) ∧ Locked sc w w1 ∧
        (finalState (writeOneBatch X schema batch w)).out =
          w1.out.writeAll (leavesEmission X b w1.codec w1.encoding w1.leaves).output ∧
        (finalState (writeOneBatch X schema batch w)).leaves = w1.leaves := by
  by_cases h : ∃ sc b w1, checkArguments schema batch = .ok (sc, b) ∧ Locked sc w w1
  · obtain ⟨sc, b, w1, hargs, hlock⟩ := h
    refine .inr ⟨sc, b, w1, hargs, hlock, ?_⟩
    obtain ⟨msg, hfinal⟩ := finalState_writeLeaves X w1.leaves b { numRows := b.length } w1
    have hout := congrArg Writer.out hfinal
    have hleaves := congrArg Writer.leaves hfinal
    rw [writeOneBatch_eq hargs hlock]
    simp only [bind, EStateM.bind]
    cases hx : writeLeaves X w1.leaves b { numRows := b.length } w1 with
    | ok rg t =>
      rw [hx] at hout hleaves
      obtain ⟨hcommit, hcommit'⟩ := finalState_commit b rg t
      exact ⟨hcommit.trans hout, hcommit'.trans hleaves⟩
    | error e t =>
      rw [hx] at hout hleaves
      exact ⟨hout, hleaves⟩
  · left
    cases hx : writeOneBatch X schema batch w with
    | ok u t =>
      obtain ⟨sc, b, w1, _, hargs, hlock, _⟩ := writeOneBatch_ok hx
      exact absurd ⟨sc, b, w1, hargs, hlock⟩ h
    | error e t =>
      rcases writeOneBatch_error hx with ⟨msg, _, _⟩ | ⟨sc, b, w1, _, hargs, hlock, _⟩ |
        ⟨sc, b, w1, _, hargs, hlock, _⟩
      · rfl
      · exact absurd ⟨sc, b, w1, hargs, hlock⟩ h
      · exact absurd ⟨sc, b, w1, hargs, hlock⟩ h

/-- A call ends where its batch did, but for the last error. -/
theorem writeBatch_final {X : External} {schema : Option ArrowSchema} {batch : Option ArrowArray}
    {w w' : Writer} {status : N2PStatus}
    (h : n2pWriterWriteBatch X w schema batch = some (status, w')) :
    w'.out = w.out ∨ w'.out = (finalState (writeOneBatch X schema batch w)).out ∧
      w'.leaves = (finalState (writeOneBatch X schema batch w)).leaves := by
  unfold n2pWriterWriteBatch at h
  split at h
  · right
    cases hx : writeOneBatch X schema batch w with
    | ok u t =>
      rw [hx] at h
      cases h
      exact ⟨rfl, rfl⟩
    | error e t =>
      rw [hx] at h
      cases e <;> cases h <;> exact ⟨rfl, rfl⟩
  · left
    cases h
    rfl

/-- A page of a leaf of the batch. -/
structure PagePlan.For (X : External) (batch : Batch) (mode : Nat) (leaf : LeafSpec)
    (plan : PagePlan) : Prop where
  planned : ∃ plans, leafPlans X batch.array mode leaf = .ok plans ∧ plan ∈ plans
  /-- Outside lists a data page has an entry for each row. -/
  rows : plan.type = .dataPage → leaf.hasList = false → (plan.count : Int) = batch.array.length
  /-- A dictionary page has an entry for each of its strings. -/
  entries : plan.type = .dictionaryPage → ∃ vs, plan.strings = some vs ∧ plan.count = vs.length
  /-- A PLAIN page of byte strings is made up of them. -/
  plain : leaf.col.extract = .byteArray → plan.encoding = .plain → plan.strings ≠ none

/-- Outside lists the level entries are the rows. -/
theorem levelRuns_count {X : External} {leaf : LeafSpec} {batch : ArrowArray} {r : LevelRuns}
    (h : levelRuns X leaf batch = .ok r) (hflat : leaf.hasList = false) :
    r.count = toSize batch.length := by
  unfold levelRuns at h
  rw [if_neg (by simp [hflat])] at h
  split at h
  · cases h
  dsimp only at h
  split at h
  · obtain ⟨fl, _, rfl⟩ := map_eq_ok.mp h
    rfl
  · cases h
    rfl

theorem planFor {X : External} {batch : Batch} {mode : Nat} {leaf : LeafSpec}
    {plans : List PagePlan} (h : leafPlans X batch.array mode leaf = .ok plans) {plan : PagePlan}
    (hmem : plan ∈ plans) (hcount : plan.count ≤ INT32_MAX) : plan.For X batch mode leaf := by
  have hplans := h
  unfold leafPlans at h
  split at h
  · cases h
  rename_i r hr
  have hrows : plan.count = r.count → leaf.hasList = false →
      (plan.count : Int) = batch.array.length := by
    intro heq hflat
    have hint := batch.int64
    rw [heq, levelRuns_count hr hflat] at hcount ⊢
    unfold INT32_MAX toSize at hcount
    unfold IsInt64 at hint
    unfold toSize
    omega
  unfold chunkPlans at h
  split at h
  · split at h
    · cases h
    rename_i present _
    obtain ⟨p, hp, rfl⟩ := map_eq_ok.mp h
    have hdone := hmem
    unfold stringPlans at hmem
    split at hmem
    · rcases List.mem_cons.mp hmem with rfl | hmem
      · exact ⟨⟨_, hplans, hdone⟩, nofun, fun _ => ⟨_, rfl, rfl⟩, fun _ _ => nofun⟩
      · rw [List.mem_singleton.mp hmem] at hdone hrows ⊢
        exact ⟨⟨_, hplans, hdone⟩, fun _ => hrows rfl, nofun, fun _ => nofun⟩
    · rw [List.mem_singleton.mp hmem] at hdone hrows ⊢
      refine ⟨⟨_, hplans, hdone⟩, fun _ => hrows rfl, nofun, fun _ hplain => ?_⟩
      have hplain : p.dataEncoding = .plain := hplain
      simp [hplain]
  · rename_i hs
    split at h
    · cases h
    obtain ⟨v, hv, rfl⟩ := map_eq_ok.mp h
    have hdone := hmem
    rw [List.mem_singleton.mp hmem] at hdone hrows ⊢
    exact ⟨⟨_, hplans, hdone⟩, fun _ => hrows rfl, nofun, fun hs' => absurd hs' hs⟩

/-- The pages with these plans are what a call added to the stream. -/
def StreamedPages (X : External) (codec : CompressionCodec) (plans : List PagePlan)
    (w w' : Writer) : Prop :=
  ∃ ps, List.Forall₂ (PagePlan.Emitted X codec) plans ps ∧
    w'.out = w.out.writeAll (ps.flatMap Page.pieces)

/-- **No length is truncated in an emitted page.**  Whatever a call returns, what it streamed are
    pages of the batch's leaves that state their counts, sizes and 4-byte lengths exactly.  And a
    call whose next chunk has a number that does not fit returns an I/O error, with nothing streamed
    past the page before. -/
theorem pageLengths_exact (X : External) (w : Writer) (schema : Option ArrowSchema)
    (batch : Option Batch) :
    (∀ status w', n2pWriterWriteBatch X w schema (batch.map (·.array)) = some (status, w') →
      ∃ plans, StreamedPages X w.codec plans w w' ∧
        ∀ plan ∈ plans, ∃ b leaf, batch = some b ∧ leaf ∈ w'.leaves ∧
          plan.For X b w.encoding leaf) ∧
    ∀ sc b w1 pre leaf post done before,
      checkArguments schema (batch.map (·.array)) = .ok (sc, b) → Locked sc w w1 →
      w1.leaves = pre ++ leaf :: post → flatMapM (leafPlans X b w.encoding) pre = .ok done →
      Overflows X w.codec b w.encoding leaf before →
      ∃ w' plans, n2pWriterWriteBatch X w schema (batch.map (·.array)) = some (.ioError, w') ∧
        plans <+: done ++ before ∧ StreamedPages X w.codec plans w w' := by
  refine ⟨fun status w' h => ?_, fun sc b w1 pre leaf post done before hargs hlock hleaves hpre
    hover => ?_⟩
  · have nothing : w'.out = w.out → ∃ plans, StreamedPages X w.codec plans w w' ∧
        ∀ plan ∈ plans, ∃ b leaf, batch = some b ∧ leaf ∈ w'.leaves ∧
          plan.For X b w.encoding leaf := by
      intro hout
      exact ⟨[], ⟨[], .nil, hout⟩, by simp⟩
    rcases writeBatch_final h with hout | ⟨hout, hleaves⟩
    · exact nothing hout
    rcases writeOneBatch_stream X schema (batch.map (·.array)) w with hsame |
      ⟨sc, b, w1, hargs, hlock, hstream, hlocked⟩
    · exact nothing (hout.trans hsame)
    obtain ⟨hcodec, hencoding, _⟩ := hlock.settings
    obtain ⟨_, hbatch, _⟩ := checkArguments_eq_ok.mp hargs
    obtain ⟨b', rfl, rfl⟩ := Option.map_eq_some_iff.mp hbatch
    obtain ⟨plans, hdone, pre, all, hpre, hall, hsub⟩ :=
      leavesEmission_pages X b'.array w1.codec w1.encoding w1.leaves
    refine ⟨plans, ?_, fun plan hplan => ?_⟩
    · obtain ⟨ps, hps, hpieces⟩ := hdone
      rw [hcodec] at hps
      exact ⟨ps, hps, by rw [hout, hstream, hpieces, hlock.out]⟩
    · rw [hencoding] at hall
      obtain ⟨g, hg, rfl⟩ := flatMapM_eq_ok.mp hall
      obtain ⟨leaf, hleaf, hmem⟩ := List.mem_flatMap.mp (hsub.subset hplan)
      refine ⟨b', leaf, rfl, ?_, planFor (hg leaf hleaf) hmem (hdone.fits plan hplan).count⟩
      rw [hleaves, hlocked]
      exact hpre.subset hleaf
  · obtain ⟨hcodec, hencoding, _⟩ := hlock.settings
    unfold n2pWriterWriteBatch
    split
    · obtain ⟨what, plans, hthrown, hsub, ps, hps, hpieces⟩ :=
        @Overflows.leavesEmission X w.codec b w.encoding pre post leaf done before hpre hover
      rw [← hleaves, ← hcodec, ← hencoding] at hthrown hpieces
      have hloop := writeLeaves_stopped hthrown { numRows := b.length }
      rw [hpieces] at hloop
      rw [writeOneBatch_eq hargs hlock, seq_eq_error.mpr (.inl hloop)]
      refine ⟨_, plans, rfl, hsub, ps, hps, ?_⟩
      rw [← hlock.out]
      rfl
    · exact ⟨_, [], rfl, List.nil_prefix, [], .nil, rfl⟩

/-- A column of `n` nulls: it has no buffers. -/
def nulls (n : Nat) : ArrowArray :=
  { length := n, nullCount := n, offset := 0, nBuffers := 0, nChildren := 0,
    buffers := none, children := none }

def nullsSchema : ArrowSchema := .nested "+s" "" false [.leaf "n" "x" true]

def nullLeaf : LeafSpec :=
  leafSpec (ColumnKind.null.spec "x" true) [0] ["x"] [true] [{ kind := .leaf, optional := true }]

/-- A column of nulls asks for one page, of that many entries. -/
theorem leafPlans_nulls (X : External) {n : Nat} (hn : n < 2 ^ 63) (mode : Nat) :
    ∃ plan, leafPlans X (.struct n none 0 [nulls n]) mode nullLeaf = .ok [plan] ∧
      plan.count = n := by
  have hsize : toSize (n : Int) = n := by
    unfold toSize
    omega
  have hvalid : validateChild (nulls n) nullLeaf.col n = .ok () := by
    unfold validateChild
    rw [if_neg (by simp [nulls]), if_neg (by simp [nulls]),
      if_neg (by simp [nullLeaf, leafSpec, ColumnKind.spec]),
      if_pos (by simp [nullLeaf, leafSpec, ColumnKind.spec])]
  have hnodes : flatNodes nullLeaf (.struct n none 0 [nulls n]) = .ok ([nulls n], nulls n) := by
    show (validateChild (nulls n) nullLeaf.col n >>= fun _ => pure ([nulls n], nulls n)) = _
    rw [hvalid]
    rfl
  obtain ⟨fl, hfl⟩ : ∃ fl, flatRows nullLeaf [nulls n] n = .ok fl := by
    rw [flatRows_eq nullLeaf [nulls n] hn, if_neg fun h => absurd h.1 (by decide),
      @foldlM_flatRow nullLeaf [nulls n] (fun _ => (0, false)) _ fun i _ =>
        ⟨rfl, fun h => by cases h⟩]
    have hnone : (List.range n).filter (fun _ => false) = [] := List.filter_false _
    rw [hnone]
    exact ⟨_, rfl⟩
  have hruns : ∃ r, levelRuns X nullLeaf (.struct n none 0 [nulls n]) = .ok r ∧ r.count = n := by
    unfold levelRuns
    rw [if_neg (by decide), hnodes]
    dsimp only [ArrowArray.struct]
    rw [hsize, if_pos (by decide), hfl]
    exact ⟨_, rfl, rfl⟩
  obtain ⟨r, hr, hcount⟩ := hruns
  refine ⟨⟨.dataPage, .plain, r.count, r.runs, [], none⟩, ?_, hcount⟩
  unfold leafPlans
  rw [hr]
  rfl

/-- One row more than a page header can count. -/
def nullsBatch : Batch where
  array := .struct (2 ^ 31 : Nat) none 0 [nulls (2 ^ 31)]
  int64 := by show IsInt64 (2 ^ 31 : Nat); decide

theorem pageLengths_exact_nulls :
    (∃ w' plans, n2pWriterWriteBatch .reference freshWriter (some listSchema)
        (some listBatch.array) = some (.ok, w') ∧
      StreamedPages .reference .zstd plans freshWriter w' ∧
      ∀ plan ∈ plans, ∃ b leaf, some listBatch = some b ∧ leaf ∈ w'.leaves ∧
        plan.For .reference b 0 leaf) ∧
    ∃ w' plans, n2pWriterWriteBatch .reference freshWriter (some nullsSchema)
        (some nullsBatch.array) = some (.ioError, w') ∧
      plans <+: [] ∧ StreamedPages .reference .zstd plans freshWriter w' := by
  refine ⟨?_, ?_⟩
  · have hok : (n2pWriterWriteBatch .reference freshWriter (some listSchema)
        (some listBatch.array)).map (·.1) = some .ok := by decide +kernel
    obtain ⟨⟨status, w'⟩, hcall, rfl⟩ := Option.map_eq_some_iff.mp hok
    obtain ⟨plans, hplans, hfor⟩ :=
      (pageLengths_exact .reference freshWriter (some listSchema) (some listBatch)).1 _ w' hcall
    exact ⟨w', plans, hcall, hplans, hfor⟩
  · obtain ⟨plan, hplans, hcount⟩ := leafPlans_nulls .reference (by decide : 2 ^ 31 < 2 ^ 63) 0
    refine (pageLengths_exact .reference freshWriter (some nullsSchema) (some nullsBatch)).2
      nullsSchema nullsBatch.array (freshWriter.lock nullsSchema
        [leafNode (ColumnKind.null.spec "x" true)] [nullLeaf]) [] nullLeaf [] [] [] rfl
      (.now _ _ rfl rfl (by simp)) rfl rfl
      (@Overflows.page _ _ _ _ _ [] [] plan hplans fun h => ?_)
    have hle := h.count
    unfold INT32_MAX at hle
    omega

end N2P
