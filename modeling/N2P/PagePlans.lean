import N2P.StringSizes
import N2P.ValuePages

/-!
# The pages a leaf asks for

Page headers hold 32-bit counts and sizes, level streams and byte strings stand behind 4-byte
lengths.  A `PagePlan` is a page before any of these has to fit: its counts and lengths are natural
numbers.

* `leafPlans` — the pages a leaf asks for.
* `PagePlan.Fits`, `PagePlan.Emitted` — every number of the page fits its field; the page that was
  emitted states it.
* `Emits` — an emission of pages in order that ends early only by an exception; closed under
  sequencing (`emits_bind`).
* `leafEmission_plans`, `Overflows.leafEmission` — a leaf's pages are emitted as planned, up to the
  first that does not fit.
* `leavesEmission_pages` — what the leaf loop has emitted, however it ended.
-/

namespace N2P

open Outcome

/-! ## Pages to be emitted -/

/-- A page, before its numbers have to fit. -/
structure PagePlan where
  type : PageType
  encoding : Encoding
  /-- Level entries, or entries of the dictionary. -/
  count : Nat
  /-- The encoded level streams. -/
  runs : List Bytes
  values : Bytes
  /-- The byte strings that make up `values`, each behind its length. -/
  strings : Option (List Bytes)
  deriving DecidableEq, Repr

/-- The uncompressed body. -/
def PagePlan.body (plan : PagePlan) : Bytes :=
  (plan.runs.flatMap fun run => leSize run.length ++ run) ++ plan.values

/-- The lengths stored in four bytes. -/
def PagePlan.prefixes (plan : PagePlan) : List Nat :=
  (plan.runs ++ plan.strings.getD []).map List.length

/-- The header that states these sizes. -/
def PagePlan.header (plan : PagePlan) (uncompressed compressed : Nat) : PageHeader :=
  match plan.type with
  | .dataPage => dataPage plan.count plan.encoding uncompressed compressed
  | .dictionaryPage => dictionaryPage plan.count uncompressed compressed

/-- Every number of the page fits its field. -/
structure PagePlan.Fits (X : External) (codec : CompressionCodec) (plan : PagePlan) : Prop where
  count : plan.count ≤ INT32_MAX
  uncompressed : plan.body.length ≤ INT32_MAX
  compressed : ∀ comp, compressPage X plan.body codec = .ok comp → comp.length ≤ INT32_MAX
  prefixes : ∀ n ∈ plan.prefixes, n ≤ UINT32_MAX

/-- **The page states its numbers exactly.** -/
structure PagePlan.Emitted (X : External) (codec : CompressionCodec) (plan : PagePlan) (p : Page) :
    Prop where
  body : p.body = plan.body
  stored : compressPage X p.body codec = .ok p.stored
  header : p.header = plan.header p.body.length p.stored.length
  encoded : X.encodePageHeader p.header = .ok p.headerBytes
  strings : ∀ vs, plan.strings = some vs → plan.values = plainByteArrays vs
  /-- Each 4-byte length reads back as the number it was written from. -/
  prefixes : ∀ n ∈ plan.prefixes, ByteSeq.ofLE (leSize n) = n
  fits : plan.Fits X codec

/-! ## What a leaf asks for -/

/-- The level streams of a leaf before they are given their lengths, and what its values are built
    from. -/
structure LevelRuns where
  arr : ArrowArray
  validity : Option Bytes
  runs : List Bytes
  count : Nat

/-- `leafInputs`, whatever the lengths of the level streams. -/
def levelRuns (X : External) (leaf : LeafSpec) (batch : ArrowArray) : Except Fault LevelRuns :=
  if leaf.hasList then
    (shredLeaf leaf batch).map fun (leafArr, sh) =>
      { arr := leafArr
        validity := if sh.presentCount < toSize leafArr.length then some sh.present else none
        runs := [X.rleHybridEncode sh.rep leaf.repBitWidth, X.rleHybridEncode sh.dfn leaf.defBitWidth]
        count := sh.dfn.length }
  else
    match flatNodes leaf batch with
    | .error e => .error e
    | .ok (nodes, child) =>
      let n := toSize batch.length
      if leaf.maxDefLevel > 0 then
        (flatRows leaf nodes n).map fun fl =>
          { arr := child
            validity := if fl.presentCount < n then some fl.present else none
            runs := [if leaf.maxDefLevel = 1 then X.rleBitmapEncode fl.present n
              else X.rleHybridEncode fl.dfn leaf.defBitWidth]
            count := n }
      else .ok { arr := child, validity := none, runs := [], count := n }

/-- The pages of a chunk of byte strings. -/
def stringPlans (X : External) (r : LevelRuns) (present : List Bytes) (p : ByteArrayPages) :
    List PagePlan :=
  if p.useDictionary then
    let dict := X.dictionaryValues (indexAll X X.emptyDictionary present).2
    [{ type := .dictionaryPage, encoding := .plain, count := dict.length, runs := [],
       values := p.dictBody, strings := some dict },
     { type := .dataPage, encoding := .rleDictionary, count := r.count, runs := r.runs,
       values := p.dataBody, strings := none }]
  else
    [{ type := .dataPage, encoding := p.dataEncoding, count := r.count, runs := r.runs,
       values := p.dataBody, strings := if p.dataEncoding = .plain then some present else none }]

/-- The pages of a chunk. -/
def chunkPlans (X : External) (r : LevelRuns) (s : ColumnSpec) (mode : Nat) :
    Except Fault (List PagePlan) :=
  if s.extract = .byteArray then
    match presentStrings r.arr s r.validity with
    | .error e => .error e
    | .ok present => (byteArrayPages X present mode).map (stringPlans X r present)
  else
    match fixedStats X r.arr s r.validity with
    | .error e => .error e
    | .ok _ =>
      (fixedBody X r.arr s r.validity mode).map fun v =>
        [{ type := .dataPage, encoding := v.1, count := r.count, runs := r.runs, values := v.2,
           strings := none }]

/-- The pages a leaf of a batch asks for. -/
def leafPlans (X : External) (batch : ArrowArray) (mode : Nat) (leaf : LeafSpec) :
    Except Fault (List PagePlan) :=
  match levelRuns X leaf batch with
  | .error e => .error e
  | .ok r => chunkPlans X r leaf.col mode

/-! ## Level streams -/

theorem withLengthPrefix_eq {run : Bytes} (h : run.length ≤ UINT32_MAX) :
    withLengthPrefix run = .ok (leSize run.length ++ run) := by
  unfold withLengthPrefix
  rw [if_neg (by omega)]

theorem withLengthPrefix_long {run : Bytes} (h : UINT32_MAX < run.length) :
    ∃ what, withLengthPrefix run = .error (.thrown what) := by
  unfold withLengthPrefix
  rw [if_pos h]
  exact ⟨_, rfl⟩

/-- The inputs of a leaf whose level streams fit. -/
structure LevelRuns.Inputs (r : LevelRuns) (inp : LeafInputs) : Prop where
  arr : inp.arr = r.arr
  validity : inp.validity = r.validity
  levels : inp.levels = r.runs.flatMap fun run => leSize run.length ++ run
  numLevels : inp.numLevels = r.count

/-- The run of a leaf outside lists is the one that gets its length. -/
theorem flatLevels_of_rows {X : External} {leaf : LeafSpec} {nodes : List ArrowArray} {n : Nat}
    {fl : FlatLevels} (hD : 0 < leaf.maxDefLevel) (hfl : flatRows leaf nodes n = .ok fl) :
    flatLevels X leaf nodes n =
      (withLengthPrefix (if leaf.maxDefLevel = 1 then X.rleBitmapEncode fl.present n
        else X.rleHybridEncode fl.dfn leaf.defBitWidth)).map fun p =>
        (p, if fl.presentCount < n then some fl.present else none, (n : Int) - fl.presentCount) := by
  unfold flatLevels encodeDefinitionLevelsBitmap encodeDefinitionLevels
  rw [if_pos hD, hfl]
  by_cases h1 : leaf.maxDefLevel = 1
  · simp only [if_pos h1]
    show (withLengthPrefix (X.rleBitmapEncode fl.present n) >>= fun p => pure (p, _, _)) = _
    cases withLengthPrefix (X.rleBitmapEncode fl.present n) <;> rfl
  · simp only [if_neg h1]
    show (withLengthPrefix (X.rleHybridEncode fl.dfn leaf.defBitWidth) >>= fun p =>
      pure (p, _, _)) = _
    cases withLengthPrefix (X.rleHybridEncode fl.dfn leaf.defBitWidth) <;> rfl

theorem leafInputs_fits {X : External} {leaf : LeafSpec} {batch : ArrowArray} {r : LevelRuns}
    (h : levelRuns X leaf batch = .ok r) (hr : ∀ run ∈ r.runs, run.length ≤ UINT32_MAX) :
    ∃ inp, leafInputs X leaf batch = .ok inp ∧ r.Inputs inp := by
  unfold levelRuns at h
  unfold leafInputs
  by_cases hl : leaf.hasList = true
  · rw [if_pos hl] at h ⊢
    obtain ⟨⟨leafArr, sh⟩, hsh, rfl⟩ := map_eq_ok.mp h
    unfold listInputs encodeDefinitionLevels
    rw [hsh]
    dsimp only at hr ⊢
    rw [withLengthPrefix_eq (hr _ List.mem_cons_self), withLengthPrefix_eq (hr _ (by simp))]
    exact ⟨_, rfl, rfl, rfl, by simp, rfl⟩
  · rw [if_neg hl] at h ⊢
    unfold flatInputs
    rcases hnodes : flatNodes leaf batch with e | ⟨nodes, child⟩
    · rw [hnodes] at h
      cases h
    rw [hnodes] at h
    dsimp only at h ⊢
    by_cases hD : leaf.maxDefLevel > 0
    · rw [if_pos hD] at h
      obtain ⟨fl, hfl, rfl⟩ := map_eq_ok.mp h
      rw [flatLevels_of_rows hD hfl, withLengthPrefix_eq (hr _ (List.mem_singleton_self _))]
      exact ⟨_, rfl, rfl, rfl, by simp, rfl⟩
    · rw [if_neg hD] at h
      unfold flatLevels
      rw [if_neg hD]
      cases h
      exact ⟨_, rfl, rfl, rfl, rfl, rfl⟩

theorem leafInputs_long {X : External} {leaf : LeafSpec} {batch : ArrowArray} {r : LevelRuns}
    (h : levelRuns X leaf batch = .ok r) (hr : ∃ run ∈ r.runs, UINT32_MAX < run.length) :
    ∃ what, leafInputs X leaf batch = .error (.thrown what) := by
  obtain ⟨run, hmem, hlong⟩ := hr
  unfold levelRuns at h
  unfold leafInputs
  by_cases hl : leaf.hasList = true
  · rw [if_pos hl] at h ⊢
    obtain ⟨⟨leafArr, sh⟩, hsh, rfl⟩ := map_eq_ok.mp h
    unfold listInputs encodeDefinitionLevels
    rw [hsh]
    dsimp only at hmem ⊢
    by_cases hrep : UINT32_MAX < (X.rleHybridEncode sh.rep leaf.repBitWidth).length
    · obtain ⟨what, hwhat⟩ := withLengthPrefix_long hrep
      exact ⟨what, by rw [hwhat]⟩
    · have hdfn : UINT32_MAX < (X.rleHybridEncode sh.dfn leaf.defBitWidth).length := by
        rcases List.mem_cons.mp hmem with rfl | hmem
        · exact absurd hlong hrep
        · rwa [← List.mem_singleton.mp hmem]
      obtain ⟨what, hwhat⟩ := withLengthPrefix_long hdfn
      exact ⟨what, by rw [withLengthPrefix_eq (by omega), hwhat]; rfl⟩
  · rw [if_neg hl] at h ⊢
    unfold flatInputs
    rcases hnodes : flatNodes leaf batch with e | ⟨nodes, child⟩
    · rw [hnodes] at h
      cases h
    rw [hnodes] at h
    dsimp only at h ⊢
    by_cases hD : leaf.maxDefLevel > 0
    · rw [if_pos hD] at h
      obtain ⟨fl, hfl, rfl⟩ := map_eq_ok.mp h
      rw [List.mem_singleton.mp hmem] at hlong
      obtain ⟨what, hwhat⟩ := withLengthPrefix_long hlong
      exact ⟨what, by rw [flatLevels_of_rows hD hfl, hwhat]; rfl⟩
    · rw [if_neg hD] at h
      cases h
      cases hmem

/-- A leaf whose levels cannot be computed has no inputs. -/
theorem leafInputs_error {X : External} {leaf : LeafSpec} {batch : ArrowArray} {e : Fault}
    (h : levelRuns X leaf batch = .error e) : leafInputs X leaf batch = .error e := by
  unfold levelRuns at h
  unfold leafInputs
  by_cases hl : leaf.hasList = true
  · rw [if_pos hl] at h ⊢
    have hsh := map_eq_error.mp h
    unfold listInputs
    rw [hsh]
  · rw [if_neg hl] at h ⊢
    unfold flatInputs
    rcases hnodes : flatNodes leaf batch with e' | ⟨nodes, child⟩
    · rw [hnodes] at h
      cases h
      rfl
    rw [hnodes] at h
    dsimp only at h ⊢
    unfold flatLevels
    by_cases hD : leaf.maxDefLevel > 0
    · rw [if_pos hD] at h ⊢
      rw [map_eq_error.mp h]
      rfl
    · rw [if_neg hD] at h
      cases h

/-! ## Emissions of pages -/

/-- The pieces are pages, for these plans. -/
def PiecesOf (X : External) (codec : CompressionCodec) (plans : List PagePlan)
    (pieces : List Bytes) : Prop :=
  ∃ ps, List.Forall₂ (PagePlan.Emitted X codec) plans ps ∧ pieces = ps.flatMap Page.pieces

theorem PiecesOf.nil (X : External) (codec : CompressionCodec) : PiecesOf X codec [] [] :=
  ⟨[], .nil, rfl⟩

theorem PiecesOf.append {X : External} {codec : CompressionCodec} {xs ys : List PagePlan}
    {pieces pieces' : List Bytes} (h : PiecesOf X codec xs pieces)
    (h' : PiecesOf X codec ys pieces') : PiecesOf X codec (xs ++ ys) (pieces ++ pieces') := by
  obtain ⟨ps, hps, rfl⟩ := h
  obtain ⟨qs, hqs, rfl⟩ := h'
  exact ⟨ps ++ qs, List.rel_append hps hqs, List.flatMap_append.symm⟩

/-- What was emitted fits. -/
theorem PiecesOf.fits {X : External} {codec : CompressionCodec} {plans : List PagePlan}
    {pieces : List Bytes} (h : PiecesOf X codec plans pieces) :
    ∀ plan ∈ plans, plan.Fits X codec := by
  obtain ⟨ps, hps, hpieces⟩ := h
  clear hpieces
  induction hps with
  | nil => simp
  | cons hp _ ih => exact List.forall_mem_cons.mpr ⟨hp.fits, ih⟩

/-- The emission is of the pages asked for, in order; it ends early only by an exception, with the
    first of them emitted. -/
def Emits {α : Type} (X : External) (codec : CompressionCodec) (plans : List PagePlan)
    (m : Emission Fault Bytes α) : Prop :=
  match m.result with
  | .ok _ => PiecesOf X codec plans m.output
  | .error f => f.IsThrown ∧ ∃ done, done <+: plans ∧ PiecesOf X codec done m.output

section Emits

variable {α β : Type} {X : External} {codec : CompressionCodec} {mode : Nat}
  {plans plans' : List PagePlan}

theorem emits_pure (a : α) : Emits X codec [] (pure a) := PiecesOf.nil X codec

theorem Emits.ok {m : Emission Fault Bytes α} (h : Emits X codec plans m) {a : α}
    (hm : m.result = .ok a) : PiecesOf X codec plans m.output := by
  unfold Emits at h
  rwa [hm] at h

theorem Emits.error {m : Emission Fault Bytes α} (h : Emits X codec plans m) {f : Fault}
    (hm : m.result = .error f) :
    f.IsThrown ∧ ∃ done, done <+: plans ∧ PiecesOf X codec done m.output := by
  unfold Emits at h
  rwa [hm] at h

/-- Nothing is emitted by a step that throws at once. -/
theorem emits_thrown {m : Emission Fault Bytes α} {what : String}
    (h : m = ⟨[], .error (.thrown what)⟩) : Emits X codec plans m := by
  subst h
  exact ⟨⟨what, rfl⟩, [], List.nil_prefix, PiecesOf.nil X codec⟩

theorem emits_bind {m : Emission Fault Bytes α} {f : α → Emission Fault Bytes β}
    (hm : Emits X codec plans m) (hf : ∀ a, Emits X codec plans' (f a)) :
    Emits X codec (plans ++ plans') (m >>= f) := by
  rcases Emission.bind_cases m f with ⟨e, he, h⟩ | ⟨a, ha, h⟩
  · obtain ⟨hthrown, done, hpre, hdone⟩ := hm.error he
    rw [h]
    exact ⟨hthrown, done, hpre.trans (List.prefix_append plans plans'), hdone⟩
  · have hplans := hm.ok ha
    rw [h]
    unfold Emits
    dsimp only
    cases hfa : (f a).result with
    | ok b => exact hplans.append ((hf a).ok hfa)
    | error e =>
      obtain ⟨hthrown, done, hpre, hdone⟩ := (hf a).error hfa
      exact ⟨hthrown, plans ++ done, (List.prefix_append_right_inj plans).mpr hpre,
        hplans.append hdone⟩

/-- Nothing after the pages are emitted changes what was. -/
theorem emits_map {m : Emission Fault Bytes α} {g : α → Emission Fault Bytes β}
    (hm : Emits X codec plans m) (hg : ∀ a, Emits X codec [] (g a)) :
    Emits X codec plans (m >>= g) := by
  have h := emits_bind hm hg
  rwa [List.append_nil] at h

theorem thrown_isThrown (what : String) : (Fault.thrown what).IsThrown := ⟨what, rfl⟩

/-- What the three size checks leave to be checked. -/
theorem checkSizes_fits {plan : PagePlan} {comp : Bytes}
    (hcomp : compressPage X plan.body codec = .ok comp)
    (h : checkSizes plan.count plan.body.length comp.length = .ok ())
    (hprefixes : ∀ n ∈ plan.prefixes, n ≤ UINT32_MAX) : plan.Fits X codec := by
  obtain ⟨hn, hu, hc⟩ := checkSizes_eq_ok h
  refine ⟨hn, hu, fun comp' h' => ?_, hprefixes⟩
  rw [hcomp] at h'
  cases h'
  exact hc

/-- The checks of a page header, and the header they let through. -/
structure HeaderOf (X : External) (plan : PagePlan) (header : Nat → Nat → Except Fault Bytes) :
    Prop where
  ok : ∀ u c bytes, header u c = .ok bytes →
    checkSizes plan.count u c = .ok () ∧ X.encodePageHeader (plan.header u c) = .ok bytes
  error : ∀ u c e, header u c = .error e → ∃ what, e = .thrown what

theorem headerOf_data {plan : PagePlan} (htype : plan.type = .dataPage) :
    HeaderOf X plan (dataPageHeader X plan.count plan.encoding) := by
  refine ⟨fun u c bytes h => ?_, fun u c e h => ?_⟩
  · unfold dataPageHeader at h
    split at h
    · cases h
    rename_i hsizes
    unfold PagePlan.header
    rw [htype]
    exact ⟨hsizes, encodePageHeader_eq_ok.mp h⟩
  · exact failsIn_dataPageHeader thrown_isThrown X _ _ _ _ e h

theorem headerOf_dictionary {plan : PagePlan} (htype : plan.type = .dictionaryPage) :
    HeaderOf X plan (dictionaryPageHeader X plan.count) := by
  refine ⟨fun u c bytes h => ?_, fun u c e h => ?_⟩
  · unfold dictionaryPageHeader at h
    split at h
    · cases h
    rename_i hsizes
    unfold PagePlan.header
    rw [htype]
    exact ⟨hsizes, encodePageHeader_eq_ok.mp h⟩
  · exact failsIn_dictionaryPageHeader thrown_isThrown X _ _ _ e h

/-- The parts of a page are what its body is read as. -/
structure PagePlan.Sound (plan : PagePlan) : Prop where
  runs : ∀ run ∈ plan.runs, run.length ≤ UINT32_MAX
  strings : ∀ vs, plan.strings = some vs → plan.values = plainByteArrays vs

/-- The string lengths of a page that fits do. -/
theorem PagePlan.Sound.prefixes {plan : PagePlan} (h : plan.Sound)
    (hbody : plan.body.length ≤ INT32_MAX) : ∀ n ∈ plan.prefixes, n ≤ UINT32_MAX := by
  intro n hn
  obtain ⟨bs, hbs, rfl⟩ := List.mem_map.mp hn
  rcases List.mem_append.mp hbs with hbs | hbs
  · exact h.runs bs hbs
  · obtain ⟨vs, hvs⟩ : ∃ vs, plan.strings = some vs := by
      apply Option.isSome_iff_exists.mp
      cases hs : plan.strings with
      | none => simp [hs] at hbs
      | some vs => rfl
    rw [hvs, Option.getD_some] at hbs
    unfold PagePlan.body at hbody
    rw [List.length_append, h.strings vs hvs] at hbody
    have := lengths_lt (by omega) bs hbs
    unfold UINT32_MAX
    omega

/-- Compress, label and stream: the page comes out whole, or not at all. -/
theorem emits_page {plan : PagePlan} (hplan : plan.Sound)
    {encode : Nat → Nat → Except Fault Bytes} (hencode : HeaderOf X plan encode) :
    Emits X codec [plan] (pageEmission X codec plan.header encode plan.body) := by
  rcases pageEmission_cases X codec plan.header encode plan.body with
    ⟨stored, hdr, hcomp, hhdr, h⟩ | ⟨f, h, hf⟩
  · rw [h]
    obtain ⟨hsizes, hbytes⟩ := hencode.ok _ _ _ hhdr
    have hfits := checkSizes_fits hcomp hsizes (hplan.prefixes (checkSizes_eq_ok hsizes).2.1)
    refine ⟨[⟨plan.header plan.body.length stored.length, hdr, plan.body, stored⟩],
      .cons ?_ .nil, rfl⟩
    refine ⟨rfl, hcomp, rfl, hbytes, hplan.strings, fun n hn => ?_, hfits⟩
    apply ofLE_leSize
    have := hfits.prefixes n hn
    unfold UINT32_MAX at this
    omega
  · obtain ⟨what, rfl⟩ : f.IsThrown := by
      rcases hf with hcomp | ⟨_, _, hhdr⟩
      · exact failsIn_compressPage thrown_isThrown X plan.body codec f hcomp
      · exact hencode.error _ _ f hhdr
    exact emits_thrown h

theorem emits_dataPage {plan : PagePlan} (hplan : plan.Sound) (htype : plan.type = .dataPage) :
    Emits X codec [plan] (dataPageEmission X codec plan.count plan.encoding plan.body) := by
  have h : plan.header = dataPage plan.count plan.encoding := by
    unfold PagePlan.header
    rw [htype]
  unfold dataPageEmission
  rw [← h]
  exact emits_page hplan (headerOf_data htype)

theorem emits_dictionaryPage {plan : PagePlan} (hplan : plan.Sound)
    (htype : plan.type = .dictionaryPage) :
    Emits X codec [plan] (dictionaryPageEmission X codec plan.count plan.body) := by
  have h : plan.header = dictionaryPage plan.count := by
    unfold PagePlan.header
    rw [htype]
  unfold dictionaryPageEmission
  rw [← h]
  exact emits_page hplan (headerOf_dictionary htype)

/-- The pages of a chunk of byte strings are what their bodies are read as. -/
theorem sound_stringPlans {r : LevelRuns} (hruns : ∀ run ∈ r.runs, run.length ≤ UINT32_MAX)
    {present : List Bytes} {p : ByteArrayPages} (hp : byteArrayPages X present mode = .ok p) :
    ∀ plan ∈ stringPlans X r present p, plan.Sound := by
  have hbodies := byteArrayPages_bodies hp
  unfold stringPlans
  by_cases hd : p.useDictionary = true
  · rw [if_pos hd] at hbodies ⊢
    refine List.forall_mem_cons.mpr ⟨⟨by simp, fun vs hvs => ?_⟩,
      List.forall_mem_singleton.mpr ⟨hruns, nofun⟩⟩
    cases hvs
    exact hbodies.2
  · rw [if_neg hd] at hbodies ⊢
    refine List.forall_mem_singleton.mpr ⟨hruns, fun vs hvs => ?_⟩
    by_cases hplain : p.dataEncoding = .plain
    · rw [if_pos hplain] at hvs
      cases hvs
      exact hbodies hplain
    · rw [if_neg hplain] at hvs
      cases hvs

/-- The plans of a chunk are for these bodies. -/
inductive ChunkBodies.Planned (r : LevelRuns) : ChunkBodies → List PagePlan → Prop where
  | single {enc : Encoding} {values : Bytes} {stats : MinMax} {strings : Option (List Bytes)} :
      Planned r ⟨none, enc, values, stats⟩ [⟨.dataPage, enc, r.count, r.runs, values, strings⟩]
  | dictionary {enc : Encoding} {size : Nat} {body values : Bytes} {stats : MinMax}
      {entries : Option (List Bytes)} :
      Planned r ⟨some (size, body), enc, values, stats⟩
        [⟨.dictionaryPage, .plain, size, [], body, entries⟩,
         ⟨.dataPage, enc, r.count, r.runs, values, none⟩]

/-- A chunk has bodies exactly when its pages can be planned, and they are for these. -/
theorem chunkPlans_cases (X : External) (r : LevelRuns) (s : ColumnSpec) (mode : Nat) :
    (∃ f f', chunkPlans X r s mode = .error f ∧ chunkBodies X r.arr s r.validity mode = .error f') ∨
    ∃ plans b, chunkPlans X r s mode = .ok plans ∧
      chunkBodies X r.arr s r.validity mode = .ok b ∧ b.Planned r plans ∧
      ((∀ run ∈ r.runs, run.length ≤ UINT32_MAX) → ∀ plan ∈ plans, plan.Sound) := by
  unfold chunkPlans chunkBodies
  by_cases hs : s.extract = .byteArray
  · simp only [if_pos hs]
    rw [buildByteArrayPages_present]
    cases hpresent : presentStrings r.arr s r.validity with
    | error f => exact .inl ⟨f, f, rfl, rfl⟩
    | ok present =>
    dsimp only
    cases hp : byteArrayPages X present mode with
    | error f => exact .inl ⟨f, f, rfl, rfl⟩
    | ok p =>
    refine .inr ⟨_, _, rfl, rfl, ?_, fun hruns => sound_stringPlans hruns hp⟩
    have hbodies := byteArrayPages_bodies hp
    unfold stringPlans
    by_cases hd : p.useDictionary = true
    · rw [if_pos hd] at hbodies
      simp only [if_pos hd, hbodies.1]
      exact .dictionary
    · simp only [if_neg hd]
      exact .single
  · simp only [if_neg hs]
    cases fixedStats X r.arr s r.validity with
    | error f => exact .inl ⟨f, f, rfl, rfl⟩
    | ok stats =>
    dsimp only
    cases fixedBody X r.arr s r.validity mode with
    | error f => exact .inl ⟨f, f, rfl, rfl⟩
    | ok v =>
      exact .inr ⟨_, _, rfl, rfl, .single, fun hruns =>
        List.forall_mem_singleton.mpr ⟨hruns, fun vs hvs => by cases hvs⟩⟩

/-- **A chunk's pages are emitted as they were planned.** -/
theorem emits_bodies {r : LevelRuns} {b : ChunkBodies} (hb : b.Planned r plans)
    (hsound : ∀ plan ∈ plans, plan.Sound) :
    Emits X codec plans
      (b.emission X codec (r.runs.flatMap fun run => leSize run.length ++ run) r.count) := by
  unfold ChunkBodies.emission
  rcases hb with _ | _
  · simp only [pure_bind]
    exact emits_map (emits_dataPage (List.forall_mem_singleton.mp hsound) rfl) fun _ =>
      emits_pure _
  · simp only [map_eq_pure_bind, bind_assoc, pure_bind]
    obtain ⟨hdict, hdata⟩ := List.forall_mem_cons.mp hsound
    exact emits_bind (emits_dictionaryPage hdict rfl) fun _ =>
      emits_map (emits_dataPage (List.forall_mem_singleton.mp hdata) rfl) fun _ => emits_pure _

/-- A level stream too long for its length ends the leaf before its first page. -/
theorem leafEmission_long {leaf : LeafSpec} {batch : ArrowArray} {r : LevelRuns}
    (hr : levelRuns X leaf batch = .ok r) (hlong : ∃ run ∈ r.runs, UINT32_MAX < run.length) :
    ∃ what, leafEmission X batch codec mode leaf = ⟨[], .error (.thrown what)⟩ := by
  obtain ⟨what, hwhat⟩ := leafInputs_long hr hlong
  refine ⟨what, ?_⟩
  unfold leafEmission
  rw [hwhat]
  rfl

/-- **The pages of a leaf**: none when they cannot be planned, and otherwise those planned. -/
theorem leafEmission_plans (X : External) (batch : ArrowArray) (codec : CompressionCodec)
    (mode : Nat) (leaf : LeafSpec) :
    (∃ f f', leafPlans X batch mode leaf = .error f ∧
      leafEmission X batch codec mode leaf = ⟨[], .error f'⟩) ∨
    ∃ plans, leafPlans X batch mode leaf = .ok plans ∧
      Emits X codec plans (leafEmission X batch codec mode leaf) := by
  unfold leafPlans
  cases hr : levelRuns X leaf batch with
  | error f =>
    refine .inl ⟨f, f, rfl, ?_⟩
    unfold leafEmission
    rw [leafInputs_error hr]
    rfl
  | ok r =>
  dsimp only
  by_cases hruns : ∀ run ∈ r.runs, run.length ≤ UINT32_MAX
  · obtain ⟨inp, hinp, hof⟩ := leafInputs_fits hr hruns
    unfold leafEmission chunkEmission
    rw [hinp, Emission.lift_ok_bind, hof.arr, hof.validity, hof.levels, hof.numLevels]
    rcases chunkPlans_cases X r leaf.col mode with ⟨f, f', hf, hf'⟩ | ⟨plans, b, hplans, hb, hof, hs⟩
    · rw [hf']
      exact .inl ⟨f, f', hf, rfl⟩
    · rw [hb, Emission.lift_ok_bind, bind_assoc]
      exact .inr ⟨plans, hplans, emits_map (emits_bodies hof (hs hruns)) fun _ => emits_pure _⟩
  · push Not at hruns
    obtain ⟨what, hwhat⟩ := leafEmission_long hr hruns
    cases hplans : chunkPlans X r leaf.col mode with
    | error f => exact .inl ⟨f, _, rfl, hwhat⟩
    | ok plans => exact .inr ⟨plans, rfl, emits_thrown hwhat⟩

theorem emits_leafEmission {batch : ArrowArray} {leaf : LeafSpec}
    (hplans : leafPlans X batch mode leaf = .ok plans) :
    Emits X codec plans (leafEmission X batch codec mode leaf) := by
  rcases leafEmission_plans X batch codec mode leaf with ⟨_, _, hf, _⟩ | ⟨_, hplans', h⟩
  · rw [hplans] at hf
    cases hf
  · rw [hplans] at hplans'
    cases hplans'
    exact h

/-- The pages of some leaves, one leaf after the other. -/
theorem emits_leavesEmission {batch : ArrowArray} {leaves : List LeafSpec}
    (hplans : flatMapM (leafPlans X batch mode) leaves = .ok plans) :
    Emits X codec plans (leavesEmission X batch codec mode leaves) := by
  unfold leavesEmission
  induction leaves generalizing plans with
  | nil =>
    cases hplans
    exact emits_pure _
  | cons leaf rest ih =>
    rw [flatMapM] at hplans
    split at hplans
    · cases hplans
    rename_i first hfirst
    obtain ⟨more, hmore, rfl⟩ := map_eq_ok.mp hplans
    rw [List.mapM_cons]
    exact emits_bind (emits_leafEmission hfirst) fun _ => emits_map (ih hmore) fun _ => emits_pure _

/-- **What the leaf loop has emitted** when it ends: the pages of its first leaves, in order. -/
theorem leavesEmission_pages (X : External) (batch : ArrowArray) (codec : CompressionCodec)
    (mode : Nat) (leaves : List LeafSpec) :
    ∃ done, PiecesOf X codec done (leavesEmission X batch codec mode leaves).output ∧
      ∃ pre plans, pre <+: leaves ∧ flatMapM (leafPlans X batch mode) pre = .ok plans ∧
        done <+: plans := by
  unfold leavesEmission
  induction leaves with
  | nil => exact ⟨[], PiecesOf.nil X codec, [], [], List.prefix_rfl, rfl, List.prefix_rfl⟩
  | cons leaf rest ih =>
    rw [List.mapM_cons]
    rcases leafEmission_plans X batch codec mode leaf with ⟨f, f', _, h⟩ | ⟨plans, hplans, h⟩
    · rw [Emission.bind_of_error (by rw [h]), h]
      exact ⟨[], PiecesOf.nil X codec, [], [], List.nil_prefix, rfl, List.prefix_rfl⟩
    cases hx : (leafEmission X batch codec mode leaf).result with
    | error f =>
      obtain ⟨_, done, hpre, hdone⟩ := h.error hx
      rw [Emission.bind_of_error hx]
      refine ⟨done, hdone, [leaf], plans, ⟨rest, rfl⟩, ?_, hpre⟩
      rw [flatMapM, hplans]
      simp [flatMapM, Except.map]
    | ok x =>
      obtain ⟨done, hdone, pre, more, hpre, hmore, hsub⟩ := ih
      rw [Emission.bind_of_ok hx, ← map_eq_pure_bind, Emission.output_map]
      refine ⟨plans ++ done, (h.ok hx).append hdone, leaf :: pre, plans ++ more,
        List.cons_prefix_cons.mpr ⟨rfl, hpre⟩, ?_, (List.prefix_append_right_inj plans).mpr hsub⟩
      rw [flatMapM, hplans]
      dsimp only
      rw [hmore]
      rfl

end Emits

/-! ## Chunks that do not fit -/

/-- The first of the pages some chunk asks for that cannot be emitted, and the pages before it. -/
inductive Overflows (X : External) (codec : CompressionCodec) (batch : ArrowArray) (mode : Nat)
    (leaf : LeafSpec) : List PagePlan → Prop where
  /-- A level stream is too long for its length. -/
  | levels {r : LevelRuns} (hr : levelRuns X leaf batch = .ok r) {run : Bytes}
      (hmem : run ∈ r.runs) (hlong : UINT32_MAX < run.length) :
      Overflows X codec batch mode leaf []
  /-- A page has a number that does not fit its field. -/
  | page {before after : List PagePlan} {plan : PagePlan}
      (hplans : leafPlans X batch mode leaf = .ok (before ++ plan :: after))
      (hfits : ¬ plan.Fits X codec) : Overflows X codec batch mode leaf before

/-- Pages emitted from a list with one that does not fit end before it. -/
theorem prefix_of_not_fits {X : External} {codec : CompressionCodec}
    {before after done : List PagePlan} {plan : PagePlan} (h : done <+: before ++ plan :: after)
    (hdone : ∀ p ∈ done, p.Fits X codec) (hfits : ¬ plan.Fits X codec) : done <+: before := by
  have hplan : before ++ [plan] <+: before ++ plan :: after := ⟨after, by simp⟩
  rcases List.prefix_or_prefix_of_prefix h hplan with hpre | hpre
  · rcases List.prefix_concat_iff.mp hpre with rfl | hpre
    · exact absurd (hdone plan (by simp)) hfits
    · exact hpre
  · exact absurd (hdone plan (hpre.subset (by simp))) hfits

/-- A leaf that overflows throws, before the page that does not fit. -/
theorem Overflows.leafEmission {X : External} {codec : CompressionCodec} {batch : ArrowArray}
    {mode : Nat} {leaf : LeafSpec} {before : List PagePlan}
    (h : Overflows X codec batch mode leaf before) :
    ∃ what done, (N2P.leafEmission X batch codec mode leaf).result = .error (.thrown what) ∧
      done <+: before ∧ PiecesOf X codec done (N2P.leafEmission X batch codec mode leaf).output := by
  rcases h with ⟨hr, hmem, hlong⟩ | @⟨before, after, plan, hplans, hfits⟩
  · obtain ⟨what, hwhat⟩ := leafEmission_long hr ⟨_, hmem, hlong⟩
    rw [hwhat]
    exact ⟨what, [], rfl, List.prefix_rfl, PiecesOf.nil X codec⟩
  have hemits : Emits X codec _ _ := emits_leafEmission hplans
  cases hx : (N2P.leafEmission X batch codec mode leaf).result with
  | ok x => exact absurd ((hemits.ok hx).fits plan (by simp)) hfits
  | error f =>
    obtain ⟨⟨what, rfl⟩, done, hpre, hdone⟩ := hemits.error hx
    exact ⟨what, done, rfl, prefix_of_not_fits hpre hdone.fits hfits, hdone⟩

/-- A leaf that overflows makes the leaf loop throw, with some of the pages before emitted. -/
theorem Overflows.leavesEmission {X : External} {codec : CompressionCodec} {batch : ArrowArray}
    {mode : Nat} {pre post : List LeafSpec} {leaf : LeafSpec} {done before : List PagePlan}
    (hpre : flatMapM (leafPlans X batch mode) pre = .ok done)
    (h : Overflows X codec batch mode leaf before) :
    ∃ what plans,
      (N2P.leavesEmission X batch codec mode (pre ++ leaf :: post)).result = .error (.thrown what) ∧
      plans <+: done ++ before ∧
      PiecesOf X codec plans
        (N2P.leavesEmission X batch codec mode (pre ++ leaf :: post)).output := by
  have hemits := @emits_leavesEmission X codec mode done batch pre hpre
  unfold N2P.leavesEmission at hemits ⊢
  rw [List.mapM_append]
  cases hx : (pre.mapM (N2P.leafEmission X batch codec mode)).result with
  | error f =>
    obtain ⟨⟨what, rfl⟩, plans, hsub, hplans⟩ := hemits.error hx
    rw [Emission.bind_of_error hx]
    exact ⟨what, plans, rfl, hsub.trans (List.prefix_append done before), hplans⟩
  | ok xs =>
    obtain ⟨what, plans, hwhat, hsub, hplans⟩ := h.leafEmission
    have hrest : (leaf :: post).mapM (N2P.leafEmission X batch codec mode) =
        ⟨(N2P.leafEmission X batch codec mode leaf).output, .error (.thrown what)⟩ := by
      rw [List.mapM_cons, Emission.bind_of_error hwhat]
    rw [Emission.bind_of_ok hx, Emission.bind_of_error (by rw [hrest]), hrest]
    exact ⟨what, done ++ plans, rfl, (List.prefix_append_right_inj done).mpr hsub,
      (hemits.ok hx).append hplans⟩

/-! ## The leaf loop -/

/-- The writer after a step, however it ended. -/
def finalState {α : Type} : EStateM.Result Exit Writer α → Writer
  | .ok _ w => w
  | .error _ w => w

/-- A step that streams has streamed its output. -/
theorem finalState_streamOf {α : Type} (m : Emission Fault Bytes α) (w : Writer) :
    ∃ msg, finalState (streamOf m w) = { w.put m.output with lastError := msg } := by
  cases h : streamOf m w with
  | ok a w' =>
    rw [(streamOf_eq_ok.mp h).2]
    exact ⟨w.lastError, rfl⟩
  | error e w' =>
    obtain ⟨f, _, hstop⟩ := streamOf_eq_error.mp h
    cases f with
    | refused why =>
      cases hstop
      exact ⟨why.text, rfl⟩
    | thrown what =>
      cases hstop
      exact ⟨w.lastError, rfl⟩
    | undefined =>
      cases hstop
      exact ⟨w.lastError, rfl⟩

/-- What the leaf loop has streamed when it ends. -/
theorem finalState_writeLeaves (X : External) (leaves : List LeafSpec) (batch : ArrowArray)
    (rg : RowGroupMeta) (w : Writer) :
    ∃ msg, finalState (writeLeaves X leaves batch rg w) =
      { w.put (leavesEmission X batch w.codec w.encoding leaves).output with lastError := msg } := by
  rw [writeLeaves_stream]
  obtain ⟨msg, h⟩ := finalState_streamOf ((fun xs => rg.addAll (placed w.offset xs)) <$>
    leavesEmission X batch w.codec w.encoding leaves) w
  rw [Emission.output_map] at h
  exact ⟨msg, h⟩

end N2P
