import N2P.Effects

/-!
# Column chunks

The pure part of writing one leaf, separated from its effect on the writer.

* `chunkBodies` — the value bytes of a chunk, its dictionary and its statistics.
* `leafInputs` — the array, validity, level bytes and counts a leaf's chunk is built from.
* `writeLeafPages_ok`, `writeLeaf_ok`, `writeLeaves_ok` — what a successful step streams and
  records: the pages built from these inputs, and a chunk that describes them.
* `chunkEmission`, `leafEmission`, `leavesEmission` — the pages as values: what a chunk, a leaf or
  all leaves stream, and where they stop; `writeLeafPages_eq`, `writeLeaf_stream` and
  `writeLeaves_stream` say that the writer streams exactly these.
* `failsIn_chunkEmission` — with its bodies built, a chunk is lost only to an exception.
* `onlyStreams_writeLeaves` — however the leaf loop ends, it has only streamed bytes.
-/

namespace N2P

open Outcome

/-! ## Bodies -/

/-- What a chunk's pages are made of. -/
structure ChunkBodies where
  /-- Entries and PLAIN body of the dictionary, when there is one. -/
  dict : Option (Nat × Bytes)
  encoding : Encoding
  values : Bytes
  stats : MinMax

/-- The bodies `write_leaf_pages` builds. -/
def chunkBodies (X : External) (arr : ArrowArray) (s : ColumnSpec) (validity : Option Bytes)
    (mode : Nat) : Except Fault ChunkBodies :=
  if s.extract = .byteArray then
    (buildByteArrayPages X arr s validity mode).map fun p =>
      if p.useDictionary then ⟨some (p.dictSize, p.dictBody), .rleDictionary, p.dataBody, p.stats⟩
      else ⟨none, p.dataEncoding, p.dataBody, p.stats⟩
  else
    match fixedStats X arr s validity with
    | .error e => .error e
    | .ok stats => (fixedBody X arr s validity mode).map fun v => ⟨none, v.1, v.2, stats⟩

/-- The pages of a chunk, in the order they are streamed. -/
structure ChunkPages where
  dict : Option Page
  data : Page

def ChunkPages.pages (ps : ChunkPages) : List Page := ps.dict.toList ++ [ps.data]

def ChunkPages.pieces (ps : ChunkPages) : List Bytes := ps.pages.flatMap Page.pieces

def ChunkPages.bytes (ps : ChunkPages) : Bytes := ps.pages.flatMap Page.bytes

@[simp] theorem ChunkPages.flatten_pieces (ps : ChunkPages) : ps.pieces.flatten = ps.bytes := by
  unfold ChunkPages.pieces ChunkPages.bytes
  induction ps.pages with
  | nil => rfl
  | cons p ps ih => simp [ih]

/-- A dictionary page for these entries, or none for none. -/
inductive DictPage : Option (Nat × Bytes) → Option Page → Prop where
  | none : DictPage none none
  | some {size : Nat} {body : Bytes} {p : Page} (hb : p.body = body) (hs : size ≤ INT32_MAX)
      (h : p.header = dictionaryPage size p.body.length p.stored.length) :
      DictPage (some (size, body)) (some p)

/-- The pages of a chunk with these bodies, behind `levels` for `n` level entries. -/
structure ChunkPages.Built (X : External) (codec : CompressionCodec) (b : ChunkBodies)
    (levels : Bytes) (n : Nat) (ps : ChunkPages) : Prop where
  encoded : ∀ p ∈ ps.pages, p.Encoded X codec
  dict : DictPage b.dict ps.dict
  body : ps.data.body = levels ++ b.values
  header : ps.data.header = dataPage n b.encoding ps.data.body.length ps.data.stored.length
  count : n ≤ INT32_MAX

/-- The chunk's entry, for pages that start at `start`. -/
def ChunkPages.entry (ps : ChunkPages) (b : ChunkBodies) (start : Nat) (hasLevels : Bool)
    (c : ColumnChunkMeta) : ColumnChunkMeta :=
  { c with
    minMax := b.stats
    hasDictionary := ps.dict.isSome
    dictionaryPageOffset := if ps.dict.isSome then start else 0
    dataPageOffset := start + (ps.dict.toList.flatMap Page.bytes).length
    totalUncompressed := (ps.pages.map fun p => p.totals.uncompressed).sum
    totalCompressed := (ps.pages.map fun p => p.totals.onDisk).sum
    encodings := withLevels ((if ps.dict.isSome then [.plain] else []) ++ [b.encoding]) hasLevels }

theorem dictionaryPageHeader_eq_ok {X : External} {n u c : Nat} {bytes : Bytes}
    (h : dictionaryPageHeader X n u c = .ok bytes) :
    X.encodePageHeader (dictionaryPage n u c) = .ok bytes ∧ n ≤ INT32_MAX ∧ u ≤ INT32_MAX := by
  unfold dictionaryPageHeader at h
  split at h
  · cases h
  · rename_i hsizes
    have := checkSizes_eq_ok hsizes
    exact ⟨encodePageHeader_eq_ok.mp h, this.1, this.2.1⟩

theorem dataPageHeader_eq_ok {X : External} {n u c : Nat} {enc : Encoding} {bytes : Bytes}
    (h : dataPageHeader X n enc u c = .ok bytes) :
    X.encodePageHeader (dataPage n enc u c) = .ok bytes ∧ n ≤ INT32_MAX ∧ u ≤ INT32_MAX := by
  unfold dataPageHeader at h
  split at h
  · cases h
  · rename_i hsizes
    have := checkSizes_eq_ok hsizes
    exact ⟨encodePageHeader_eq_ok.mp h, this.1, this.2.1⟩

/-- The pages of a chunk with these bodies. -/
def ChunkBodies.emission (X : External) (codec : CompressionCodec) (levels : Bytes) (n : Nat)
    (b : ChunkBodies) : Emission Fault Bytes ChunkPages := do
  let dict ← match b.dict with
    | none => pure none
    | some (size, body) => some <$> dictionaryPageEmission X codec size body
  let data ← dataPageEmission X codec n b.encoding (levels ++ b.values)
  pure { dict, data }

/-- The pure part of `write_leaf_pages`: the bodies, then their pages. -/
def chunkEmission (X : External) (arr : ArrowArray) (s : ColumnSpec) (validity : Option Bytes)
    (mode : Nat) (codec : CompressionCodec) (levels : Bytes) (n : Nat) :
    Emission Fault Bytes (ChunkBodies × ChunkPages) := do
  let b ← .lift (chunkBodies X arr s validity mode)
  let ps ← b.emission X codec levels n
  pure (b, ps)

/-- **`write_leaf_pages` streams the pages of the bodies**, and makes their entry. -/
theorem writeLeafPages_eq (X : External) (arr : ArrowArray) (s : ColumnSpec)
    (validity : Option Bytes) (levels : Bytes) (n : Nat) (hasLevels : Bool) {c : ColumnChunkMeta}
    (hc : c.hasDictionary = false ∧ c.dictionaryPageOffset = 0) (w : Writer) :
    writeLeafPages X arr s validity levels n hasLevels c w =
      streamOf ((fun r => r.2.entry r.1 w.offset hasLevels c) <$>
        chunkEmission X arr s validity w.encoding w.codec levels n) w := by
  unfold writeLeafPages chunkEmission chunkBodies
  rw [get_bind]
  by_cases hs : s.extract = .byteArray
  · simp only [if_pos hs, map_bind, streamOf_bind, streamOf_lift]
    cases hpages : buildByteArrayPages X arr s validity w.encoding with
    | error f => simp only [Except.map, raise_error_bind]
    | ok pages =>
      simp only [Except.map, raise_ok_bind]
      by_cases hd : pages.useDictionary = true
      · simp only [if_pos hd, ChunkBodies.emission]
        rw [dictionaryPage_bind]
        simp only [map_eq_pure_bind, bind_assoc, pure_bind, streamOf_bind, streamOf_pure]
        refine streamOf_bind_congr fun d hd => ?_
        have hout : (dictionaryPageEmission X w.codec pages.dictSize pages.dictBody).output =
            d.pieces := (pageEmission_eq_ok hd).1
        rw [emitDataPage_bind, hout]
        refine streamOf_bind_congr fun p _ => ?_
        simp [ChunkPages.entry, ChunkPages.pages]
      · simp only [if_neg hd, ChunkBodies.emission]
        rw [emitDataPage_bind]
        simp only [map_eq_pure_bind, bind_assoc, pure_bind, streamOf_bind, streamOf_pure]
        refine streamOf_bind_congr fun p _ => ?_
        simp [ChunkPages.entry, ChunkPages.pages, hc]
  · simp only [if_neg hs, map_bind, streamOf_bind, streamOf_lift]
    cases hstats : fixedStats X arr s validity with
    | error f => simp only [raise_error_bind]
    | ok stats =>
      simp only [raise_ok_bind]
      cases hv : fixedBody X arr s validity w.encoding with
      | error f => simp only [Except.map, raise_error_bind]
      | ok v =>
        simp only [Except.map, raise_ok_bind, ChunkBodies.emission]
        rw [emitDataPage_bind]
        simp only [map_eq_pure_bind, bind_assoc, pure_bind, streamOf_bind, streamOf_pure]
        refine streamOf_bind_congr fun p _ => ?_
        simp [ChunkPages.entry, ChunkPages.pages, hc]

/-- Bodies that make a chunk. -/
theorem ChunkBodies.emission_eq_ok {X : External} {codec : CompressionCodec} {levels : Bytes}
    {n : Nat} {b : ChunkBodies} {ps : ChunkPages}
    (h : (b.emission X codec levels n).result = .ok ps) :
    ChunkPages.Built X codec b levels n ps ∧ (b.emission X codec levels n).output = ps.pieces := by
  have hdata : ∀ {p : Page},
      (dataPageEmission X codec n b.encoding (levels ++ b.values)).result = .ok p →
      (dataPageEmission X codec n b.encoding (levels ++ b.values)).output = p.pieces ∧
        p.Encoded X codec ∧ p.body = levels ++ b.values ∧
        p.header = dataPage n b.encoding p.body.length p.stored.length ∧ n ≤ INT32_MAX := by
    intro p hp
    obtain ⟨hout, hbody, hheader, hstored, hbytes⟩ := pageEmission_eq_ok hp
    obtain ⟨hencoded, hn, hsmall⟩ := dataPageHeader_eq_ok hbytes
    exact ⟨hout, ⟨hheader ▸ hencoded, hstored, hsmall⟩, hbody, hheader, hn⟩
  unfold ChunkBodies.emission at h ⊢
  cases hd : b.dict with
  | none =>
    rw [hd] at h
    simp only [pure_bind] at h ⊢
    obtain ⟨p, hp, h⟩ := Emission.bind_eq_ok.mp h
    cases h
    obtain ⟨hout, hencoded, hbody, hheader, hn⟩ := hdata hp
    rw [Emission.bind_of_ok hp, hout]
    refine ⟨⟨?_, by rw [hd]; exact .none, hbody, hheader, hn⟩, rfl⟩
    intro q hq
    rw [List.mem_singleton.mp hq]
    exact hencoded
  | some entries =>
    obtain ⟨size, body⟩ := entries
    rw [hd] at h
    simp only [map_eq_pure_bind, bind_assoc, pure_bind] at h ⊢
    obtain ⟨d, hdict, h⟩ := Emission.bind_eq_ok.mp h
    obtain ⟨p, hp, h⟩ := Emission.bind_eq_ok.mp h
    cases h
    obtain ⟨hout, hencoded, hbody, hheader, hn⟩ := hdata hp
    obtain ⟨houtd, hbodyd, hheaderd, hstoredd, hbytesd⟩ := pageEmission_eq_ok hdict
    obtain ⟨hencodedd, hsize, hsmall⟩ := dictionaryPageHeader_eq_ok hbytesd
    have houtd : (dictionaryPageEmission X codec size body).output = d.pieces := houtd
    rw [Emission.bind_of_ok hdict, Emission.bind_of_ok hp, houtd, hout]
    refine ⟨⟨?_, by rw [hd]; exact .some hbodyd hsize hheaderd, hbody, hheader, hn⟩, ?_⟩
    · intro q hq
      rcases List.mem_cons.mp hq with rfl | hq
      · exact ⟨hheaderd ▸ hencodedd, hstoredd, hsmall⟩
      · rw [List.mem_singleton.mp hq]
        exact hencoded
    · simp [ChunkPages.pieces, ChunkPages.pages]

theorem chunkEmission_eq_ok {X : External} {arr : ArrowArray} {s : ColumnSpec}
    {validity : Option Bytes} {mode n : Nat} {codec : CompressionCodec} {levels : Bytes}
    {b : ChunkBodies} {ps : ChunkPages}
    (h : (chunkEmission X arr s validity mode codec levels n).result = .ok (b, ps)) :
    chunkBodies X arr s validity mode = .ok b ∧ ChunkPages.Built X codec b levels n ps ∧
      (chunkEmission X arr s validity mode codec levels n).output = ps.pieces := by
  unfold chunkEmission at h ⊢
  obtain ⟨b', hb, h⟩ := Emission.bind_eq_ok.mp h
  obtain ⟨ps', hps, h⟩ := Emission.bind_eq_ok.mp h
  cases h
  obtain ⟨hbuilt, hout⟩ := ChunkBodies.emission_eq_ok hps
  rw [Emission.bind_of_ok hb, Emission.bind_of_ok hps, hout]
  exact ⟨hb, hbuilt, by simp⟩

/-- **A successful `write_leaf_pages`.** -/
theorem writeLeafPages_ok {X : External} {arr : ArrowArray} {s : ColumnSpec}
    {validity : Option Bytes} {levels : Bytes} {n : Nat} {hasLevels : Bool}
    {c c' : ColumnChunkMeta} {w w' : Writer}
    (hc : c.hasDictionary = false ∧ c.dictionaryPageOffset = 0)
    (h : writeLeafPages X arr s validity levels n hasLevels c w = .ok c' w') :
    ∃ b ps, chunkBodies X arr s validity w.encoding = .ok b ∧
      ChunkPages.Built X w.codec b levels n ps ∧ w' = w.put ps.pieces ∧
      c' = ps.entry b w.offset hasLevels c := by
  rw [writeLeafPages_eq X arr s validity levels n hasLevels hc, streamOf_eq_ok,
    Emission.result_map, map_eq_ok, Emission.output_map] at h
  obtain ⟨⟨⟨b, ps⟩, hr, rfl⟩, rfl⟩ := h
  obtain ⟨hb, hbuilt, hout⟩ := chunkEmission_eq_ok hr
  exact ⟨b, ps, hb, hbuilt, by rw [hout], rfl⟩

/-- **Once its bodies are built, a chunk is lost only to an exception.** -/
theorem failsIn_chunkEmission {E : Fault → Prop} (hE : ∀ what, E (.thrown what)) {X : External}
    {arr : ArrowArray} {s : ColumnSpec} {validity : Option Bytes} {mode : Nat}
    (hb : FailsIn E (chunkBodies X arr s validity mode)) (codec : CompressionCodec)
    (levels : Bytes) (n : Nat) :
    FailsIn E (chunkEmission X arr s validity mode codec levels n).result := by
  have hdata : ∀ enc body, FailsIn E (dataPageEmission X codec n enc body).result :=
    fun enc body => failsIn_pageEmission hE X codec _ (failsIn_dataPageHeader hE X n enc) body
  have hdict : ∀ size body, FailsIn E (dictionaryPageEmission X codec size body).result :=
    fun size body => failsIn_pageEmission hE X codec _ (failsIn_dictionaryPageHeader hE X size) body
  have hpages : ∀ b : ChunkBodies, FailsIn E (b.emission X codec levels n).result := by
    intro b f hf
    unfold ChunkBodies.emission at hf
    cases hd : b.dict with
    | none =>
      rw [hd] at hf
      simp only [pure_bind] at hf
      rcases Emission.bind_eq_error.mp hf with hf | ⟨p, _, hf⟩
      · exact hdata _ _ f hf
      · cases hf
    | some entries =>
      rw [hd] at hf
      simp only [map_eq_pure_bind, bind_assoc, pure_bind] at hf
      rcases Emission.bind_eq_error.mp hf with hf | ⟨d, _, hf⟩
      · exact hdict _ _ f hf
      rcases Emission.bind_eq_error.mp hf with hf | ⟨p, _, hf⟩
      · exact hdata _ _ f hf
      · cases hf
  intro f hf
  unfold chunkEmission at hf
  rcases Emission.bind_eq_error.mp hf with hf | ⟨b, _, hf⟩
  · exact hb f hf
  rcases Emission.bind_eq_error.mp hf with hf | ⟨ps, _, hf⟩
  · exact hpages b f hf
  · cases hf

theorem within_writeLeafPages {E : Fault → Prop} (hE : ∀ what, E (.thrown what)) {X : External}
    {arr : ArrowArray} {s : ColumnSpec} {validity : Option Bytes}
    (hb : ∀ mode, FailsIn E (chunkBodies X arr s validity mode)) {levels : Bytes} {n : Nat}
    {hasLevels : Bool} {c : ColumnChunkMeta} {w w' : Writer} {e : Exit}
    (hc : c.hasDictionary = false ∧ c.dictionaryPageOffset = 0)
    (h : writeLeafPages X arr s validity levels n hasLevels c w = .error e w') : e.Within E := by
  rw [writeLeafPages_eq X arr s validity levels n hasLevels hc] at h
  refine within_of_stream ?_ h
  rw [Emission.result_map, failsIn_map]
  exact failsIn_chunkEmission hE (hb _) _ _ _

/-! ## Leaves -/

/-- What a leaf's chunk is built from. -/
structure LeafInputs where
  arr : ArrowArray
  validity : Option Bytes
  levels : Bytes
  numLevels : Nat
  numValues : Int
  nullCount : Int

/-- The pure part of `write_list_leaf`. -/
def listInputs (X : External) (leaf : LeafSpec) (batch : ArrowArray) : Except Fault LeafInputs :=
  match shredLeaf leaf batch with
  | .error e => .error e
  | .ok (leafArr, sh) =>
    match encodeDefinitionLevels X sh.rep leaf.repBitWidth with
    | .error e => .error e
    | .ok repBytes =>
      (encodeDefinitionLevels X sh.dfn leaf.defBitWidth).map fun defBytes =>
        { arr := leafArr
          validity := if sh.presentCount < toSize leafArr.length then some sh.present else none
          levels := repBytes ++ defBytes
          numLevels := sh.dfn.length
          numValues := sh.dfn.length
          nullCount := (sh.dfn.length : Int) - sh.presentCount }

/-- The pure part of the loop body for a leaf outside lists. -/
def flatInputs (X : External) (leaf : LeafSpec) (batch : ArrowArray) : Except Fault LeafInputs :=
  match flatNodes leaf batch with
  | .error e => .error e
  | .ok (nodes, child) =>
    (flatLevels X leaf nodes (toSize batch.length)).map fun (defPrefix, validity, nullCount) =>
      { arr := child, validity, levels := defPrefix, numLevels := toSize batch.length,
        numValues := batch.length, nullCount }

/-- The definition levels of a leaf outside lists, when it has any. -/
theorem flatLevels_ok {X : External} {leaf : LeafSpec} {nodes : List ArrowArray} {n : Nat}
    {r : Bytes × Option Bytes × Int} (h : flatLevels X leaf nodes n = .ok r) :
    (0 < leaf.maxDefLevel ∧ ∃ fl p, flatRows leaf nodes n = .ok fl ∧
      (if leaf.maxDefLevel = 1 then encodeDefinitionLevelsBitmap X fl.present n
        else encodeDefinitionLevels X fl.dfn leaf.defBitWidth) = .ok p ∧
      r = (p, if fl.presentCount < n then some fl.present else none, (n : Int) - fl.presentCount)) ∨
    (leaf.maxDefLevel = 0 ∧ r = ([], none, 0)) := by
  unfold flatLevels at h
  by_cases hD : leaf.maxDefLevel > 0
  · rw [if_pos hD] at h
    obtain ⟨fl, hfl, h1⟩ := bind_eq_ok.mp h
    left
    refine ⟨hD, fl, ?_⟩
    dsimp only at h1
    split at h1
    · rename_i h1D
      obtain ⟨p, hp, h2⟩ := bind_eq_ok.mp h1
      exact ⟨p, hfl, by rw [if_pos h1D]; exact hp, (Except.ok.inj h2).symm⟩
    · rename_i h1D
      obtain ⟨p, hp, h2⟩ := bind_eq_ok.mp h1
      exact ⟨p, hfl, by rw [if_neg h1D]; exact hp, (Except.ok.inj h2).symm⟩
  · rw [if_neg hD] at h
    right
    exact ⟨by omega, (Except.ok.inj h).symm⟩

def leafInputs (X : External) (leaf : LeafSpec) (batch : ArrowArray) : Except Fault LeafInputs :=
  if leaf.hasList then listInputs X leaf batch else flatInputs X leaf batch

/-- What a leaf outside lists is written from: the arrays on its path, the last of which was
    validated, and the levels of the batch's rows. -/
theorem leafInputs_flat {X : External} {leaf : LeafSpec} {batch : ArrowArray} {inp : LeafInputs}
    (hflat : leaf.hasList = false) (h : leafInputs X leaf batch = .ok inp) :
    ∃ nodes child levels validity nullCount, flatNodes leaf batch = .ok (nodes, child) ∧
      followIdx leaf.pathIdx batch = .ok nodes ∧ nodes.getLast? = some child ∧
      validateChild child leaf.col batch.length = .ok () ∧
      flatLevels X leaf nodes (toSize batch.length) = .ok (levels, validity, nullCount) ∧
      inp = { arr := child, validity, levels, numLevels := toSize batch.length,
              numValues := batch.length, nullCount } := by
  unfold leafInputs flatInputs at h
  rw [if_neg (by simp [hflat])] at h
  split at h
  · cases h
  rename_i nodes child hnodes
  obtain ⟨⟨levels, validity, nullCount⟩, hlevels, rfl⟩ := map_eq_ok.mp h
  obtain ⟨nodes', hfollow, h1⟩ := bind_eq_ok.mp hnodes
  split at h1
  · cases h1
  rename_i last hlast
  obtain ⟨_, hvalid, h2⟩ := bind_eq_ok.mp h1
  cases h2
  exact ⟨_, _, _, _, _, hnodes, hfollow, hlast, hvalid, hlevels, rfl⟩

/-- What a leaf under a list is written from: what the Shredder made, and its streams. -/
theorem leafInputs_list {X : External} {leaf : LeafSpec} {batch : ArrowArray} {inp : LeafInputs}
    (hlist : leaf.hasList = true) (h : leafInputs X leaf batch = .ok inp) :
    ∃ leafArr sh repBytes defBytes, shredLeaf leaf batch = .ok (leafArr, sh) ∧
      encodeDefinitionLevels X sh.rep leaf.repBitWidth = .ok repBytes ∧
      encodeDefinitionLevels X sh.dfn leaf.defBitWidth = .ok defBytes ∧
      inp = { arr := leafArr
              validity := if sh.presentCount < toSize leafArr.length then some sh.present else none
              levels := repBytes ++ defBytes
              numLevels := sh.dfn.length
              numValues := sh.dfn.length
              nullCount := (sh.dfn.length : Int) - sh.presentCount } := by
  unfold leafInputs listInputs at h
  rw [if_pos hlist] at h
  split at h
  · cases h
  rename_i leafArr sh hshred
  split at h
  · cases h
  rename_i repBytes hrep
  obtain ⟨defBytes, hdef, rfl⟩ := map_eq_ok.mp h
  exact ⟨_, _, _, _, hshred, hrep, hdef, rfl⟩

/-- The page of the leaf carries level streams. -/
def LeafSpec.hasLevels (leaf : LeafSpec) : Bool := leaf.hasList || 0 < leaf.maxDefLevel

/-- The chunk's entry before its pages are written. -/
def LeafInputs.start (inp : LeafInputs) (leaf : LeafSpec) (offset : Nat) : ColumnChunkMeta :=
  { type := leaf.col.type, path := leaf.pathNames, numValues := inp.numValues,
    fileOffset := offset, nullCount := inp.nullCount }

/-- The row group with one more chunk. -/
def RowGroupMeta.add (rg : RowGroupMeta) (c : ColumnChunkMeta) : RowGroupMeta :=
  { rg with totalByteSize := rg.totalByteSize + c.totalUncompressed, columns := rg.columns ++ [c] }

/-- One leaf: its inputs, then its pages. -/
def writeLeaf (X : External) (leaf : LeafSpec) (batch : ArrowArray) (rg : RowGroupMeta) :
    WriterM RowGroupMeta := do
  let inp ← raise (leafInputs X leaf batch)
  let w ← get
  let c ← writeLeafPages X inp.arr leaf.col inp.validity inp.levels inp.numLevels leaf.hasLevels
    (inp.start leaf w.offset)
  pure (rg.add c)

/-- The loop body of `write_one_batch` is its pure part followed by the pages. -/
theorem writeLeaf_eq (X : External) (leaf : LeafSpec) (batch : ArrowArray) (rg : RowGroupMeta) :
    (if leaf.hasList then writeListLeaf X leaf batch rg else writeFlatLeaf X leaf batch rg) =
      writeLeaf X leaf batch rg := by
  unfold writeLeaf leafInputs
  funext w
  cases hl : leaf.hasList with
  | true =>
    have hlv : leaf.hasLevels = true := by simp [LeafSpec.hasLevels, hl]
    rw [if_pos rfl, if_pos rfl, hlv]
    unfold writeListLeaf listInputs
    rcases shredLeaf leaf batch with e | ⟨leafArr, sh⟩
    · cases e <;> rfl
    simp only [raise_ok_bind]
    rcases encodeDefinitionLevels X sh.rep leaf.repBitWidth with e | repBytes
    · cases e <;> rfl
    simp only [raise_ok_bind]
    rcases encodeDefinitionLevels X sh.dfn leaf.defBitWidth with e | defBytes
    · cases e <;> rfl
    rfl
  | false =>
    have hlv : leaf.hasLevels = decide (0 < leaf.maxDefLevel) := by simp [LeafSpec.hasLevels, hl]
    rw [if_neg (by simp), if_neg (by simp), hlv]
    unfold writeFlatLeaf flatInputs
    rcases flatNodes leaf batch with e | ⟨nodes, child⟩
    · cases e <;> rfl
    simp only [raise_ok_bind, get_bind]
    rcases flatLevels X leaf nodes (toSize batch.length) with e | ⟨p, v, nc⟩
    · cases e <;> rfl
    rfl

/-- One leaf's chunk: what it was built from, its pages, and where they start. -/
structure Chunk where
  leaf : LeafSpec
  inp : LeafInputs
  bodies : ChunkBodies
  pages : ChunkPages
  start : Nat

/-- The chunk's entry in the row group. -/
def Chunk.entry (x : Chunk) : ColumnChunkMeta :=
  x.pages.entry x.bodies x.start x.leaf.hasLevels (x.inp.start x.leaf x.start)

/-- The chunk is a leaf of the batch, written under this codec and encoding. -/
structure Chunk.Of (X : External) (batch : ArrowArray) (codec : CompressionCodec) (encoding : Nat)
    (x : Chunk) : Prop where
  inputs : leafInputs X x.leaf batch = .ok x.inp
  bodies : chunkBodies X x.inp.arr x.leaf.col x.inp.validity encoding = .ok x.bodies
  built : x.pages.Built X codec x.bodies x.inp.levels x.inp.numLevels

/-- Chunks one after the other. -/
def Consecutive : Nat → List Chunk → Prop
  | _, [] => True
  | start, x :: xs => x.start = start ∧ Consecutive (start + x.pages.bytes.length) xs

/-- The chunk with its pages at another place. -/
def Chunk.at (x : Chunk) (start : Nat) : Chunk := { x with start }

/-- The chunks with their pages one after the other. -/
def placed : Nat → List Chunk → List Chunk
  | _, [] => []
  | start, x :: xs => x.at start :: placed (start + x.pages.bytes.length) xs

theorem consecutive_placed (start : Nat) (xs : List Chunk) : Consecutive start (placed start xs) := by
  induction xs generalizing start with
  | nil => trivial
  | cons x xs ih => exact ⟨rfl, ih _⟩

/-- What placing chunks leaves alone. -/
theorem map_placed {α : Type} (f : Chunk → α) (hf : ∀ x start, f (x.at start) = f x) (start : Nat)
    (xs : List Chunk) : (placed start xs).map f = xs.map f := by
  induction xs generalizing start with
  | nil => rfl
  | cons x xs ih => simp only [placed, List.map_cons, hf, ih]

theorem pieces_placed (start : Nat) (xs : List Chunk) :
    (placed start xs).flatMap (·.pages.pieces) = xs.flatMap (·.pages.pieces) := by
  simp only [List.flatMap_def, map_placed (·.pages.pieces) fun _ _ => rfl]

theorem forall_placed {P : Chunk → Prop} (hP : ∀ x start, P x → P (x.at start)) {start : Nat}
    {xs : List Chunk} (h : ∀ x ∈ xs, P x) : ∀ x ∈ placed start xs, P x := by
  induction xs generalizing start with
  | nil => intro x hx; cases hx
  | cons y xs ih =>
    intro x hx
    rcases List.mem_cons.mp hx with rfl | hx
    · exact hP y start (h y List.mem_cons_self)
    · exact ih (fun z hz => h z (List.mem_cons_of_mem y hz)) x hx

/-- **One leaf of a batch**: its inputs, then the pages of its chunk. -/
def leafEmission (X : External) (batch : ArrowArray) (codec : CompressionCodec) (mode : Nat)
    (leaf : LeafSpec) : Emission Fault Bytes Chunk := do
  let inp ← .lift (leafInputs X leaf batch)
  let (bodies, pages) ← chunkEmission X inp.arr leaf.col inp.validity mode codec inp.levels
    inp.numLevels
  pure { leaf, inp, bodies, pages, start := 0 }

theorem leafEmission_eq_ok {X : External} {batch : ArrowArray} {codec : CompressionCodec}
    {mode : Nat} {leaf : LeafSpec} {x : Chunk}
    (h : (leafEmission X batch codec mode leaf).result = .ok x) :
    x.leaf = leaf ∧ x.Of X batch codec mode ∧
      (leafEmission X batch codec mode leaf).output = x.pages.pieces := by
  unfold leafEmission at h ⊢
  obtain ⟨inp, hinp, h⟩ := Emission.bind_eq_ok.mp h
  obtain ⟨⟨b, ps⟩, hchunk, h⟩ := Emission.bind_eq_ok.mp h
  cases h
  obtain ⟨hb, hbuilt, hout⟩ := chunkEmission_eq_ok hchunk
  refine ⟨rfl, ⟨hinp, hb, hbuilt⟩, ?_⟩
  rw [Emission.bind_of_ok hinp, Emission.bind_of_ok hchunk, hout]
  simp

/-- A leaf streams its pages, and adds the entry of its chunk. -/
theorem writeLeaf_stream (X : External) (leaf : LeafSpec) (batch : ArrowArray) (rg : RowGroupMeta)
    (w : Writer) :
    writeLeaf X leaf batch rg w = streamOf ((fun x => rg.add (x.at w.offset).entry) <$>
      leafEmission X batch w.codec w.encoding leaf) w := by
  unfold writeLeaf leafEmission
  cases hinp : leafInputs X leaf batch with
  | error f =>
    rw [raise_error_bind]
    simp only [map_bind, streamOf_bind, streamOf_lift, raise_error_bind]
  | ok inp =>
    rw [raise_ok_bind, get_bind, Emission.lift_ok_bind]
    show EStateM.bind (writeLeafPages X _ _ _ _ _ _ _) _ w = _
    unfold EStateM.bind
    rw [writeLeafPages_eq X inp.arr leaf.col inp.validity inp.levels inp.numLevels leaf.hasLevels
      ⟨rfl, rfl⟩]
    unfold streamOf Emission.run
    simp only [Emission.result_map, Emission.output_map]
    rcases Emission.bind_cases (chunkEmission X inp.arr leaf.col inp.validity w.encoding w.codec
      inp.levels inp.numLevels) fun r => pure (Chunk.mk leaf inp r.1 r.2 0) with
      ⟨f, hr, h⟩ | ⟨r, hr, h⟩
    · rw [h, hr]
      rfl
    · rw [h, hr]
      simp only [Emission.output_pure, List.append_nil]
      rfl

/-- **A successful leaf.** -/
theorem writeLeaf_ok {X : External} {leaf : LeafSpec} {batch : ArrowArray} {rg rg' : RowGroupMeta}
    {w w' : Writer} (h : writeLeaf X leaf batch rg w = .ok rg' w') :
    ∃ x : Chunk, x.leaf = leaf ∧ x.Of X batch w.codec w.encoding ∧ x.start = w.offset ∧
      w' = w.put x.pages.pieces ∧ rg' = rg.add x.entry := by
  rw [writeLeaf_stream, streamOf_eq_ok, Emission.result_map, map_eq_ok, Emission.output_map] at h
  obtain ⟨⟨x, hx, rfl⟩, rfl⟩ := h
  obtain ⟨hleaf, hof, hout⟩ := leafEmission_eq_ok hx
  exact ⟨x.at w.offset, hleaf, ⟨hof.inputs, hof.bodies, hof.built⟩, rfl, by rw [hout]; rfl, rfl⟩

theorem writeLeaves_cons (X : External) (leaf : LeafSpec) (rest : List LeafSpec)
    (batch : ArrowArray) (rg : RowGroupMeta) :
    writeLeaves X (leaf :: rest) batch rg =
      writeLeaf X leaf batch rg >>= fun rg => writeLeaves X rest batch rg := by
  rw [← writeLeaf_eq, writeLeaves]
  cases leaf.hasList <;> rfl

/-- The row group with these chunks added. -/
def RowGroupMeta.addAll (rg : RowGroupMeta) (xs : List Chunk) : RowGroupMeta :=
  { rg with
    totalByteSize := rg.totalByteSize + (xs.map fun x => x.entry.totalUncompressed).sum
    columns := rg.columns ++ xs.map Chunk.entry }

theorem RowGroupMeta.addAll_cons (rg : RowGroupMeta) (x : Chunk) (xs : List Chunk) :
    rg.addAll (x :: xs) = (rg.add x.entry).addAll xs := by
  simp [RowGroupMeta.addAll, RowGroupMeta.add, Nat.add_assoc]

/-- The chunks of a batch's leaves. -/
def leavesEmission (X : External) (batch : ArrowArray) (codec : CompressionCodec) (mode : Nat)
    (leaves : List LeafSpec) : Emission Fault Bytes (List Chunk) :=
  leaves.mapM (leafEmission X batch codec mode)

/-- **The leaf loop streams the chunks of the leaves**, one behind the other, and adds their
    entries. -/
theorem writeLeaves_stream (X : External) (leaves : List LeafSpec) (batch : ArrowArray)
    (rg : RowGroupMeta) (w : Writer) :
    writeLeaves X leaves batch rg w = streamOf ((fun xs => rg.addAll (placed w.offset xs)) <$>
      leavesEmission X batch w.codec w.encoding leaves) w := by
  unfold leavesEmission
  induction leaves generalizing rg w with
  | nil => simp [writeLeaves, streamOf_pure, placed, RowGroupMeta.addAll]
  | cons leaf rest ih =>
    rw [writeLeaves_cons, List.mapM_cons]
    simp only [map_bind, streamOf_bind]
    have hleaf : writeLeaf X leaf batch rg w =
        (streamOf (leafEmission X batch w.codec w.encoding leaf) >>=
          fun x => pure (rg.add (Chunk.at x w.offset).entry)) w := by
      rw [writeLeaf_stream, map_eq_pure_bind]
      simp only [streamOf_bind, streamOf_pure]
    show EStateM.bind (writeLeaf X leaf batch rg) _ w = _
    unfold EStateM.bind
    rw [hleaf]
    show ((streamOf _ >>= fun x => pure (rg.add (Chunk.at x w.offset).entry)) >>= fun rg =>
      writeLeaves X rest batch rg) w = _
    rw [bind_assoc]
    refine streamOf_bind_congr fun x hx => ?_
    rw [pure_bind, ih, (leafEmission_eq_ok hx).2.2]
    simp only [map_eq_pure_bind, streamOf_bind, streamOf_pure, Writer.put_codec, Writer.put_encoding,
      Writer.put_offset, ChunkPages.flatten_pieces, pure_bind, placed, RowGroupMeta.addAll_cons]

/-- The chunks of leaves that end well. -/
theorem chunks_of_results {X : External} {batch : ArrowArray} {codec : CompressionCodec}
    {mode : Nat} {leaves : List LeafSpec} {xs : List Chunk}
    (h : List.Forall₂ (fun leaf x => (leafEmission X batch codec mode leaf).result = .ok x)
      leaves xs) :
    xs.map (·.leaf) = leaves ∧ (∀ x ∈ xs, x.Of X batch codec mode) ∧
      (leaves.flatMap fun leaf => (leafEmission X batch codec mode leaf).output) =
        xs.flatMap (·.pages.pieces) := by
  induction h with
  | nil => exact ⟨rfl, fun x hx => (List.not_mem_nil hx).elim, rfl⟩
  | cons hx _ ih =>
    obtain ⟨hleaf, hof, hout⟩ := leafEmission_eq_ok hx
    obtain ⟨hleaves, hofs, houts⟩ := ih
    refine ⟨by rw [List.map_cons, hleaf, hleaves], ?_, by
      rw [List.flatMap_cons, List.flatMap_cons, hout, houts]⟩
    intro y hy
    rcases List.mem_cons.mp hy with rfl | hy
    · exact hof
    · exact hofs y hy

theorem leavesEmission_eq_ok {X : External} {batch : ArrowArray} {codec : CompressionCodec}
    {mode : Nat} {leaves : List LeafSpec} {xs : List Chunk}
    (h : (leavesEmission X batch codec mode leaves).result = .ok xs) :
    xs.map (·.leaf) = leaves ∧ (∀ x ∈ xs, x.Of X batch codec mode) ∧
      (leavesEmission X batch codec mode leaves).output = xs.flatMap (·.pages.pieces) := by
  unfold leavesEmission at h ⊢
  rcases Emission.mapM_cases (leafEmission X batch codec mode) leaves with
    ⟨ys, hys, hm⟩ | ⟨_, _, _, _, e, _, _, _, hm⟩
  · rw [hm] at h ⊢
    cases h
    exact chunks_of_results hys
  · rw [hm] at h
    cases h

/-- **A successful leaf loop.** -/
theorem writeLeaves_ok {X : External} {leaves : List LeafSpec} {batch : ArrowArray}
    {rg rg' : RowGroupMeta} {w w' : Writer} (h : writeLeaves X leaves batch rg w = .ok rg' w') :
    ∃ xs : List Chunk, xs.map (·.leaf) = leaves ∧
      (∀ x ∈ xs, x.Of X batch w.codec w.encoding) ∧ Consecutive w.offset xs ∧
      w' = w.put (xs.flatMap (·.pages.pieces)) ∧ rg' = rg.addAll xs := by
  rw [writeLeaves_stream, streamOf_eq_ok, Emission.result_map, map_eq_ok, Emission.output_map] at h
  obtain ⟨⟨xs, hxs, rfl⟩, rfl⟩ := h
  obtain ⟨hleaves, hof, hout⟩ := leavesEmission_eq_ok hxs
  refine ⟨placed w.offset xs, ?_, ?_, consecutive_placed _ _, ?_, rfl⟩
  · rw [map_placed (·.leaf) fun _ _ => rfl, hleaves]
  · exact forall_placed (fun x start hx => ⟨hx.inputs, hx.bodies, hx.built⟩) hof
  · rw [hout, pieces_placed]

/-- A leaf loop that stops, with what it has streamed. -/
theorem writeLeaves_stopped {X : External} {leaves : List LeafSpec} {batch : ArrowArray}
    {w : Writer} {f : Fault}
    (h : (leavesEmission X batch w.codec w.encoding leaves).result = .error f) (rg : RowGroupMeta) :
    writeLeaves X leaves batch rg w =
      .error (stopAt f (w.put (leavesEmission X batch w.codec w.encoding leaves).output)).1
        (stopAt f (w.put (leavesEmission X batch w.codec w.encoding leaves).output)).2 := by
  rw [writeLeaves_stream, streamOf_eq_error, Emission.result_map, Emission.output_map, h]
  exact ⟨f, rfl, rfl⟩

/-- The leaf loop only streams. -/
theorem onlyStreams_writeLeaves (X : External) (leaves : List LeafSpec) (batch : ArrowArray)
    (rg : RowGroupMeta) : OnlyStreams (writeLeaves X leaves batch rg) := by
  intro w
  rw [writeLeaves_stream]
  exact onlyStreams_stream _ w

end N2P
