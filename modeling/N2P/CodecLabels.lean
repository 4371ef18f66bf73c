import N2P.FileLayout

/-!
# Codec labels

`n2p_writer_set_codec` selects the codec "for subsequent batches", and `compress_page` reads it
when a page is written.  The footer reads it once, at close, and labels every chunk of the file
with it.  `codecs_labelled`: the labels are right exactly when every row group was written under
the codec in force at close.  `codecs_mislabelled` is a run where they are not.

The page encodings, by contrast, travel with their chunk (`DescribesPages.encodings`).
-/

namespace N2P

/-- The footer labels the chunks of a group with the codec their pages were compressed with. -/
def Labelled (X : External) (rg : RowGroup) (g : Group) : Prop :=
  List.Forall₂ (fun cc x => cc.metaData.codec = g.codec ∧
    ∀ p ∈ x.pages.pages, p.Encoded X cc.metaData.codec) rg.columns g.chunks

theorem Group.columns (label : CompressionCodec) (g : Group) :
    (rowGroup label g.entry).columns = g.chunks.map fun x => columnChunk label x.entry := by
  simp [rowGroup, Group.entry, batchGroup, RowGroupMeta.addAll, Function.comp_def]

/-- One group's labels are right exactly when it was written under the label. -/
theorem labelled_iff {X : External} {leaves : List LeafSpec} {g : Group} (hg : g.Of X leaves)
    (hne : leaves ≠ []) (label : CompressionCodec) :
    Labelled X (rowGroup label g.entry) g ↔ g.codec = label := by
  unfold Labelled
  rw [g.columns, List.forall₂_map_left_iff, List.forall₂_same]
  constructor
  · intro h
    obtain ⟨x, hx⟩ : ∃ x, x ∈ g.chunks := by
      refine List.exists_mem_of_ne_nil _ fun hnil => hne ?_
      rw [← hg.leaves, hnil]
      rfl
    exact (h x hx).1.symm
  · rintro rfl x hx
    exact ⟨rfl, (hg.of x hx).built.encoded⟩

/-- **The footer's codec labels are right exactly when no batch was written under another codec**
    than the one in force at close. -/
theorem codecs_labelled {X : External} {sink : ByteSink} {path : String} {ops : List Op}
    {statuses : List N2PStatus} {w : Writer}
    (hrun : run X (n2pWriterOpen sink path).2 ops = some (statuses, w)) :
    ∃ gs : List Group, w.rowGroups = gs.map Group.entry ∧ (∀ g ∈ gs, g.Of X w.leaves) ∧
      gs.map (·.codec) = usedCodecs X (n2pWriterOpen sink path).2 ops ∧
      (List.Forall₂ (Labelled X) (fileMetaData w).rowGroups gs ↔
        ∀ codec ∈ usedCodecs X (n2pWriterOpen sink path).2 ops, codec = w.codec) := by
  obtain ⟨gs, hrec, hcodecs⟩ := recorded_run (recorded_open X sink path) hrun
  rw [List.nil_append] at hrec
  refine ⟨gs, hrec.groups, hrec.of, hcodecs, ?_⟩
  have hleaves : gs ≠ [] → w.leaves ≠ [] := by
    intro hne
    cases hl : w.schemaLocked with
    | true => exact (hrec.locked hl).1
    | false => exact absurd (hrec.unlocked hl) hne
  have hgroups : (fileMetaData w).rowGroups = gs.map fun g => rowGroup w.codec g.entry := by
    show w.rowGroups.map (rowGroup w.codec) = _
    rw [hrec.groups, List.map_map]
    rfl
  rw [hgroups, List.forall₂_map_left_iff, List.forall₂_same, ← hcodecs, List.forall_mem_map]
  constructor
  · intro h g hg
    exact (labelled_iff (hrec.of g hg) (hleaves (List.ne_nil_of_mem hg)) _).mp (h g hg)
  · intro h g hg
    exact (labelled_iff (hrec.of g hg) (hleaves (List.ne_nil_of_mem hg)) _).mpr (h g hg)

/-- The codec is set before the only batch. -/
def codecBeforeBatch : List Op :=
  [.setCodec 1, .writeBatch (some nameAndNumber) (some (fourRows false))]

theorem codecs_labelled_before :
    ∃ w gs, run .reference freshWriter codecBeforeBatch = some ([.ok, .ok], w) ∧
      w.rowGroups = gs.map Group.entry ∧
      usedCodecs .reference freshWriter codecBeforeBatch = [.uncompressed] ∧
      List.Forall₂ (Labelled .reference) (fileMetaData w).rowGroups gs := by
  have hrun : (run .reference freshWriter codecBeforeBatch).map (fun r => (r.1, r.2.codec)) =
      some ([.ok, .ok], .uncompressed) := by decide +kernel
  have hused : usedCodecs .reference freshWriter codecBeforeBatch = [.uncompressed] := by
    decide +kernel
  obtain ⟨⟨statuses, w⟩, hw, hfacts⟩ := Option.map_eq_some_iff.mp hrun
  simp only [Prod.mk.injEq] at hfacts
  obtain ⟨rfl, hcodec⟩ := hfacts
  obtain ⟨gs, hgroups, _, _, hiff⟩ :=
    @codecs_labelled .reference (.fresh 8191 none) "out.parquet" _ _ w hw
  refine ⟨w, gs, hw, hgroups, hused, hiff.mpr ?_⟩
  have hsame : ∀ codec ∈ usedCodecs .reference freshWriter codecBeforeBatch, codec = w.codec := by
    rw [hused, hcodec]
    simp
  exact hsame

/-- The labels agree with the codecs the groups were written under. -/
theorem Labelled.codecs {X : External} {rgs : List RowGroup} {gs : List Group}
    (h : List.Forall₂ (Labelled X) rgs gs) :
    List.Forall₂ (fun rg codec => ∀ cc ∈ rg.columns, cc.metaData.codec = codec) rgs
      (gs.map (·.codec)) := by
  rw [List.forall₂_map_right_iff]
  refine h.imp fun rg g hl cc hcc => ?_
  unfold Labelled at hl
  generalize rg.columns = ccs at hl hcc
  generalize hxs : g.chunks = xs at hl
  clear hxs
  induction hl with
  | nil => cases hcc
  | cons hx _ ih =>
    rcases List.mem_cons.mp hcc with rfl | hcc
    · exact hx.1
    · exact ih hcc

/-- One batch under zstd, then the codec is set for batches that never come. -/
def codecAfterBatch : List Op :=
  [.writeBatch (some nameAndNumber) (some (fourRows false)), .setCodec 1]

theorem codecs_mislabelled :
    ∃ w, run .reference freshWriter codecAfterBatch = some ([.ok, .ok], w) ∧
      usedCodecs .reference freshWriter codecAfterBatch = [.zstd] ∧
      w.codec = .uncompressed ∧
      ¬ ∃ gs : List Group, w.rowGroups = gs.map Group.entry ∧
        gs.map (·.codec) = usedCodecs .reference freshWriter codecAfterBatch ∧
        List.Forall₂ (Labelled .reference) (fileMetaData w).rowGroups gs := by
  have hrun : (run .reference freshWriter codecAfterBatch).map (fun r => (r.1, r.2.codec,
      (fileMetaData r.2).rowGroups.map fun rg => rg.columns.map (·.metaData.codec))) =
      some ([.ok, .ok], .uncompressed, [[.uncompressed, .uncompressed]]) := by decide +kernel
  have hused : usedCodecs .reference freshWriter codecAfterBatch = [.zstd] := by decide +kernel
  obtain ⟨⟨statuses, w⟩, hw, hfacts⟩ := Option.map_eq_some_iff.mp hrun
  simp only [Prod.mk.injEq] at hfacts
  obtain ⟨rfl, hcodec, hlabels⟩ := hfacts
  refine ⟨w, hw, hused, hcodec, ?_⟩
  rintro ⟨gs, _, hcodecs, hlabelled⟩
  have h := Labelled.codecs hlabelled
  rw [hcodecs, hused] at h
  -- the one row group's chunks are labelled UNCOMPRESSED, its codec was ZSTD
  cases hrgs : (fileMetaData w).rowGroups with
  | nil => rw [hrgs] at h; cases h
  | cons rg rest =>
    rw [hrgs] at h hlabels
    cases h with
    | cons hrg _ =>
      cases hcols : rg.columns with
      | nil => simp [hcols] at hlabels
      | cons cc ccs =>
        have hzstd := hrg cc (by rw [hcols]; exact List.mem_cons_self)
        simp [hcols, hzstd] at hlabels

end N2P
