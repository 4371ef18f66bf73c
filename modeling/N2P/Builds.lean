import N2P.Chunks

/-!
# When a leaf can be written

Whether the leaves of a batch are all written is decided by the batch, the codec and the encoding
alone: by the checks of the leaf's arrays, the bodies built from them, the compressor and the page
sizes.  The stream has no say in it, since it is looked at only after the last leaf.

* `pageEmission_builds`, `ChunkBodies.emission_builds` — when a page, and a chunk, can be written.
* `leavesEmission_builds` — the leaf loop goes well exactly when every leaf `LeafBuilds`.
-/

namespace N2P

open Outcome

/-! ## Pages and chunks -/

/-- The body compresses, and the header takes its sizes. -/
def PageBuilds (X : External) (codec : CompressionCodec) (body : Bytes)
    (header : Nat → Nat → Except Fault Bytes) : Prop :=
  ∃ comp hdr, compressPage X body codec = .ok comp ∧ header body.length comp.length = .ok hdr

theorem pageEmission_builds {X : External} {codec : CompressionCodec}
    {label : Nat → Nat → PageHeader} {encode : Nat → Nat → Except Fault Bytes} {body : Bytes} :
    (∃ p, (pageEmission X codec label encode body).result = .ok p) ↔
      PageBuilds X codec body encode := by
  unfold PageBuilds
  constructor
  · rintro ⟨p, hp⟩
    obtain ⟨_, rfl, _, hstored, hbytes⟩ := pageEmission_eq_ok hp
    exact ⟨p.stored, p.headerBytes, hstored, hbytes⟩
  · rintro ⟨comp, hdr, hc, hh⟩
    rcases pageEmission_cases X codec label encode body with
      ⟨_, _, _, _, hp⟩ | ⟨f, _, hc' | ⟨_, hc', hh'⟩⟩
    · exact ⟨_, by rw [hp]⟩
    · rw [hc] at hc'
      cases hc'
    · rw [hc] at hc'
      cases hc'
      rw [hh] at hh'
      cases hh'

/-- The pages with these bodies can be written. -/
def ChunkBodies.Builds (X : External) (codec : CompressionCodec) (levels : Bytes) (n : Nat)
    (b : ChunkBodies) : Prop :=
  (∀ size body, b.dict = some (size, body) →
    PageBuilds X codec body (dictionaryPageHeader X size)) ∧
  PageBuilds X codec (levels ++ b.values) (dataPageHeader X n b.encoding)

theorem ChunkBodies.emission_builds {X : External} {codec : CompressionCodec} {levels : Bytes}
    {n : Nat} {b : ChunkBodies} :
    (∃ ps, (b.emission X codec levels n).result = .ok ps) ↔ b.Builds X codec levels n := by
  have hdata : (∃ p, (dataPageEmission X codec n b.encoding (levels ++ b.values)).result = .ok p) ↔
      PageBuilds X codec (levels ++ b.values) (dataPageHeader X n b.encoding) := pageEmission_builds
  unfold ChunkBodies.emission ChunkBodies.Builds
  rw [← hdata]
  cases hd : b.dict with
  | none =>
    simp only [pure_bind, Emission.bind_eq_ok, Emission.result_pure]
    constructor
    · rintro ⟨ps, p, hp, _⟩
      exact ⟨by simp, p, hp⟩
    · rintro ⟨_, p, hp⟩
      exact ⟨_, p, hp, rfl⟩
  | some entries =>
    obtain ⟨size, body⟩ := entries
    have hdict : (∃ p, (dictionaryPageEmission X codec size body).result = .ok p) ↔
        PageBuilds X codec body (dictionaryPageHeader X size) := pageEmission_builds
    simp only [map_eq_pure_bind, bind_assoc, pure_bind, Emission.bind_eq_ok, Emission.result_pure]
    constructor
    · rintro ⟨ps, d, hdp, p, hp, _⟩
      exact ⟨fun _ _ h => by cases h; exact hdict.mp ⟨d, hdp⟩, p, hp⟩
    · rintro ⟨hsome, p, hp⟩
      obtain ⟨d, hdp⟩ := hdict.mpr (hsome size body rfl)
      exact ⟨_, d, hdp, p, hp, rfl⟩

/-! ## Leaves -/

/-- Every check of the leaf's arrays passes, and its pages can be built from them. -/
def LeafBuilds (X : External) (batch : ArrowArray) (codec : CompressionCodec) (mode : Nat)
    (leaf : LeafSpec) : Prop :=
  ∃ inp b, leafInputs X leaf batch = .ok inp ∧
    chunkBodies X inp.arr leaf.col inp.validity mode = .ok b ∧
    b.Builds X codec inp.levels inp.numLevels

theorem leafEmission_builds {X : External} {batch : ArrowArray} {codec : CompressionCodec}
    {mode : Nat} {leaf : LeafSpec} :
    (∃ x, (leafEmission X batch codec mode leaf).result = .ok x) ↔
      LeafBuilds X batch codec mode leaf := by
  unfold leafEmission chunkEmission LeafBuilds
  simp only [← ChunkBodies.emission_builds, Emission.bind_eq_ok, Emission.result_lift,
    Emission.result_pure]
  constructor
  · rintro ⟨x, inp, hinp, r, ⟨b, hb, ps, hps, _⟩, _⟩
    exact ⟨inp, b, hinp, hb, ps, hps⟩
  · rintro ⟨inp, b, hinp, hb, ps, hps⟩
    exact ⟨_, inp, hinp, (b, ps), ⟨b, hb, ps, hps, rfl⟩, rfl⟩

/-- **A batch's leaves all have chunks exactly when each one builds.** -/
theorem leavesEmission_builds {X : External} {batch : ArrowArray} {codec : CompressionCodec}
    {mode : Nat} {leaves : List LeafSpec} :
    (∃ xs, (leavesEmission X batch codec mode leaves).result = .ok xs) ↔
      ∀ leaf ∈ leaves, LeafBuilds X batch codec mode leaf := by
  unfold leavesEmission
  simp only [Emission.mapM_eq_ok, ← leafEmission_builds]
  induction leaves with
  | nil => exact iff_of_true ⟨[], .nil⟩ fun _ h => (List.not_mem_nil h).elim
  | cons leaf rest ih =>
    rw [List.forall_mem_cons, ← ih]
    constructor
    · rintro ⟨_, h⟩
      cases h with
      | cons hx hxs => exact ⟨⟨_, hx⟩, _, hxs⟩
    · rintro ⟨⟨x, hx⟩, xs, hxs⟩
      exact ⟨x :: xs, .cons hx hxs⟩

/-- **They are all written exactly then.** -/
theorem writeLeaves_passes {X : External} {leaves : List LeafSpec} {batch : ArrowArray}
    {rg : RowGroupMeta} {w : Writer} :
    (∃ rg' w', writeLeaves X leaves batch rg w = .ok rg' w') ↔
      ∀ leaf ∈ leaves, LeafBuilds X batch w.codec w.encoding leaf := by
  rw [← leavesEmission_builds]
  simp only [writeLeaves_stream, streamOf_eq_ok, Emission.result_map, map_eq_ok]
  constructor
  · rintro ⟨rg', w', ⟨xs, hxs, _⟩, _⟩
    exact ⟨xs, hxs⟩
  · rintro ⟨xs, hxs⟩
    exact ⟨_, _, ⟨xs, hxs, rfl⟩, rfl⟩

end N2P
