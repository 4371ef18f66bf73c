import N2P.Lib.Emission
import N2P.Writer

/-!
# What the steps of the writer do to it

Every step up to the commit only streams bytes: `Writer.put` is all that a successful step does to
the writer, and a failed one also sets `last_error` (`Streams`).

* `OnlyStreams` — a step that does no more than that, however it ends.
* `raise_bind_ok`, `raise_bind_error` — a pure computation run inside the writer.
* `streamOf` — the step that streams what an emission emits, and stops where it stops.
* `Page`, `pageEmission` — a page as an emission: its header and its stored body, with the byte
  counts the chunk adds up.
-/

namespace N2P

open Outcome

/-! ## Streaming bytes -/

/-- The writer after it streamed some pieces. -/
def Writer.put (w : Writer) (pieces : List Bytes) : Writer :=
  { w with out := w.out.writeAll pieces, offset := w.offset + pieces.flatten.length }

theorem Writer.put_nil (w : Writer) : w.put [] = w := by
  simp [Writer.put, ByteSink.writeAll]

theorem Writer.put_put (w : Writer) (xs ys : List Bytes) :
    (w.put xs).put ys = w.put (xs ++ ys) := by
  simp [Writer.put, ByteSink.writeAll_append, Nat.add_assoc]

@[simp] theorem Writer.put_codec (w : Writer) (xs : List Bytes) : (w.put xs).codec = w.codec := rfl
@[simp] theorem Writer.put_encoding (w : Writer) (xs : List Bytes) :
    (w.put xs).encoding = w.encoding := rfl
@[simp] theorem Writer.put_offset (w : Writer) (xs : List Bytes) :
    (w.put xs).offset = w.offset + xs.flatten.length := rfl

/-- The writer has streamed bytes, and may have set its last error. -/
def Streams (w w' : Writer) : Prop := ∃ pieces msg, w' = { w.put pieces with lastError := msg }

theorem Streams.refl (w : Writer) : Streams w w := ⟨[], w.lastError, by rw [Writer.put_nil]⟩

theorem Streams.put (w : Writer) (pieces : List Bytes) : Streams w (w.put pieces) :=
  ⟨pieces, w.lastError, rfl⟩

/-- An early end that is reported as a failure. -/
def Exit.Fails (e : Exit) : Prop := ∀ status why, e = .refused status why → status ≠ .ok

/-- A step that only streams, however it ends. -/
def OnlyStreams {α : Type} (x : WriterM α) : Prop :=
  ∀ w, match x w with
    | .ok _ w' => Streams w w'
    | .error e w' => Streams w w' ∧ e.Fails

theorem OnlyStreams.error {α : Type} {x : WriterM α} (h : OnlyStreams x) {w w' : Writer} {e : Exit}
    (hx : x w = .error e w') : Streams w w' ∧ e.Fails := by
  have := h w
  rwa [hx] at this

theorem raise_ok_bind {α β : Type} (a : α) (f : α → WriterM β) : (raise (.ok a) >>= f) = f a := by
  funext w
  rfl

theorem raise_eq_ok {α : Type} {x : Except Fault α} {a : α} {w w' : Writer} :
    raise x w = .ok a w' ↔ x = .ok a ∧ w' = w := by
  unfold raise
  cases x with
  | ok b =>
    rw [pure_eq_ok]
    simp [eq_comm]
  | error f =>
    refine iff_of_false ?_ (by simp)
    cases f <;> exact nofun

theorem raise_eq_error {α : Type} {x : Except Fault α} {e : Exit} {w w' : Writer} :
    raise x w = .error e w' ↔
      (∃ why, x = .error (.refused why) ∧ e = .refused .invalidArgument why ∧
        w' = { w with lastError := why.text }) ∨
      (∃ what, x = .error (.thrown what) ∧ e = .thrown what ∧ w' = w) ∨
      (x = .error .undefined ∧ e = .undefined ∧ w' = w) := by
  unfold raise
  cases x with
  | ok b => exact iff_of_false pure_ne_error (by simp)
  | error f =>
    cases f with
    | refused why =>
      show EStateM.Result.error _ _ = _ ↔ _
      simp [eq_comm]
    | thrown what =>
      show EStateM.Result.error _ _ = _ ↔ _
      simp [eq_comm]
    | undefined =>
      show EStateM.Result.error _ _ = _ ↔ _
      simp [eq_comm]

theorem raise_bind_ok {α β : Type} {x : Except Fault α} {f : α → WriterM β} {b : β}
    {w w' : Writer} :
    (raise x >>= f) w = .ok b w' ↔ ∃ a, x = .ok a ∧ f a w = .ok b w' := by
  rw [seq_eq_ok]
  constructor
  · rintro ⟨a, t, h1, h2⟩
    obtain ⟨ha, rfl⟩ := raise_eq_ok.mp h1
    exact ⟨a, ha, h2⟩
  · rintro ⟨a, ha, h2⟩
    exact ⟨a, w, raise_eq_ok.mpr ⟨ha, rfl⟩, h2⟩

theorem raise_bind_error {α β : Type} {x : Except Fault α} {f : α → WriterM β} {e : Exit}
    {w w' : Writer} :
    (raise x >>= f) w = .error e w' ↔
      raise x w = .error e w' ∨ ∃ a, x = .ok a ∧ f a w = .error e w' := by
  rw [seq_eq_error]
  constructor
  · rintro (h | ⟨a, t, h1, h2⟩)
    · exact .inl h
    · obtain ⟨ha, rfl⟩ := raise_eq_ok.mp h1
      exact .inr ⟨a, ha, h2⟩
  · rintro (h | ⟨a, ha, h2⟩)
    · exact .inl h
    · exact .inr ⟨a, w, raise_eq_ok.mpr ⟨ha, rfl⟩, h2⟩

/-- An error a check reports is a failure, and nothing else has happened. -/
theorem raise_error_fails {α : Type} {x : Except Fault α} {e : Exit} {w w' : Writer}
    (h : raise x w = .error e w') : (∃ msg, w' = { w with lastError := msg }) ∧ e.Fails := by
  rcases raise_eq_error.mp h with ⟨why, _, rfl, rfl⟩ | ⟨_, _, rfl, rfl⟩ | ⟨_, rfl, rfl⟩
  · refine ⟨⟨_, rfl⟩, fun status why' he => ?_⟩
    cases he
    simp
  · exact ⟨⟨w'.lastError, rfl⟩, fun status why' he => by cases he⟩
  · exact ⟨⟨w'.lastError, rfl⟩, fun status why' he => by cases he⟩

/-! ## Steps that only stream -/

/-- How the writer stops at a fault: a check sets the last error. -/
def stopAt : Fault → Writer → Exit × Writer
  | .refused why, w => (.refused .invalidArgument why, { w with lastError := why.text })
  | .thrown what, w => (.thrown what, w)
  | .undefined, w => (.undefined, w)

/-- The step that streams what an emission emits, and stops where it stops. -/
def streamOf {α : Type} (m : Emission Fault Bytes α) : WriterM α := Emission.run Writer.put stopAt m

theorem streamOf_pure {α : Type} (a : α) : streamOf (pure a) = pure a :=
  Emission.run_pure stopAt Writer.put_nil a

theorem streamOf_bind {α β : Type} (m : Emission Fault Bytes α) (f : α → Emission Fault Bytes β) :
    streamOf (m >>= f) = streamOf m >>= fun a => streamOf (f a) :=
  Emission.run_bind stopAt Writer.put_put m f

theorem streamOf_lift {α : Type} (x : Except Fault α) : streamOf (.lift x) = raise x := by
  funext w
  unfold streamOf Emission.run
  rw [Emission.output_lift, Writer.put_nil]
  cases x with
  | ok a => rfl
  | error f => cases f <;> rfl

theorem streamOf_eq_ok {α : Type} {m : Emission Fault Bytes α} {a : α} {w w' : Writer} :
    streamOf m w = .ok a w' ↔ m.result = .ok a ∧ w' = w.put m.output := by
  unfold streamOf Emission.run
  cases m.result with
  | error f => simp
  | ok b => simp [eq_comm]

theorem streamOf_eq_error {α : Type} {m : Emission Fault Bytes α} {e : Exit} {w w' : Writer} :
    streamOf m w = .error e w' ↔
      ∃ f, m.result = .error f ∧ (e, w') = stopAt f (w.put m.output) := by
  unfold streamOf Emission.run
  cases m.result with
  | error f => simp [Prod.ext_iff, eq_comm]
  | ok b => simp

theorem raise_error_bind {α β : Type} (f : Fault) (g : α → WriterM β) :
    raise (.error f) >>= g = raise (.error f) := by
  cases f <;> rfl

/-- What follows a streaming step matters only where the step ended well, and where it left the
    writer. -/
theorem streamOf_bind_congr {α β : Type} {m : Emission Fault Bytes α} {f g : α → WriterM β}
    {w : Writer} (h : ∀ a, m.result = .ok a → f a (w.put m.output) = g a (w.put m.output)) :
    (streamOf m >>= f) w = (streamOf m >>= g) w := by
  show EStateM.bind (streamOf m) f w = EStateM.bind (streamOf m) g w
  unfold EStateM.bind streamOf Emission.run
  cases hm : m.result with
  | error e => rfl
  | ok a => exact h a hm

/-- **Such a step only streams.** -/
theorem onlyStreams_stream {α : Type} (m : Emission Fault Bytes α) : OnlyStreams (streamOf m) := by
  intro w
  cases h : streamOf m w with
  | ok a w' => rw [(streamOf_eq_ok.mp h).2]; exact Streams.put w _
  | error e w' =>
    obtain ⟨f, _, hstop⟩ := streamOf_eq_error.mp h
    cases f with
    | refused why =>
      cases hstop
      exact ⟨⟨m.output, why.text, rfl⟩, fun status why' he => by cases he; simp⟩
    | thrown what =>
      cases hstop
      exact ⟨Streams.put w _, fun status why' he => by cases he⟩
    | undefined =>
      cases hstop
      exact ⟨Streams.put w _, fun status why' he => by cases he⟩

/-- The fault behind an early end is in `E`. -/
def Exit.Within (E : Fault → Prop) : Exit → Prop
  | .refused _ why => E (.refused why)
  | .thrown what => E (.thrown what)
  | .undefined => E .undefined

/-- The faults an emission can stop at are those of its step. -/
theorem within_of_stream {α : Type} {E : Fault → Prop} {m : Emission Fault Bytes α} {e : Exit}
    {w w' : Writer} (hm : Outcome.FailsIn E m.result) (h : streamOf m w = .error e w') :
    e.Within E := by
  obtain ⟨f, hf, hstop⟩ := streamOf_eq_error.mp h
  have hE := hm f hf
  cases f <;> cases hstop <;> exact hE

/-! ## Pages -/

/-- A page: its header, the header's bytes, its body, and the body as stored. -/
structure Page where
  header : PageHeader
  headerBytes : Bytes
  body : Bytes
  stored : Bytes

/-- What is streamed for a page. -/
def Page.pieces (p : Page) : List Bytes := [p.headerBytes, p.stored]

def Page.bytes (p : Page) : Bytes := p.headerBytes ++ p.stored

/-- The page's bytes are its header's and its compressed body's. -/
structure Page.Encoded (X : External) (codec : CompressionCodec) (p : Page) : Prop where
  header : X.encodePageHeader p.header = .ok p.headerBytes
  stored : compressPage X p.body codec = .ok p.stored
  small : p.body.length ≤ INT32_MAX

@[simp] theorem Page.flatten_pieces (p : Page) : p.pieces.flatten = p.bytes := by
  simp [Page.pieces, Page.bytes]

theorem emitPage_eq (header body : Bytes) (n : Nat) (w : Writer) :
    emitPage header body n w = .ok
      { onDisk := header.length + body.length, uncompressed := header.length + n }
      (w.put [header, body]) := by
  have h : w.put [header, body] =
      { w with out := (w.out.write header).write body,
               offset := w.offset + header.length + body.length } := by
    simp [Writer.put, ByteSink.writeAll, Nat.add_assoc]
  rw [h]
  rfl

theorem encodePageHeader_eq_ok {X : External} {h : PageHeader} {bytes : Bytes} :
    encodePageHeader X h = .ok bytes ↔ X.encodePageHeader h = .ok bytes := by
  unfold encodePageHeader
  cases X.encodePageHeader h <;> simp

theorem checkSizes_eq_ok {n u c : Nat} (h : checkSizes n u c = .ok ()) :
    n ≤ INT32_MAX ∧ u ≤ INT32_MAX ∧ c ≤ INT32_MAX := by
  have size : ∀ {k m : Nat}, pageSizeI32 k = .ok m → k ≤ INT32_MAX := by
    intro k m hk
    unfold pageSizeI32 at hk
    split at hk
    · cases hk
    · omega
  unfold checkSizes at h
  split at h
  · rename_i h1 h2 h3
    exact ⟨size h1, size h2, size h3⟩
  all_goals cases h

/-- What one page of a chunk adds to its totals. -/
def Page.totals (p : Page) : PageBytes :=
  { onDisk := p.headerBytes.length + p.stored.length,
    uncompressed := p.headerBytes.length + p.body.length }

/-- A page from its body: compressed, labelled, streamed. -/
def pageEmission (X : External) (codec : CompressionCodec) (label : Nat → Nat → PageHeader)
    (encode : Nat → Nat → Except Fault Bytes) (body : Bytes) : Emission Fault Bytes Page := do
  let stored ← .lift (compressPage X body codec)
  let headerBytes ← .lift (encode body.length stored.length)
  .emit [headerBytes, stored]
  pure { header := label body.length stored.length, headerBytes, body, stored }

/-- How a page ends: it was compressed and labelled, and then it is streamed. -/
theorem pageEmission_cases (X : External) (codec : CompressionCodec)
    (label : Nat → Nat → PageHeader) (encode : Nat → Nat → Except Fault Bytes) (body : Bytes) :
    (∃ stored headerBytes, compressPage X body codec = .ok stored ∧
      encode body.length stored.length = .ok headerBytes ∧
      pageEmission X codec label encode body = ⟨[headerBytes, stored],
        .ok ⟨label body.length stored.length, headerBytes, body, stored⟩⟩) ∨
    ∃ f, pageEmission X codec label encode body = ⟨[], .error f⟩ ∧
      (compressPage X body codec = .error f ∨
        ∃ stored, compressPage X body codec = .ok stored ∧
          encode body.length stored.length = .error f) := by
  unfold pageEmission
  cases hc : compressPage X body codec with
  | error f => exact .inr ⟨f, rfl, .inl rfl⟩
  | ok stored =>
    simp only [Emission.lift_ok_bind]
    cases he : encode body.length stored.length with
    | error f => exact .inr ⟨f, rfl, .inr ⟨stored, rfl, he⟩⟩
    | ok headerBytes => exact .inl ⟨stored, headerBytes, rfl, he, rfl⟩

/-- A page that is streamed is its header's bytes and its stored body. -/
theorem pageEmission_eq_ok {X : External} {codec : CompressionCodec}
    {label : Nat → Nat → PageHeader} {encode : Nat → Nat → Except Fault Bytes} {body : Bytes}
    {p : Page} (h : (pageEmission X codec label encode body).result = .ok p) :
    (pageEmission X codec label encode body).output = p.pieces ∧ p.body = body ∧
      p.header = label p.body.length p.stored.length ∧
      compressPage X p.body codec = .ok p.stored ∧
      encode p.body.length p.stored.length = .ok p.headerBytes := by
  rcases pageEmission_cases X codec label encode body with
    ⟨stored, headerBytes, hc, he, hp⟩ | ⟨f, hp, _⟩
  · rw [hp] at h ⊢
    cases h
    exact ⟨rfl, rfl, rfl, hc, he⟩
  · rw [hp] at h
    cases h

/-- A data page. -/
def dataPageEmission (X : External) (codec : CompressionCodec) (n : Nat) (enc : Encoding)
    (body : Bytes) : Emission Fault Bytes Page :=
  pageEmission X codec (dataPage n enc) (dataPageHeader X n enc) body

/-- A dictionary page. -/
def dictionaryPageEmission (X : External) (codec : CompressionCodec) (size : Nat) (body : Bytes) :
    Emission Fault Bytes Page :=
  pageEmission X codec (dictionaryPage size) (dictionaryPageHeader X size) body

theorem emitPage_eq_stream (header body : Bytes) (n : Nat) :
    emitPage header body n = streamOf (.emit [header, body]) >>= fun _ => pure
      { onDisk := header.length + body.length, uncompressed := header.length + n } :=
  funext fun w => emitPage_eq header body n w

theorem emitDataPage_eq (X : External) (n : Nat) (enc : Encoding) (body : Bytes) (w : Writer) :
    emitDataPage X n enc body w =
      streamOf ((fun p => (w.offset, p.totals)) <$> dataPageEmission X w.codec n enc body) w := by
  unfold emitDataPage dataPageEmission pageEmission
  rw [get_bind]
  simp only [map_eq_pure_bind, bind_assoc, pure_bind, streamOf_bind, streamOf_lift, streamOf_pure,
    emitPage_eq_stream]
  rfl

/-- The four steps of a dictionary page, and what is made of its totals. -/
theorem dictionaryPage_bind {α : Type} (X : External) (codec : CompressionCodec) (size : Nat)
    (body : Bytes) (k : PageBytes → WriterM α) :
    (do let comp ← raise (compressPage X body codec)
        let header ← raise (dictionaryPageHeader X size body.length comp.length)
        let dp ← emitPage header comp body.length
        k dp) =
      streamOf (dictionaryPageEmission X codec size body) >>= fun d => k d.totals := by
  unfold dictionaryPageEmission pageEmission
  simp only [bind_assoc, pure_bind, streamOf_bind, streamOf_lift, streamOf_pure, emitPage_eq_stream]
  rfl

/-- A data page, and what is made of its place and totals. -/
theorem emitDataPage_bind {α : Type} (X : External) (n : Nat) (enc : Encoding) (body : Bytes)
    (g : Nat × PageBytes → α) (w : Writer) :
    (emitDataPage X n enc body >>= fun vp => pure (g vp)) w =
      (streamOf (dataPageEmission X w.codec n enc body) >>=
        fun p => pure (g (w.offset, p.totals))) w := by
  show EStateM.bind (emitDataPage X n enc body) (fun vp => pure (g vp)) w = EStateM.bind _ _ w
  unfold EStateM.bind
  rw [emitDataPage_eq]
  unfold streamOf Emission.run
  rw [Emission.result_map, Emission.output_map]
  cases (dataPageEmission X w.codec n enc body).result <;> rfl

/-! ## Errors of a page -/

section Thrown

variable {E : Fault → Prop} (hE : ∀ what, E (.thrown what))
include hE

theorem failsIn_compressPage (X : External) (src : Bytes) (codec : CompressionCodec) :
    FailsIn E (compressPage X src codec) := by
  unfold compressPage
  split
  · simp
  · split <;> simp [hE]

theorem failsIn_checkSizes (n u c : Nat) : FailsIn E (checkSizes n u c) := by
  have size : ∀ m : Nat, FailsIn E (pageSizeI32 m) := by
    intro m
    unfold pageSizeI32
    split <;> simp [hE]
  unfold checkSizes
  split
  · exact failsIn_ok _
  · rename_i h
    exact (size n).rethrow h
  · rename_i h _
    exact (size u).rethrow h
  · rename_i h _ _
    exact (size c).rethrow h

theorem failsIn_encodePageHeader (X : External) (header : PageHeader) :
    FailsIn E (encodePageHeader X header) := by
  unfold encodePageHeader
  split <;> simp [hE]

theorem failsIn_dataPageHeader (X : External) (n : Nat) (enc : Encoding) (u c : Nat) :
    FailsIn E (dataPageHeader X n enc u c) := by
  unfold dataPageHeader
  split
  · rename_i h
    exact (failsIn_checkSizes hE n u c).rethrow h
  · exact failsIn_encodePageHeader hE _ _

theorem failsIn_dictionaryPageHeader (X : External) (n u c : Nat) :
    FailsIn E (dictionaryPageHeader X n u c) := by
  unfold dictionaryPageHeader
  split
  · rename_i h
    exact (failsIn_checkSizes hE n u c).rethrow h
  · exact failsIn_encodePageHeader hE _ _

/-- A page is lost only to an exception: of the codec, the header encoder, or a size check. -/
theorem failsIn_pageEmission (X : External) (codec : CompressionCodec)
    (label : Nat → Nat → PageHeader) {encode : Nat → Nat → Except Fault Bytes}
    (hencode : ∀ u c, FailsIn E (encode u c)) (body : Bytes) :
    FailsIn E (pageEmission X codec label encode body).result := by
  rcases pageEmission_cases X codec label encode body with ⟨_, _, _, _, h⟩ | ⟨f, h, hc | ⟨_, _, he⟩⟩
  · rw [h]
    exact failsIn_ok _
  · rw [h]
    exact (failsIn_compressPage hE X body codec).rethrow hc
  · rw [h]
    exact (hencode _ _).rethrow he

end Thrown

end N2P
