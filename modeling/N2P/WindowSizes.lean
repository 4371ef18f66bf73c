import N2P.Converter

/-!
# Window sizes

A row repeats what the interface table says when its window ends, so the size of a window can show.
It does not when every packet that is kept comes behind the description of its interface.

* `packet_block` — the block behind a packet.
* `inTime_of_described` — such captures are settled in time in whatever windows.
* `convert_slice` — the packets file is the slice of the whole capture's rows, whatever the window
  size.
-/

namespace N2P.Capture

open Columnar Resumable Streaming

section Described

variable {Block : Type} {T : Nanotins Block} {args : Args}

/-- A packet that is kept is settled by the blocks up to its own. -/
def DescribedFirst (T : Nanotins Block) (args : Args) (blocks : List Block) : Prop :=
  ∀ pre r post, blocks = pre ++ r :: post → ∀ packet,
    (classify T {} (pre ++ [r])).2[(classify T {} pre).2.length]? = some packet →
    args.Kept (classify T {} pre).2.length →
    Settled T (classify T {} (pre ++ [r])).1 (classify T {} blocks).1 packet

/-- A block is at most one packet. -/
theorem length_classifyBlock (i : Interfaces) (r : Block) :
    (classifyBlock T i [] r).2.length ≤ 1 := by
  unfold classifyBlock
  cases T.kind r with
  | idb => cases T.parseIdb r <;> simp
  | shb | epb | pcapRecord | simplePacket | other => simp

/-- The block behind a packet. -/
theorem packet_block (i : Interfaces) {refs : List Block} {k : Nat} {packet : Block × Nat}
    (h : (classify T i refs).2[k]? = some packet) :
    ∃ pre r post, refs = pre ++ r :: post ∧ (classify T i pre).2.length = k ∧
      (classify T i (pre ++ [r])).2[k]? = some packet := by
  induction refs using List.reverseRecOn with
  | nil => cases h
  | append_singleton refs r ih =>
    by_cases hk : k < (classify T i refs).2.length
    · have hfirst : (classify T i refs).2[k]? = some packet := by
        rw [classify_append, List.getElem?_append_left hk] at h
        exact h
      obtain ⟨pre, r', post, rfl, hlen, hpacket⟩ := ih hfirst
      exact ⟨pre, r', post ++ [r], by simp, hlen, hpacket⟩
    · have hlen : (classify T i refs).2.length = k := by
        obtain ⟨hlt, _⟩ := List.getElem?_eq_some_iff.mp h
        rw [classify_append, List.length_append] at hlt
        have hone : (classify T (classify T i refs).1 [r]).2.length ≤ 1 :=
          length_classifyBlock _ r
        omega
      exact ⟨refs, r, [], rfl, hlen, h⟩

/-- What is settled stays settled as more blocks are known. -/
theorem Settled.mono {known known' all : Interfaces} {packet : Block × Nat}
    (h : Settled T known all packet) (hgrown : known.table packet.2 <+: known'.table packet.2) :
    Settled T known' all packet := by
  intro hkind idb hnone hall
  refine h hkind idb ?_ hall
  rw [List.getElem?_eq_none_iff] at hnone ⊢
  exact hgrown.length_le.trans hnone

/-- **Where descriptions come first, packets are settled in time**, whatever the windows. -/
theorem inTime_of_described (c : WindowedCapture Block)
    (h : DescribedFirst T args c.windows.flatten) : InTime T args c := by
  intro pre refs post hwindows k packet hpacket hkept
  obtain ⟨first, r, rest, rfl, hlen, hown⟩ := packet_block _ hpacket
  have hblocks : c.windows.flatten = (pre.flatten ++ first) ++ r :: (rest ++ post.flatten) := by
    rw [hwindows]
    simp
  have hcount : (classify T {} (pre.flatten ++ first)).2.length =
      (classify T {} pre.flatten).2.length + k := by
    rw [classify_append, List.length_append, hlen]
  have hsettled := h _ _ _ hblocks packet (by
    rw [hcount, List.append_assoc, classify_append,
      List.getElem?_append_right (Nat.le_add_right _ _), Nat.add_sub_cancel_left]
    exact hown) (by rw [hcount]; exact hkept)
  refine hsettled.mono ?_
  have hsplit : pre.flatten ++ (first ++ r :: rest) = (pre.flatten ++ first ++ [r]) ++ rest := by
    simp
  rw [hsplit, classify_append T {} _ rest]
  exact table_grows T _ rest packet.2

end Described

section Slices

variable {σ Block δ Λ Row Kind : Type} {E : Env σ Block δ Λ Row Kind} {opts : Options}

/-- **The size of the windows does not show** in the packets file of a capture that describes its
    interfaces first: one table for each window that keeps a packet, they make up the `--drop` and
    `--count` slice of the whole capture's rows, unless the two overflow. -/
theorem convert_slice {R : FileDecoders} (hR : R.Inverts E.external)
    (hbits : BitmapLevels E.external) {type : Kind → Nat → ArrowType} (hE : E.Documented type)
    {fuel : Nat} {input : FileStream} {stem : String} {files : Files}
    (h : convert E opts fuel (some input) stem = some { code := 0, files })
    {whole : Scanned σ Block}
    (hwhole : E.scanWindow E.scanState (FileSource.content input) true = .ok whole)
    (hfits : whole.items.length < 2 ^ 64)
    (hstop : opts.take = UINT64_MAX ∨ opts.drop.toNat + opts.take.toNat < 2 ^ 64)
    (hdescribed : DescribedFirst E.nanotins opts.toArgs whole.items) :
    ∃ windows, windows.flatten = whole.items ∧
      (windowGroups E.nanotins opts.toArgs {} windows).flatten =
        opts.toArgs.slice (wholeRows E.nanotins whole.items) ∧
      PacketsHeldBy R (windowGroups E.nanotins opts.toArgs {} windows)
        (leftAt (stem ++ "_packets.parquet") files) := by
  obtain ⟨windows, hconverted⟩ := converted hR hbits hE h
  have hflat := hconverted.cut.whole hwhole
  have hin : InTime E.nanotins opts.toArgs ⟨windows, by rw [hflat]; exact hfits⟩ :=
    inTime_of_described _ (by rw [hflat]; exact hdescribed)
  have hrows := (rowsStitch_unwrapped _ hstop).mpr hin
  unfold RowsStitch at hrows
  dsimp only at hrows
  rw [hflat] at hrows
  exact ⟨windows, hflat, (windowGroups_flatten E.nanotins opts.toArgs {} windows).trans hrows,
    hconverted.packets⟩

end Slices

/-- The second packet and no more, in windows of 40 bytes at first. -/
def secondPacket : Options := { drop := 1, take := 1, windowBytes := 40 }

/-- The blocks of `twoPackets`. -/
def twoPacketsBlocks : List Bytes :=
  [twoPackets.take 28, (twoPackets.drop 28).take 20, (twoPackets.drop 48).take 48,
    (twoPackets.drop 96).take 48]

theorem described_twoPackets :
    DescribedFirst pcapngTins secondPacket.toArgs twoPacketsBlocks := by
  have hno : ∀ k < 2, (classify pcapngTins {} (twoPacketsBlocks.take (k + 1))).2 = [] := by
    decide +kernel
  have hknown : ∀ k < 4, 2 ≤ k →
      ((classify pcapngTins {} (twoPacketsBlocks.take (k + 1))).1.table 0)[0]? =
        some { linkType := 1, tsResol := 6 } ∧
      ∀ packet ∈ (classify pcapngTins {} (twoPacketsBlocks.take (k + 1))).2,
        packet.2 = 0 ∧ (pcapngTins.parseEpb packet.1).interfaceId.toNat = 0 := by
    decide +kernel
  intro pre r post hblocks packet hpacket _ _ idb hnone
  have hlen : pre.length < 4 := by
    have hcount := congrArg List.length hblocks
    rw [List.length_append, List.length_cons] at hcount
    have hfour : twoPacketsBlocks.length = 4 := rfl
    omega
  have hpre : pre ++ [r] = twoPacketsBlocks.take (pre.length + 1) := by
    rw [hblocks, List.take_length_add_append]
    rfl
  rw [hpre] at hpacket hnone
  by_cases hsmall : pre.length < 2
  · rw [hno pre.length hsmall] at hpacket
    cases hpacket
  · obtain ⟨htable, hmem⟩ := hknown pre.length hlen (by omega)
    obtain ⟨hsection, hinterface⟩ := hmem packet (List.mem_of_getElem? hpacket)
    rw [hsection, hinterface, htable] at hnone
    cases hnone

theorem convert_slice_twoPackets :
    ∃ files, convert headersEnv secondPacket 300 (some { bytes := twoPackets }) "cap" =
        some { code := 0, files } ∧
      ∃ windows, windows.flatten = twoPacketsBlocks ∧
        (windowGroups headersEnv.nanotins secondPacket.toArgs {} windows).flatten =
          secondPacket.toArgs.slice (wholeRows headersEnv.nanotins twoPacketsBlocks) ∧
        PacketsHeldBy readableDecoders
          (windowGroups headersEnv.nanotins secondPacket.toArgs {} windows)
          (leftAt ("cap" ++ "_packets.parquet") files) := by
  have hcode : (convert headersEnv secondPacket 300 (some { bytes := twoPackets }) "cap").map
      (·.code) = some 0 := by decide +kernel
  obtain ⟨⟨code, files⟩, hrun, rfl⟩ := Option.map_eq_some_iff.mp hcode
  have hscan : (headersEnv.scanWindow headersEnv.scanState
      (FileSource.content { bytes := twoPackets }) true).toOption.map (·.items) =
      some twoPacketsBlocks := by decide +kernel
  obtain ⟨whole, hwhole, hitems⟩ := Option.map_eq_some_iff.mp hscan
  have hwhole : headersEnv.scanWindow headersEnv.scanState
      (FileSource.content { bytes := twoPackets }) true = .ok whole := by
    revert hwhole
    cases headersEnv.scanWindow headersEnv.scanState
      (FileSource.content { bytes := twoPackets }) true with
    | error why => exact fun h => by cases h
    | ok r => exact fun h => congrArg Except.ok (Option.some.inj h)
  have hbits : BitmapLevels headersEnv.external := fun _ _ _ => rfl
  have hslice := @convert_slice _ _ _ _ _ _ headersEnv secondPacket readableDecoders
    readableDecoders_invert hbits _ headersEnv_documented _ _ _ _ hrun whole hwhole
    (by rw [hitems]; decide) (.inr (by decide)) (by rw [hitems]; exact described_twoPackets)
  rw [hitems] at hslice
  exact ⟨files, hrun, hslice⟩

end N2P.Capture
