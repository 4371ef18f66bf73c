import N2P.CaptureRuns

/-!
# One window or many

* `RowsStitch` — the rows of all windows are the slice of the whole capture's table.
* `windowedRows_at`, `windowRows_at` — one packet's row, by its window and in the whole table.
* `rowsStitch_iff` — when the rows stitch.
-/

namespace N2P.Capture

variable {Block : Type}

/-- A capture cut into windows.  A file has fewer bytes, hence blocks, than a 64-bit count. -/
structure WindowedCapture (Block : Type) where
  windows : List (List Block)
  fits : windows.flatten.length < 2 ^ 64

/-- The rows of the whole capture, in one window and without slicing. -/
def wholeRows (T : Nanotins Block) (blocks : List Block) : List PacketRow :=
  (processWindow T {} {} blocks).2

/-- `--drop` and `--count` of a table, in unbounded integers. -/
def Args.slice (args : Args) (rows : List PacketRow) : List PacketRow :=
  let rest := rows.drop args.drop.toNat
  if args.take = UINT64_MAX then rest else rest.take args.take.toNat

/-- The windows' rows stitch into the slice of the whole table. -/
def RowsStitch (T : Nanotins Block) (args : Args) (c : WindowedCapture Block) : Prop :=
  (run T args {} c.windows).2 = args.slice (wholeRows T c.windows.flatten)

/-- Packet `j` is in the slice. -/
def Args.Kept (args : Args) (j : Nat) : Prop :=
  args.drop.toNat ≤ j ∧ (args.take = UINT64_MAX ∨ j < args.drop.toNat + args.take.toNat)

/-- The interface that a packet names is described by `known` already, or never, or later as
    what stands in for it. -/
def Settled (T : Nanotins Block) (known all : Interfaces) (packet : Block × Nat) : Prop :=
  T.kind packet.1 = .epb ∨ T.kind packet.1 = .simplePacket →
    ∀ idb, (known.table packet.2)[(T.parseEpb packet.1).interfaceId.toNat]? = none →
      (all.table packet.2)[(T.parseEpb packet.1).interfaceId.toNat]? = some idb →
      idb = .assumed

/-- Every packet of the slice is settled by the blocks up to the end of its window. -/
def InTime (T : Nanotins Block) (args : Args) (c : WindowedCapture Block) : Prop :=
  ∀ pre refs post, c.windows = pre ++ refs :: post →
    ∀ k packet, (classify T (classify T {} pre.flatten).1 refs).2[k]? = some packet →
      args.Kept ((classify T {} pre.flatten).2.length + k) →
      Settled T (classify T {} (pre.flatten ++ refs)).1 (classify T {} c.windows.flatten).1 packet

section Stitching

variable {T : Nanotins Block} {args : Args}

theorem packetRow_eq_iff {known all : Interfaces} {pid : UInt64} {packet : Block × Nat}
    (hgrown : known.table packet.2 <+: all.table packet.2) :
    packetRow T known pid packet = packetRow T all pid packet ↔ Settled T known all packet := by
  have hfound : ∀ {n : Nat} {idb : IdbView}, (known.table packet.2)[n]? = some idb →
      (all.table packet.2)[n]? = some idb := by
    intro n idb h
    obtain ⟨rest, hrest⟩ := hgrown
    rw [← hrest, List.getElem?_append_left (List.getElem?_eq_some_iff.mp h).1]
    exact h
  have hlookup : ∀ n : Nat, (((known.table packet.2)[n]?).getD .assumed =
        ((all.table packet.2)[n]?).getD .assumed ↔
      ∀ idb, (known.table packet.2)[n]? = none → (all.table packet.2)[n]? = some idb →
        idb = .assumed) := by
    intro n
    cases hknown : (known.table packet.2)[n]? with
    | some idb => simp [hfound hknown]
    | none =>
      cases (all.table packet.2)[n]? with
      | none => simp
      | some idb => simp [eq_comm]
  have hrow : packetRow T known pid packet = packetRow T all pid packet ↔
      (T.kind packet.1 = .epb ∨ T.kind packet.1 = .simplePacket →
        ((known.table packet.2)[(T.parseEpb packet.1).interfaceId.toNat]?).getD .assumed =
          ((all.table packet.2)[(T.parseEpb packet.1).interfaceId.toNat]?).getD .assumed) := by
    unfold packetRow
    cases T.kind packet.1 with
    | epb | simplePacket => simp [IdbView.ext_iff]
    | shb | idb | pcapRecord | other => simp
  rw [hrow, hlookup]
  rfl

theorem cut_eq_iff {a b : Nat} {xs ys : List PacketRow} :
    cut a b 0 xs = cut a b 0 ys ↔ ∀ j, a ≤ j → j < b → xs[j]? = ys[j]? := by
  have hat : ∀ (rows : List PacketRow) n, (cut a b 0 rows)[n]? =
      if a + n < b then rows[a + n]? else none := by
    intro rows n
    unfold cut
    rw [List.getElem?_drop, List.getElem?_take, Nat.sub_zero, Nat.sub_zero]
  constructor
  · intro h j hj hb
    have hn : (cut a b 0 xs)[j - a]? = (cut a b 0 ys)[j - a]? := by rw [h]
    rw [hat, hat, if_pos (by omega), if_pos (by omega)] at hn
    rwa [Nat.add_sub_cancel' hj] at hn
  · intro h
    apply List.ext_getElem?
    intro n
    rw [hat, hat]
    split
    · rename_i hb
      exact h _ (by omega) hb
    · rfl

theorem windowedRows_append (i : Interfaces) (g : Nat) (xs ys : List (List Block)) :
    windowedRows T i g (xs ++ ys) =
      windowedRows T i g xs ++
        windowedRows T (classify T i xs.flatten).1 (g + (classify T i xs.flatten).2.length) ys := by
  induction xs generalizing i g with
  | nil => rfl
  | cons refs rest ih =>
    rw [List.cons_append, windowedRows, windowedRows, ih, List.flatten_cons, classify_append,
      List.length_append, List.append_assoc, Nat.add_assoc]

/-- The row of a packet that its window stores. -/
theorem windowedRows_at {pre post : List (List Block)} {refs : List Block} {k : Nat}
    {packet : Block × Nat}
    (h : (classify T (classify T {} pre.flatten).1 refs).2[k]? = some packet) :
    (windowedRows T {} 0 (pre ++ refs :: post))[(classify T {} pre.flatten).2.length + k]? =
      some (packetRow T (classify T {} (pre.flatten ++ refs)).1
        (UInt64.ofNat ((classify T {} pre.flatten).2.length + k)) packet) := by
  have hk := (List.getElem?_eq_some_iff.mp h).1
  rw [windowedRows_append, List.getElem?_append_right (by rw [length_windowedRows]; omega),
    length_windowedRows, Nat.add_sub_cancel_left, windowedRows,
    List.getElem?_append_left (by rw [length_windowRows]; exact hk), windowRows,
    List.getElem?_mapIdx, h, classify_append, Nat.zero_add]
  rfl

/-- The row of the same packet in the whole table. -/
theorem windowRows_at {pre post : List (List Block)} {refs : List Block} {k : Nat}
    {packet : Block × Nat}
    (h : (classify T (classify T {} pre.flatten).1 refs).2[k]? = some packet) :
    (windowRows T {} 0 (pre ++ refs :: post).flatten)[(classify T {} pre.flatten).2.length + k]? =
      some (packetRow T (classify T {} (pre ++ refs :: post).flatten).1
        (UInt64.ofNat ((classify T {} pre.flatten).2.length + k)) packet) := by
  have hk := (List.getElem?_eq_some_iff.mp h).1
  have hpacket : (classify T {} (pre ++ refs :: post).flatten).2[
      (classify T {} pre.flatten).2.length + k]? = some packet := by
    rw [List.flatten_append, List.flatten_cons, classify_append, classify_append,
      List.getElem?_append_right (by omega), Nat.add_sub_cancel_left,
      List.getElem?_append_left hk]
    exact h
  rw [windowRows, List.getElem?_mapIdx, hpacket, Nat.zero_add]
  rfl

/-- Every packet is in a window. -/
theorem packet_in_window (i : Interfaces) (windows : List (List Block)) {j : Nat}
    (hj : j < (classify T i windows.flatten).2.length) :
    ∃ pre refs post k packet, windows = pre ++ refs :: post ∧
      j = (classify T i pre.flatten).2.length + k ∧
      (classify T (classify T i pre.flatten).1 refs).2[k]? = some packet := by
  induction windows generalizing i j with
  | nil => exact absurd hj (Nat.not_lt_zero j)
  | cons refs rest ih =>
    rw [List.flatten_cons, classify_append, List.length_append] at hj
    by_cases hlt : j < (classify T i refs).2.length
    · exact ⟨[], refs, rest, j, _, rfl, (Nat.zero_add j).symm, List.getElem?_eq_getElem hlt⟩
    · obtain ⟨pre, refs', post, k, packet, rfl, hjk, hpacket⟩ :=
        ih (classify T i refs).1 (j := j - (classify T i refs).2.length) (by omega)
      refine ⟨refs :: pre, refs', post, k, packet, rfl, ?_, ?_⟩
      · rw [List.flatten_cons, classify_append, List.length_append]
        omega
      · rw [List.flatten_cons, classify_append]
        exact hpacket

/-- A block is one packet at most. -/
theorem length_packets_le (i : Interfaces) (refs : List Block) :
    (classify T i refs).2.length ≤ refs.length := by
  have step : ∀ i r, (classifyBlock T i [] r).2.length ≤ 1 := by
    intro i r
    unfold classifyBlock
    cases T.kind r with
    | idb => cases T.parseIdb r <;> simp
    | shb | epb | pcapRecord | simplePacket | other => simp
  induction refs generalizing i with
  | nil => simp [classify]
  | cons r rest ih =>
    have hsplit := classify_append T i [r] rest
    change classify T i (r :: rest) = (_, (classifyBlock T i [] r).2 ++ _) at hsplit
    rw [hsplit, List.length_append, List.length_cons]
    have hrest : (classify T (classify T i [r]).1 rest).2.length ≤ rest.length := ih _
    have hfirst := step i r
    omega

theorem wholeRows_eq {blocks : List Block} (h : (classify T {} blocks).2.length < 2 ^ 64) :
    wholeRows T blocks = windowRows T {} 0 blocks := by
  have hlen : (windowRows T {} 0 blocks).length = (classify T {} blocks).2.length :=
    length_windowRows {} 0 blocks
  obtain ⟨_, _, hrows⟩ := processWindow_eq T {} {} blocks
  have hslice := windowSlice_rows {} 0 (windowRows T {} 0 blocks)
    (by rw [hlen]; simpa using h) (.inl rfl)
  rw [hlen] at hslice
  refine (hrows.trans hslice).trans ?_
  show ((windowRows T {} 0 blocks).take (2 ^ 64)).drop 0 = _
  rw [List.drop_zero, List.take_of_length_le (by rw [hlen]; omega)]

theorem slice_eq_cut {rows : List PacketRow} (h : rows.length < 2 ^ 64) :
    args.slice rows = cut args.drop.toNat args.stop 0 rows := by
  unfold Args.slice Args.stop cut
  rw [Nat.sub_zero, Nat.sub_zero]
  dsimp only
  split
  · rw [List.take_of_length_le (by omega)]
  · rw [List.drop_take, Nat.add_sub_cancel_left]

theorem kept_iff {j : Nat} (h : j < 2 ^ 64) :
    args.Kept j ↔ args.drop.toNat ≤ j ∧ j < args.stop := by
  unfold Args.Kept Args.stop
  split
  · rename_i htake
    exact ⟨fun hkept => ⟨hkept.1, h⟩, fun hkept => ⟨hkept.1, .inl htake⟩⟩
  · rename_i htake
    exact ⟨fun hkept => ⟨hkept.1, hkept.2.resolve_left htake⟩,
      fun hkept => ⟨hkept.1, .inr hkept.2⟩⟩

/-- Where the end of the slice is representable, the rows stitch when every packet of the slice is
    settled in time. -/
theorem rowsStitch_unwrapped (c : WindowedCapture Block)
    (hstop : args.take = UINT64_MAX ∨ args.drop.toNat + args.take.toNat < 2 ^ 64) :
    RowsStitch T args c ↔ InTime T args c := by
  have hcount : (classify T {} c.windows.flatten).2.length < 2 ^ 64 :=
    Nat.lt_of_le_of_lt (length_packets_le _ _) c.fits
  have hlen : (windowRows T {} 0 c.windows.flatten).length =
      (classify T {} c.windows.flatten).2.length := length_windowRows {} 0 _
  have hrun : (run T args {} c.windows).2 =
      cut args.drop.toNat args.stop 0 (windowedRows T {} 0 c.windows) :=
    run_rows {} c.windows (by simpa using hcount) hstop
  unfold RowsStitch
  rw [hrun, wholeRows_eq hcount, slice_eq_cut (by rw [hlen]; exact hcount), cut_eq_iff]
  constructor
  · intro h pre refs post hwindows k packet hpacket hkept
    have hj : (classify T {} pre.flatten).2.length + k <
        (classify T {} c.windows.flatten).2.length := by
      have hk := (List.getElem?_eq_some_iff.mp hpacket).1
      rw [hwindows, List.flatten_append, List.flatten_cons, classify_append, classify_append,
        List.length_append, List.length_append]
      omega
    have hbounds := (kept_iff (by omega)).mp hkept
    have heq := h _ hbounds.1 hbounds.2
    rw [hwindows, windowedRows_at hpacket, windowRows_at hpacket] at heq
    rw [hwindows]
    refine (packetRow_eq_iff ?_).mp (Option.some.inj heq)
    rw [List.flatten_append, List.flatten_cons, ← List.append_assoc, classify_append T {} (_ ++ _)]
    exact table_grows T _ _ _
  · intro h j hdrop hlt
    by_cases hj : j < (classify T {} c.windows.flatten).2.length
    · obtain ⟨pre, refs, post, k, packet, hwindows, rfl, hpacket⟩ :=
        packet_in_window {} c.windows hj
      have hsettled := h pre refs post hwindows k packet hpacket
        ((kept_iff (by omega)).mpr ⟨hdrop, hlt⟩)
      rw [hwindows, windowedRows_at hpacket, windowRows_at hpacket]
      rw [hwindows] at hsettled
      refine congrArg some ((packetRow_eq_iff ?_).mpr hsettled)
      rw [List.flatten_append, List.flatten_cons, ← List.append_assoc,
        classify_append T {} (_ ++ _)]
      exact table_grows T _ _ _
    · rw [List.getElem?_eq_none (by rw [length_windowedRows]; omega),
        List.getElem?_eq_none (by rw [hlen]; omega)]

/-- **The windows' rows stitch into the slice of the whole table** exactly when the end of the slice
    does not wrap or no packet is left after the drop, and every packet of the slice is settled in
    time. -/
theorem rowsStitch_iff (T : Nanotins Block) (args : Args) (c : WindowedCapture Block) :
    RowsStitch T args c ↔
      (args.take = UINT64_MAX ∨ args.drop.toNat + args.take.toNat < 2 ^ 64 ∨
          (classify T {} c.windows.flatten).2.length ≤ args.drop.toNat) ∧
        InTime T args c := by
  have hcount : (classify T {} c.windows.flatten).2.length < 2 ^ 64 :=
    Nat.lt_of_le_of_lt (length_packets_le _ _) c.fits
  have hlen : (windowRows T {} 0 c.windows.flatten).length =
      (classify T {} c.windows.flatten).2.length := length_windowRows {} 0 _
  by_cases hstop : args.take = UINT64_MAX ∨ args.drop.toNat + args.take.toNat < 2 ^ 64
  · rw [rowsStitch_unwrapped c hstop]
    exact ⟨fun h => ⟨hstop.imp id .inl, h⟩, fun h => h.2⟩
  · obtain ⟨htake, hwrap⟩ := not_or.mp hstop
    have hdrop := args.drop.toNat_lt
    have hrun : (run T args {} c.windows).2 = [] :=
      run_wrapped {} c.windows (by simpa using hcount) htake (by omega)
    unfold RowsStitch
    rw [hrun, wholeRows_eq hcount]
    unfold Args.slice
    rw [if_neg htake]
    constructor
    · intro h
      have hnone := congrArg List.length h
      rw [List.length_nil, List.length_take, List.length_drop, hlen] at hnone
      have hle : (classify T {} c.windows.flatten).2.length ≤ args.drop.toNat := by omega
      refine ⟨.inr (.inr hle), fun pre refs post hwindows k packet hpacket hkept => ?_⟩
      have hk := (List.getElem?_eq_some_iff.mp hpacket).1
      have hfirst := hkept.1
      rw [hwindows, List.flatten_append, List.flatten_cons, classify_append, classify_append,
        List.length_append, List.length_append] at hle
      omega
    · rintro ⟨hmax | hlt | hle, _⟩
      · exact absurd hmax htake
      · exact absurd hlt hwrap
      · rw [List.drop_eq_nil_of_le (by rw [hlen]; exact hle), List.take_nil]

/-- Blocks as they matter here. -/
inductive SampleBlock where
  | header
  | interface (link : UInt16) (resol : UInt8)
  | packet (interfaceId : UInt32)

def sampleTins : Nanotins SampleBlock where
  kind
    | .header => .shb
    | .interface _ _ => .idb
    | .packet _ => .epb
  typeOrLink _ := 0
  parseIdb
    | .interface link resol => some { linkType := link, tsResol := resol }
    | _ => none
  parseEpb
    | .packet interfaceId => { interfaceId }
    | _ => {}

/-- **A count whose end wraps, and an interface described in the next window**: of three packets
    `-d 2 -c 18446744073709551614` stores none, and a packet ahead of its interface loses the link
    type and the resolution it has in the whole table. -/
theorem not_rowsStitch_wrapped :
    ¬RowsStitch sampleTins { drop := 2, take := 18446744073709551614 }
        { windows := [[.header, .interface 1 6, .packet 0, .packet 0, .packet 0]]
          fits := by decide } ∧
      ¬RowsStitch sampleTins {}
        { windows := [[.header, .packet 0], [.interface 1 9]], fits := by decide } := by
  unfold RowsStitch
  decide +kernel

end Stitching

end N2P.Capture
