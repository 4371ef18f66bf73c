import Mathlib.Algebra.Group.Nat.Defs
import Mathlib.Data.List.Basic

/-!
# The packets table of a capture

`pcapng2parquet_main.cpp` streams a capture in windows of whole blocks.  Each window extends the
interface tables and stores one row for each of its packets that `--drop` and `--count` keep.

* `Nanotins` — what the scanner and the parsers say of a block.
* `classifyBlock`, `processWindow`, `run` — the converter, up to the rows it stores.  The write of a
  row group, whose failure ends the run with an error, is left out.
* `classify_append`, `table_grows` — windows classify as their concatenation does, and an interface
  table only grows.
-/

namespace N2P.Capture

/-! ## Blocks and rows -/

/-- `pcapblocks::Kind`. -/
inductive Kind where
  | shb | idb | epb | pcapRecord | simplePacket | other
  deriving DecidableEq, Repr

/-- The fields of an `IdbView` that a row repeats. -/
@[ext] structure IdbView where
  linkType : UInt16
  tsResol : UInt8
  deriving DecidableEq, Repr

/-- What stands in for an interface that no block describes: microseconds, and no link type. -/
def IdbView.assumed : IdbView := { linkType := 0, tsResol := 6 }

/-- The fields of an `EpbView` that a row repeats. -/
structure EpbView where
  interfaceId : UInt32 := 0
  tsRaw : UInt64 := 0
  caplen : UInt32 := 0
  origlen : UInt32 := 0
  epbFlags : UInt32 := 0
  deriving DecidableEq, Repr

structure PacketRow where
  packetId : UInt64
  interfaceId : UInt32
  tsRaw : UInt64
  caplen : UInt32
  origlen : UInt32
  linkType : UInt16
  tsResol : UInt8
  epbFlags : UInt32
  deriving DecidableEq, Repr

/-- nanotins on the blocks of a capture, wherever a window puts them. -/
structure Nanotins (Block : Type) where
  kind : Block → Kind
  /-- `type_or_link` of the `BlockRef`. -/
  typeOrLink : Block → UInt32
  /-- `parse_idb`; `none` when it returns false. -/
  parseIdb : Block → Option IdbView
  /-- What `parse_epb` leaves in a zeroed `EpbView`. -/
  parseEpb : Block → EpbView

/-- `UINT64_MAX`, as `--count` the request for all packets. -/
def UINT64_MAX : UInt64 := 0xFFFFFFFFFFFFFFFF

structure Args where
  drop : UInt64 := 0
  take : UInt64 := UINT64_MAX

/-! ## The converter -/

/-- What `classify_block` keeps: `sections_`, `cur_section_` and `other_count_`. -/
structure Interfaces where
  sections : List (List IdbView) := []
  curSection : Int := -1
  otherCount : Nat := 0

/-- A block before any section header opens the first section. -/
def Interfaces.opened (i : Interfaces) : Interfaces :=
  if i.curSection < 0 then { i with sections := i.sections ++ [[]], curSection := 0 } else i

variable {Block : Type}

/-- `classify_block`.  A packet is kept with its section. -/
def classifyBlock (T : Nanotins Block) (i : Interfaces) (packets : List (Block × Nat))
    (r : Block) : Interfaces × List (Block × Nat) :=
  match T.kind r with
  | .shb =>
    let sections := i.sections ++ [[]]
    ({ i with sections, curSection := sections.length - 1 }, packets)
  | .idb =>
    let i := i.opened
    match T.parseIdb r with
    | none => (i, packets)
    | some idb =>
      ({ i with sections := i.sections.modify i.curSection.toNat (· ++ [idb]) }, packets)
  | .epb | .pcapRecord | .simplePacket =>
    let i := i.opened
    (i, packets ++ [(r, i.curSection.toNat)])
  | .other => ({ i with otherCount := i.otherCount + 1 }, packets)

/-- The loop over a window's blocks. -/
def classify (T : Nanotins Block) (i : Interfaces) (refs : List Block) :
    Interfaces × List (Block × Nat) :=
  refs.foldl (fun c r => classifyBlock T c.1 c.2 r) (i, [])

/-- The interface table of a section. -/
def Interfaces.table (i : Interfaces) (s : Nat) : List IdbView := (i.sections[s]?).getD []

/-- The row of a packet. -/
def packetRow (T : Nanotins Block) (i : Interfaces) (pid : UInt64) (packet : Block × Nat) :
    PacketRow :=
  let e := T.parseEpb packet.1
  let interface : IdbView :=
    match T.kind packet.1 with
    | .epb | .simplePacket =>
      ((i.table packet.2)[e.interfaceId.toNat]?).getD .assumed
    | _ => { linkType := (T.typeOrLink packet.1).toUInt16, tsResol := 6 }
  { packetId := pid, interfaceId := e.interfaceId, tsRaw := e.tsRaw, caplen := e.caplen,
    origlen := e.origlen, linkType := interface.linkType, tsResol := interface.tsResol,
    epbFlags := e.epbFlags }

structure Converter where
  interfaces : Interfaces := {}
  globalPid : UInt64 := 0
  emitted : UInt64 := 0

/-- `std::min<std::uint64_t>`. -/
def stdMin (a b : UInt64) : UInt64 := if b < a then b else a

/-- `lo` and `hi`: the packets of a window that `--drop` and `--count` keep. -/
def windowSlice (args : Args) (g0 : UInt64) (nTotal : Nat) : Nat × Nat :=
  let lo := if args.drop > g0 then (stdMin (args.drop - g0) (UInt64.ofNat nTotal)).toNat else 0
  let hi :=
    if args.take ≠ UINT64_MAX then
      let stop := args.drop + args.take
      if stop > g0 then (stdMin (stop - g0) (UInt64.ofNat nTotal)).toNat else 0
    else nTotal
  (lo, if hi < lo then lo else hi)

/-- `process_window`, with the rows it stores. -/
def processWindow (T : Nanotins Block) (args : Args) (st : Converter) (refs : List Block) :
    Converter × List PacketRow :=
  let (interfaces, packets) := classify T st.interfaces refs
  let nTotal := packets.length
  if nTotal = 0 then ({ st with interfaces }, [])
  else
    let g0 := st.globalPid
    let globalPid := g0 + UInt64.ofNat nTotal
    let (lo, hi) := windowSlice args g0 nTotal
    let n := hi - lo
    if n = 0 then ({ st with interfaces, globalPid }, [])
    else
      let rows := ((packets.drop lo).take n).mapIdx fun k packet =>
        packetRow T interfaces (g0 + UInt64.ofNat (lo + k)) packet
      ({ interfaces, globalPid, emitted := st.emitted + UInt64.ofNat n }, rows)

/-- `run`, over the windows' blocks, with the rows of all windows. -/
def run (T : Nanotins Block) (args : Args) : Converter → List (List Block) →
    Converter × List PacketRow
  | st, [] => (st, [])
  | st, refs :: windows =>
    let (st, rows) := processWindow T args st refs
    if args.take ≠ UINT64_MAX ∧ st.globalPid ≥ args.drop + args.take then (st, rows)
    else
      let (st, rest) := run T args st windows
      (st, rows ++ rest)

/-! ## Classification -/

section Classification

variable {T : Nanotins Block}

/-- A block adds packets behind those before it. -/
theorem classifyBlock_packets (T : Nanotins Block) (i : Interfaces) (packets : List (Block × Nat))
    (r : Block) : classifyBlock T i packets r =
      ((classifyBlock T i [] r).1, packets ++ (classifyBlock T i [] r).2) := by
  unfold classifyBlock
  cases T.kind r with
  | idb => cases T.parseIdb r <;> simp
  | shb | epb | pcapRecord | simplePacket | other => simp

theorem classify_from (T : Nanotins Block) (refs : List Block) (i : Interfaces)
    (packets : List (Block × Nat)) :
    refs.foldl (fun c r => classifyBlock T c.1 c.2 r) (i, packets) =
      ((classify T i refs).1, packets ++ (classify T i refs).2) := by
  unfold classify
  induction refs generalizing i packets with
  | nil => simp
  | cons r rest ih =>
    rw [List.foldl_cons, List.foldl_cons, classifyBlock_packets, ih, ih _ (classifyBlock T i [] r).2,
      List.append_assoc]

/-- **Windows classify as their concatenation does.** -/
theorem classify_append (T : Nanotins Block) (i : Interfaces) (xs ys : List Block) :
    classify T i (xs ++ ys) =
      ((classify T (classify T i xs).1 ys).1,
        (classify T i xs).2 ++ (classify T (classify T i xs).1 ys).2) := by
  conv_lhs => unfold classify
  rw [List.foldl_append]
  change ys.foldl _ (classify T i xs) = _
  rw [← classify_from]

/-- A new section starts empty. -/
theorem newSection (sections : List (List IdbView)) (s : Nat) :
    ((sections ++ [[]])[s]?).getD [] = (sections[s]?).getD [] := by
  rw [List.getElem?_append]
  split
  · rfl
  · rename_i hs
    rw [List.getElem?_eq_none (Nat.le_of_not_lt hs)]
    cases hk : s - sections.length <;> simp

theorem Interfaces.table_opened (i : Interfaces) (s : Nat) : i.opened.table s = i.table s := by
  unfold Interfaces.opened
  split
  · exact newSection i.sections s
  · rfl

/-- A section's table only grows. -/
theorem table_grows_classifyBlock (T : Nanotins Block) (i : Interfaces)
    (packets : List (Block × Nat)) (r : Block) (s : Nat) :
    i.table s <+: (classifyBlock T i packets r).1.table s := by
  have hopened : i.table s <+: i.opened.table s := i.table_opened s ▸ List.prefix_rfl
  unfold classifyBlock
  cases T.kind r with
  | shb =>
    have hnew := newSection i.sections s
    exact ⟨[], by rw [List.append_nil]; exact hnew.symm⟩
  | idb =>
    cases T.parseIdb r with
    | none => exact hopened
    | some idb =>
      refine hopened.trans ?_
      unfold Interfaces.table
      dsimp only
      rw [List.getElem?_modify]
      cases i.opened.sections[s]? with
      | none => simp
      | some table =>
        by_cases hs : i.opened.curSection.toNat = s
        · simp [hs]
        · simp [hs]
  | epb | pcapRecord | simplePacket => exact hopened
  | other => exact List.prefix_rfl

theorem table_grows (T : Nanotins Block) (i : Interfaces) (refs : List Block) (s : Nat) :
    i.table s <+: (classify T i refs).1.table s := by
  unfold classify
  generalize ([] : List (Block × Nat)) = packets
  induction refs generalizing i packets with
  | nil => exact List.prefix_rfl
  | cons r rest ih => exact (table_grows_classifyBlock T i packets r s).trans (ih _ _)

/-- The current section, if there is one, exists. -/
def Interfaces.Current (i : Interfaces) : Prop := i.curSection < i.sections.length

theorem current_opened {i : Interfaces} (h : i.Current) :
    i.opened.curSection.toNat < i.opened.sections.length ∧
      i.sections.length ≤ i.opened.sections.length := by
  unfold Interfaces.Current at h
  unfold Interfaces.opened
  split
  · simp
  · exact ⟨by omega, Nat.le_refl _⟩

theorem section_in_bounds_classifyBlock (T : Nanotins Block) {i : Interfaces}
    {packets : List (Block × Nat)} (h : i.Current)
    (hpackets : ∀ packet ∈ packets, packet.2 < i.sections.length) (r : Block) :
    (classifyBlock T i packets r).1.Current ∧
      ∀ packet ∈ (classifyBlock T i packets r).2,
        packet.2 < (classifyBlock T i packets r).1.sections.length := by
  obtain ⟨hcur, hgrow⟩ := current_opened h
  have hkeep : ∀ packet ∈ packets, packet.2 < i.opened.sections.length := fun packet hp =>
    Nat.lt_of_lt_of_le (hpackets packet hp) hgrow
  have hcurrent : i.opened.Current := by
    unfold Interfaces.Current
    omega
  unfold classifyBlock
  cases T.kind r with
  | shb =>
    refine ⟨?_, fun packet hp => ?_⟩
    · unfold Interfaces.Current
      dsimp only
      omega
    · have hlt := hpackets packet hp
      simp only [List.length_append, List.length_singleton]
      omega
  | idb =>
    cases T.parseIdb r with
    | none => exact ⟨hcurrent, hkeep⟩
    | some idb =>
      refine ⟨?_, fun packet hp => ?_⟩
      · unfold Interfaces.Current at hcurrent ⊢
        rwa [List.length_modify]
      · rw [List.length_modify]
        exact hkeep packet hp
  | epb | pcapRecord | simplePacket =>
    refine ⟨hcurrent, fun packet hp => ?_⟩
    rcases List.mem_append.mp hp with hp | hp
    · exact hkeep packet hp
    · rw [List.mem_singleton.mp hp]
      exact hcur
  | other => exact ⟨h, hpackets⟩

/-- **A packet's section is in bounds** when its row looks its interface up. -/
theorem section_in_bounds (T : Nanotins Block) {i : Interfaces} (h : i.Current)
    (refs : List Block) :
    (classify T i refs).1.Current ∧
      ∀ packet ∈ (classify T i refs).2, packet.2 < (classify T i refs).1.sections.length := by
  have general : ∀ (i : Interfaces) (packets : List (Block × Nat)), i.Current →
      (∀ packet ∈ packets, packet.2 < i.sections.length) →
      let c := refs.foldl (fun c r => classifyBlock T c.1 c.2 r) (i, packets)
      c.1.Current ∧ ∀ packet ∈ c.2, packet.2 < c.1.sections.length := by
    induction refs with
    | nil => exact fun i packets h hpackets => ⟨h, hpackets⟩
    | cons r rest ih =>
      intro i packets h hpackets
      obtain ⟨hcur, hall⟩ := section_in_bounds_classifyBlock T h hpackets r
      exact ih _ _ hcur hall
  exact general i [] h nofun

end Classification

end N2P.Capture
