import N2P.CaptureStitching
import N2P.PduTables
import N2P.Streaming

/-!
# The converter

`Converter::run` streams a capture, writes a row group of packets for each window, and at the end the
per-PDU tables and the LLDP table.

* `Env` — what it calls outside: nanotins, soatins, the LLDP engine, the disk.
* `handleWindow` — `process_window` and the end of the loop's body.
* `convert` — the run, with its exit code and the files it leaves.
* `convert_readBack` — what is left on the disk after a run that returned 0.
-/

namespace N2P.Capture

open Columnar Resumable Streaming

/-! ## What is called -/

/-- The command line. -/
structure Options extends Args where
  compress : Bool := true
  decodeL2L3 : Bool := false
  lldp : Bool := false
  windowBytes : Nat := 512 * 1024 * 1024

/-- `soatins::arrow_schema` and `soatins::to_arrow` on a described row type. -/
structure RowGlue (Row : Type) where
  arrowSchema : Except String ArrowSchema
  toArrow : List Row → Except String Batch

/-- Everything outside the converter. -/
structure Env (σ Block δ Λ Row Kind : Type) where
  external : External
  disk : Disk
  nanotins : Nanotins Block
  scanWindow : WindowScan σ UInt8 Block String
  scanState : σ
  packets : RowGlue PacketRow
  /-- The captured bytes of a packet, when they lie in the window. -/
  payload : Block → Option Bytes
  /-- `dag_decode_packet` on the tables. -/
  dagDecodePacket : UInt64 → Bytes → δ → δ
  dag : δ
  dagTable : δ → PduNode → DagPduTable Kind
  columns : ColumnGlue Kind
  nanoarrow : PduNode → NanoarrowCalls
  /-- `load_rules` on a new engine. -/
  loadRules : Except (List String) Λ
  lldpRun : Bytes → UInt64 → Λ → Λ
  lldpTable : Λ → List Row
  lldp : RowGlue Row

/-- `kLinkTypeEthernet`. -/
def kLinkTypeEthernet : UInt16 := 1

/-! ## Rows of packets -/

/-- The fields of a described `PacketRow`. -/
def packetFields : Members :=
  .cons "packet_id" false (.leaf (.int false 8))
    (.cons "interface_id" false (.leaf (.int false 4))
      (.cons "ts_raw" false (.leaf (.int false 8))
        (.cons "caplen" false (.leaf (.int false 4))
          (.cons "origlen" false (.leaf (.int false 4))
            (.cons "link_type" false (.leaf (.int false 2))
              (.cons "ts_resol" false (.leaf (.int false 1))
                (.cons "epb_flags" false (.leaf (.int false 4)) .nil)))))))

def PacketRow.cells (row : PacketRow) : Cells :=
  .cons (.scalar (.int row.packetId.toNat))
    (.cons (.scalar (.int row.interfaceId.toNat))
      (.cons (.scalar (.int row.tsRaw.toNat))
        (.cons (.scalar (.int row.caplen.toNat))
          (.cons (.scalar (.int row.origlen.toNat))
            (.cons (.scalar (.int row.linkType.toNat))
              (.cons (.scalar (.int row.tsResol.toNat))
                (.cons (.scalar (.int row.epbFlags.toNat)) .nil)))))))

/-- `--count` ends the loop in this state. -/
def CountReached (args : Args) (st : Converter) : Prop :=
  args.take ≠ UINT64_MAX ∧ st.globalPid ≥ args.drop + args.take

/-- The rows of each window that keeps a packet, up to the window with which `--count` ends the
    loop. -/
def windowGroups {Block : Type} (T : Nanotins Block) (args : Args) :
    Converter → List (List Block) → List (List PacketRow)
  | _, [] => []
  | st, refs :: windows =>
    let (st, rows) := processWindow T args st refs
    let group := if rows.isEmpty then [] else [rows]
    if args.take ≠ UINT64_MAX ∧ st.globalPid ≥ args.drop + args.take then group
    else group ++ windowGroups T args st windows

/-- The file of the packets: one table for each group of rows, in order. -/
def PacketsHeldBy (R : FileDecoders) (groups : List (List PacketRow)) (file : Option ByteSink) :
    Prop :=
  ∃ (out : ByteSink) (tables : List (List TableColumn)), file = some out ∧
    groups.mapM (fun rows => tableOf packetFields (rows.map PacketRow.cells)) = some tables ∧
    readFile R out.file = some tables

/-- What soatins is documented to build from a described type: a schema of its fields, and batches of
    the rows. -/
structure RowGlue.Describes {Row : Type} (g : RowGlue Row) (fields : Members) (cells : Row → Cells) :
    Prop where
  schema : ∀ {sc}, g.arrowSchema = .ok sc → membersOf sc.children = some fields
  batch : ∀ {rows b}, g.toArrow rows = .ok b → Denotes fields (rows.map cells) b.array

/-- What is relied on outside the converter. -/
structure Env.Documented {σ Block δ Λ Row Kind : Type} (E : Env σ Block δ Λ Row Kind)
    (type : Kind → Nat → ArrowType) : Prop where
  scan : Lawful E.scanWindow
  packets : E.packets.Describes packetFields PacketRow.cells
  columns : E.columns.Declares type
  sized : ∀ dag node, (E.dagTable dag node).Sized type

section Run

variable {σ Block δ Λ Row Kind : Type} (E : Env σ Block δ Λ Row Kind) (opts : Options)

/-! ## One window -/

/-- The fields that `process_window` writes; the engine is there with `--lldp`. -/
structure RunState (δ Λ : Type) where
  converter : Converter := {}
  writer : Writer
  dag : δ
  lldp : Option Λ

/-- The packets of a window that are kept. -/
def keptPackets (T : Nanotins Block) (args : Args) (st : Converter) (refs : List Block) :
    List (Block × Nat) :=
  let packets := (classify T st.interfaces refs).2
  let (lo, hi) := windowSlice args st.globalPid packets.length
  (packets.drop lo).take (hi - lo)

/-- The decoders on one packet and its row. -/
def scatter (engines : δ × Option Λ) (packet : (Block × Nat) × PacketRow) : δ × Option Λ :=
  if packet.2.linkType = kLinkTypeEthernet then
    match E.payload packet.1.1 with
    | none => engines
    | some bytes =>
      (if opts.decodeL2L3 then E.dagDecodePacket packet.2.packetId bytes engines.1 else engines.1,
        engines.2.map (E.lldpRun bytes packet.2.packetId))
  else engines

/-- The end of the loop's body: `--count` ends the loop. -/
def afterWindow (st : RunState δ Λ) : Handled (Option (RunState δ Λ)) :=
  if opts.take ≠ UINT64_MAX ∧ st.converter.globalPid ≥ opts.drop + opts.take then .stop (some st)
  else .next (some st)

/-- `process_window` on the packets writer; `none` is undefined behaviour. -/
def handleWindow (schema : ArrowSchema) :
    Option (RunState δ Λ) → List Block → Handled (Option (RunState δ Λ))
  | none, _ => .fail none
  | some st, refs =>
    let (converter, rows) := processWindow E.nanotins opts.toArgs st.converter refs
    if rows.isEmpty then afterWindow opts { st with converter }
    else
      let kept := keptPackets E.nanotins opts.toArgs st.converter refs
      let (dag, lldp) := (kept.zip rows).foldl (scatter E opts) (st.dag, st.lldp)
      match E.packets.toArrow rows with
      | .error _ => .fail (some { st with converter, dag, lldp })
      | .ok batch =>
        match n2pWriterWriteBatch E.external st.writer (some schema) (some batch.array) with
        | none => .fail none
        | some (status, writer) =>
          if status ≠ .ok then .fail (some { converter, writer, dag, lldp })
          else afterWindow opts { converter, writer, dag, lldp }

/-! ## The run -/

/-- The exit code and the files that were closed. -/
structure ExitState where
  code : Nat
  files : Files := []

/-- `write_lldp_table`: the exit code, and the file.  What the close returns is not looked at. -/
def writeLldpTable (stem : String) (engine : Λ) : Option (Nat × Files) :=
  let rows := E.lldpTable engine
  let path := stem ++ "_lldp.parquet"
  if rows.isEmpty then some (0, [])
  else
    match E.lldp.arrowSchema with
    | .error _ => some (1, [])
    | .ok schema =>
      match E.lldp.toArrow rows with
      | .error _ => some (1, [])
      | .ok batch =>
        let (opened, w) := n2pWriterOpen (E.disk.stream path) path
        if opened ≠ .ok then some (1, [])
        else
          let (_, w) := n2pWriterSetCodec w (codecArg opts.compress)
          match n2pWriterWriteBatch E.external w (some schema) (some batch.array) with
          | none => none
          | some (status, w) =>
            some (if status ≠ .ok then 1 else 0, [(path, (n2pWriterClose E.external w).2)])

/-- The end of `run`: the packets file is closed, and the tables are written. -/
def finish (stem : String) (st : RunState δ Λ) : Option ExitState :=
  let (closed, out) := n2pWriterClose E.external st.writer
  let packets : Files := [(stem ++ "_packets.parquet", out)]
  if closed ≠ .ok then some { code := 1, files := packets }
  else
    let tables :=
      if opts.decodeL2L3 ∧ st.converter.emitted > 0 then
        writePduTables E.columns E.nanoarrow (E.dagTable st.dag) E.external E.disk stem opts.compress
      else some (0, [])
    match tables with
    | none => none
    | some (code, tables) =>
      if code ≠ 0 then some { code, files := packets ++ tables }
      else
        match st.lldp with
        | none => some { code := 0, files := packets ++ tables }
        | some engine =>
          (writeLldpTable E opts stem engine).map fun (code, lldp) =>
            { code, files := packets ++ tables ++ lldp }

/-- `run`, on the stream of its input; `none` is undefined behaviour, or not enough fuel. -/
def convert (fuel : Nat) (input : Option FileStream) (stem : String) : Option ExitState :=
  let path := stem ++ "_packets.parquet"
  match input with
  | none => some { code := 1 }
  | some input =>
    match E.packets.arrowSchema with
    | .error _ => some { code := 1 }
    | .ok schema =>
      let (opened, w) := n2pWriterOpen (E.disk.stream path) path
      if opened ≠ .ok then some { code := 1 }
      else
        let (_, writer) := n2pWriterSetCodec w (codecArg opts.compress)
        let closed (w : Writer) : ExitState :=
          { code := 1, files := [(path, (n2pWriterClose E.external w).2)] }
        match if opts.lldp then E.loadRules.map some else .ok none with
        | .error _ => some (closed writer)
        | .ok lldp =>
          match stream FileSource E.scanWindow (handleWindow E opts schema) opts.windowBytes fuel
              E.scanState input (some { writer, dag := E.dag, lldp }) with
          | none => none
          | some (.scanFailed _ st) => st.map fun st => closed st.writer
          | some (.failed st) => st.map fun st => closed st.writer
          | some (.done st) => st.bind (finish E opts stem)

/-! ## What a run stores -/

/-- The decoders on the kept packets of all windows. -/
def decodeRun : Converter → δ × Option Λ → List (List Block) → δ × Option Λ
  | _, engines, [] => engines
  | st, engines, refs :: windows =>
    let (st', rows) := processWindow E.nanotins opts.toArgs st refs
    let kept := keptPackets E.nanotins opts.toArgs st refs
    let engines := (kept.zip rows).foldl (scatter E opts) engines
    if opts.take ≠ UINT64_MAX ∧ st'.globalPid ≥ opts.drop + opts.take then engines
    else decodeRun st' engines windows

/-- A row group for each window that keeps a packet, and the run of `run` and of the decoders. -/
structure Stored (schema : ArrowSchema) (st st' : RunState δ Λ) (windows : List (List Block))
    (kept : List (List PacketRow)) (ops : List Op) : Prop where
  converter : st'.converter = (run E.nanotins opts.toArgs st.converter windows).1
  groups : kept = windowGroups E.nanotins opts.toArgs st.converter windows
  engines : (st'.dag, st'.lldp) = decodeRun E opts st.converter (st.dag, st.lldp) windows
  writes : N2P.run E.external st.writer ops = some (ops.map fun _ => .ok, st'.writer)
  batches : List.Forall₂ (fun op rows => ∃ batch, E.packets.toArrow rows = .ok batch ∧
    op = .writeBatch (some schema) (some batch)) ops kept

/-- How the handler leaves the windows when it does not fail. -/
def Reached (st : RunState δ Λ) (after : Handled (Option (RunState δ Λ))) : Prop :=
  after = .next (some st) ∨ after = .stop (some st)

variable {E opts}

theorem afterWindow_cases {st : RunState δ Λ} :
    opts.take ≠ UINT64_MAX ∧ st.converter.globalPid ≥ opts.drop + opts.take ∧
        afterWindow opts st = .stop (some st) ∨
      ¬(opts.take ≠ UINT64_MAX ∧ st.converter.globalPid ≥ opts.drop + opts.take) ∧
        afterWindow opts st = .next (some st) := by
  unfold afterWindow
  split
  · rename_i h
    exact .inl ⟨h.1, h.2, rfl⟩
  · rename_i h
    exact .inr ⟨h, rfl⟩

/-- What one window comes to, when it does not fail. -/
inductive WindowDone (E : Env σ Block δ Λ Row Kind) (opts : Options) (schema : ArrowSchema)
    (st : RunState δ Λ) (refs : List Block) : RunState δ Λ → Prop where
  | nothing (h : (processWindow E.nanotins opts.toArgs st.converter refs).2 = []) :
      WindowDone E opts schema st refs
        { st with converter := (processWindow E.nanotins opts.toArgs st.converter refs).1 }
  | wrote (batch : Batch) (writer : Writer) (engines : δ × Option Λ)
      (hrows : (processWindow E.nanotins opts.toArgs st.converter refs).2 ≠ [])
      (hengines : engines = ((keptPackets E.nanotins opts.toArgs st.converter refs).zip
        (processWindow E.nanotins opts.toArgs st.converter refs).2).foldl (scatter E opts)
          (st.dag, st.lldp))
      (hbatch : E.packets.toArrow (processWindow E.nanotins opts.toArgs st.converter refs).2 =
        .ok batch)
      (hwrite : n2pWriterWriteBatch E.external st.writer (some schema) (some batch.array) =
        some (.ok, writer)) :
      WindowDone E opts schema st refs
        { converter := (processWindow E.nanotins opts.toArgs st.converter refs).1, writer,
          dag := engines.1, lldp := engines.2 }

/-- **A window**: nothing is kept, or a row group is written; then the loop's body ends. -/
theorem handleWindow_cases {schema : ArrowSchema} {st : RunState δ Λ} {refs : List Block} :
    (∃ st1, WindowDone E opts schema st refs st1 ∧
      handleWindow E opts schema (some st) refs = afterWindow opts st1) ∨
    ∃ ended, handleWindow E opts schema (some st) refs = .fail ended := by
  unfold handleWindow
  dsimp only
  split
  · rename_i hempty
    exact .inl ⟨_, .nothing (List.isEmpty_iff.mp hempty), rfl⟩
  · rename_i hrows
    split
    · exact .inr ⟨_, rfl⟩
    · rename_i batch hbatch
      split
      · exact .inr ⟨_, rfl⟩
      · rename_i status writer hwrite
        split
        · exact .inr ⟨_, rfl⟩
        · rename_i hstatus
          have hstatus : status = .ok := not_not.mp hstatus
          subst hstatus
          exact .inl ⟨_, .wrote batch writer _ (fun h => hrows (List.isEmpty_iff.mpr h)) rfl hbatch
            hwrite, rfl⟩

/-- The row group of a window, if there is one. -/
theorem WindowDone.stored {schema : ArrowSchema} {st st1 : RunState δ Λ} {refs : List Block}
    (h : WindowDone E opts schema st refs st1) :
    st1.converter = (processWindow E.nanotins opts.toArgs st.converter refs).1 ∧
      (st1.dag, st1.lldp) = ((keptPackets E.nanotins opts.toArgs st.converter refs).zip
        (processWindow E.nanotins opts.toArgs st.converter refs).2).foldl (scatter E opts)
          (st.dag, st.lldp) ∧
      ∃ (kept : List (List PacketRow)) (ops : List Op),
        kept = (if (processWindow E.nanotins opts.toArgs st.converter refs).2.isEmpty then []
          else [(processWindow E.nanotins opts.toArgs st.converter refs).2]) ∧
        N2P.run E.external st.writer ops = some (ops.map fun _ => .ok, st1.writer) ∧
        List.Forall₂ (fun op rows => ∃ batch, E.packets.toArrow rows = .ok batch ∧
          op = .writeBatch (some schema) (some batch)) ops kept := by
  cases h with
  | nothing hrows =>
    refine ⟨rfl, ?_, [], [], by rw [hrows]; rfl, rfl, .nil⟩
    rw [hrows, List.zip_nil_right]
    rfl
  | wrote batch writer engines hrows hengines hbatch hwrite =>
    refine ⟨rfl, hengines, [_], [.writeBatch (some schema) (some batch)], ?_, ?_,
      .cons ⟨batch, hbatch, rfl⟩ .nil⟩
    · rw [if_neg (by simpa using hrows)]
    · exact run_cons.mpr ⟨.ok, writer, [], hwrite, rfl, rfl⟩

theorem run_window (T : Nanotins Block) (args : Args) (st : Converter) (refs : List Block)
    (windows : List (List Block)) :
    run T args st (refs :: windows) =
      if args.take ≠ UINT64_MAX ∧
          (processWindow T args st refs).1.globalPid ≥ args.drop + args.take then
        processWindow T args st refs
      else ((run T args (processWindow T args st refs).1 windows).1,
        (processWindow T args st refs).2 ++
          (run T args (processWindow T args st refs).1 windows).2) :=
  rfl

theorem windowGroups_window (T : Nanotins Block) (args : Args) (st : Converter) (refs : List Block)
    (windows : List (List Block)) :
    windowGroups T args st (refs :: windows) =
      if args.take ≠ UINT64_MAX ∧
          (processWindow T args st refs).1.globalPid ≥ args.drop + args.take then
        if (processWindow T args st refs).2.isEmpty then [] else [(processWindow T args st refs).2]
      else (if (processWindow T args st refs).2.isEmpty then []
          else [(processWindow T args st refs).2]) ++
        windowGroups T args (processWindow T args st refs).1 windows :=
  rfl

/-- The groups make up the rows of the run. -/
theorem windowGroups_flatten (T : Nanotins Block) (args : Args) (st : Converter)
    (windows : List (List Block)) :
    (windowGroups T args st windows).flatten = (run T args st windows).2 := by
  have hgroup : ∀ rows : List PacketRow, (if rows.isEmpty then [] else [rows]).flatten = rows := by
    intro rows
    cases rows <;> simp
  induction windows generalizing st with
  | nil => rfl
  | cons refs windows ih =>
    rw [windowGroups_window, run_window]
    split
    · exact hgroup _
    · rw [List.flatten_append, hgroup, ih]

theorem decodeRun_window (st : Converter) (engines : δ × Option Λ) (refs : List Block)
    (windows : List (List Block)) :
    decodeRun E opts st engines (refs :: windows) =
      if opts.take ≠ UINT64_MAX ∧ (processWindow E.nanotins opts.toArgs st refs).1.globalPid ≥
          opts.drop + opts.take then
        ((keptPackets E.nanotins opts.toArgs st refs).zip
          (processWindow E.nanotins opts.toArgs st refs).2).foldl (scatter E opts) engines
      else decodeRun E opts (processWindow E.nanotins opts.toArgs st refs).1
        (((keptPackets E.nanotins opts.toArgs st refs).zip
          (processWindow E.nanotins opts.toArgs st refs).2).foldl (scatter E opts) engines) windows :=
  rfl

/-- **What the windows stored**, when none failed. -/
theorem stored_windows {schema : ArrowSchema} {st st' : RunState δ Λ} {windows : List (List Block)}
    (h : Reached st' (handleAll (handleWindow E opts schema) (some st) windows)) :
    ∃ kept ops, Stored E opts schema st st' windows kept ops := by
  induction windows generalizing st with
  | nil =>
    obtain h | h := h
    · cases h
      exact ⟨[], [], rfl, rfl, rfl, rfl, .nil⟩
    · cases h
  | cons refs windows ih =>
    rw [handleAll] at h
    rcases @handleWindow_cases _ _ _ _ _ _ E opts schema st refs with
      ⟨st1, hdone, heq⟩ | ⟨ended, heq⟩
    · obtain ⟨hconverter, hengines, kept, ops, hkept, hwrites, hbatches⟩ := hdone.stored
      rw [heq] at h
      rcases @afterWindow_cases _ _ opts st1 with ⟨htake, hge, hstop⟩ | ⟨hgo, hnext⟩
      · rw [hstop] at h
        obtain h | h := h
        · cases h
        · cases h
          have hend : opts.take ≠ UINT64_MAX ∧
              (processWindow E.nanotins opts.toArgs st.converter refs).1.globalPid ≥
                opts.drop + opts.take := ⟨htake, hconverter ▸ hge⟩
          refine ⟨kept, ops, ?_, ?_, ?_, hwrites, hbatches⟩
          · rw [hconverter, run_window, if_pos hend]
          · rw [hkept, windowGroups_window, if_pos hend]
          · rw [hengines, decodeRun_window, if_pos hend]
      · rw [hnext] at h
        have hgo : ¬(opts.take ≠ UINT64_MAX ∧
            (processWindow E.nanotins opts.toArgs st.converter refs).1.globalPid ≥
              opts.drop + opts.take) := hconverter ▸ hgo
        obtain ⟨kept', ops', hstored⟩ := ih h
        refine ⟨kept ++ kept', ops ++ ops', ?_, ?_, ?_, ?_, ?_⟩
        · rw [hstored.converter, hconverter, run_window, if_neg hgo]
        · rw [hkept, hstored.groups, hconverter, windowGroups_window, if_neg hgo]
        · rw [hstored.engines, hconverter, hengines, decodeRun_window, if_neg hgo]
        · rw [List.map_append]
          exact run_append hwrites hstored.writes
        · exact List.rel_append hbatches hstored.batches
    · rw [heq] at h
      obtain h | h := h <;> cases h

/-! ## The packets file -/

/-- The batches of a run in which every batch was accepted. -/
theorem accepted_stored {schema : ArrowSchema} {type : Kind → Nat → ArrowType}
    (hE : E.Documented type) {ops : List Op} {kept : List (List PacketRow)}
    (h : List.Forall₂ (fun op rows => ∃ batch, E.packets.toArrow rows = .ok batch ∧
      op = .writeBatch (some schema) (some batch)) ops kept) :
    List.Forall₂ (fun batch rows => Denotes packetFields rows batch)
      (accepted ops (ops.map fun _ => .ok)) (kept.map (List.map PacketRow.cells)) := by
  induction h with
  | nil => exact .nil
  | cons hop _ ih =>
    obtain ⟨batch, hbatch, rfl⟩ := hop
    exact .cons (hE.packets.batch hbatch) ih

/-- Nothing but batches under the one schema. -/
theorem stored_ops {schema : ArrowSchema} {ops : List Op} {kept : List (List PacketRow)}
    (h : List.Forall₂ (fun op rows => ∃ batch, E.packets.toArrow rows = .ok batch ∧
      op = .writeBatch (some schema) (some batch)) ops kept) :
    (∀ codec, .setCodec codec ∉ ops) ∧ ∀ call ∈ handedOver ops, call.1 = some schema := by
  induction h with
  | nil => exact ⟨fun _ => List.not_mem_nil, fun _ hcall => absurd hcall List.not_mem_nil⟩
  | cons hop _ ih =>
    obtain ⟨batch, _, rfl⟩ := hop
    refine ⟨fun codec hmem => ?_, fun call hcall => ?_⟩
    · rcases List.mem_cons.mp hmem with heq | hmem
      · cases heq
      · exact ih.1 codec hmem
    · rcases List.mem_cons.mp hcall with rfl | hcall
      · rfl
      · exact ih.2 call hcall

/-- Every row of packets makes a row of a table. -/
theorem tableOf_packets (kept : List (List PacketRow)) :
    ∃ tables, (kept.map (List.map PacketRow.cells)).mapM (tableOf packetFields) = some tables := by
  induction kept with
  | nil => exact ⟨[], rfl⟩
  | cons rows kept ih =>
    obtain ⟨tables, htables⟩ := ih
    have hholds : ∀ row ∈ rows.map PacketRow.cells, packetFields.Holds row := by
      intro row hrow
      obtain ⟨packet, _, rfl⟩ := List.mem_map.mp hrow
      simp [packetFields, PacketRow.cells, Members.Holds, Shape.Holds]
    obtain ⟨table, htable⟩ := tableOf_of_holds hholds
    refine ⟨table :: tables, ?_⟩
    rw [List.map_cons, List.mapM_cons, htable, htables]
    rfl

theorem packets_shallow : Shallow packetFields := by
  unfold Shallow
  decide

/-- **The packets file** holds a row group for each window that keeps a packet. -/
theorem packets_readBack {R : FileDecoders} (hR : R.Inverts E.external)
    (hbits : BitmapLevels E.external) {type : Kind → Nat → ArrowType} (hE : E.Documented type)
    {schema : ArrowSchema} (hschema : E.packets.arrowSchema = .ok schema) {path : String}
    (hopen : (n2pWriterOpen (E.disk.stream path) path).1 = .ok) {dag : δ} {lldp : Option Λ}
    {st' : RunState δ Λ} {windows : List (List Block)} {kept : List (List PacketRow)}
    {ops : List Op}
    (h : Stored E opts schema
      { writer := (n2pWriterSetCodec (n2pWriterOpen (E.disk.stream path) path).2
          (codecArg opts.compress)).2, dag, lldp } st' windows kept ops)
    (hclose : (n2pWriterClose E.external st'.writer).1 = .ok) :
    ∃ tables, kept.mapM (fun rows => tableOf packetFields (rows.map PacketRow.cells)) =
        some tables ∧
      readFile R (n2pWriterClose E.external st'.writer).2.file = some tables := by
  obtain ⟨tables, htables⟩ := tableOf_packets kept
  refine ⟨tables, by rw [← htables, List.mapM_map]; rfl, ?_⟩
  have hrun : N2P.run E.external (n2pWriterOpen (E.disk.stream path) path).2
      (.setCodec (codecArg opts.compress) :: ops) =
      some ((n2pWriterSetCodec (n2pWriterOpen (E.disk.stream path) path).2
        (codecArg opts.compress)).1 :: ops.map fun _ => .ok, st'.writer) :=
    run_cons.mpr ⟨_, _, _, rfl, h.writes, rfl⟩
  unfold Disk.stream at hrun
  rw [opens_of_open hopen] at hrun
  obtain ⟨hset, hhanded⟩ := stored_ops h.batches
  have htyped : Typed packetFields (.setCodec (codecArg opts.compress) :: ops) := by
    intro call hcall sc hsc
    rw [hhanded call hcall] at hsc
    cases hsc
    exact hE.packets.schema hschema
  exact readFile_typed hR hbits hrun hclose (oneCodec_set hset hrun) packets_shallow htyped
    (accepted_stored hE h.batches) htables

/-! ## The exit code -/

/-- A run that returned 0 went through its loop to its end. -/
theorem convert_done {fuel : Nat} {input : FileStream} {stem : String} {files : Files}
    (h : convert E opts fuel (some input) stem = some { code := 0, files }) :
    ∃ schema lldp st, E.packets.arrowSchema = .ok schema ∧
      (n2pWriterOpen (E.disk.stream (stem ++ "_packets.parquet"))
        (stem ++ "_packets.parquet")).1 = .ok ∧
      stream FileSource E.scanWindow (handleWindow E opts schema) opts.windowBytes fuel E.scanState
        input (some
          { writer := (n2pWriterSetCodec (n2pWriterOpen (E.disk.stream (stem ++ "_packets.parquet"))
              (stem ++ "_packets.parquet")).2 (codecArg opts.compress)).2,
            dag := E.dag, lldp }) = some (.done (some st)) ∧
      finish E opts stem st = some { code := 0, files } := by
  unfold convert at h
  dsimp only at h
  split at h
  · cases h
  · rename_i schema hschema
    split at h
    · cases h
    · rename_i hopen
      split at h
      · cases h
      · rename_i lldp _
        split at h
        · cases h
        · rename_i st _
          obtain ⟨st, _, hst⟩ := Option.map_eq_some_iff.mp h
          cases hst
        · rename_i st _
          obtain ⟨st, _, hst⟩ := Option.map_eq_some_iff.mp h
          cases hst
        · rename_i st hstream
          obtain ⟨st, rfl, hst⟩ := Option.bind_eq_some_iff.mp h
          exact ⟨schema, lldp, st, hschema, not_not.mp hopen, hstream, hst⟩

/-- What a run that returned 0 left. -/
structure Finished (E : Env σ Block δ Λ Row Kind) (opts : Options) (stem : String)
    (st : RunState δ Λ) (files : Files) : Prop where
  closed : (n2pWriterClose E.external st.writer).1 = .ok
  packets : leftAt (stem ++ "_packets.parquet") files = some (n2pWriterClose E.external st.writer).2
  tables : opts.decodeL2L3 = true → st.converter.emitted > 0 → ∃ tables,
    writePduTables E.columns E.nanoarrow (E.dagTable st.dag) E.external E.disk stem opts.compress =
      some (0, tables) ∧
    ∀ node : PduNode, leftAt (stem ++ node.suffix) files = leftAt (stem ++ node.suffix) tables

theorem writeLldpTable_paths {stem : String} {engine : Λ} {code : Nat} {files : Files}
    (h : writeLldpTable E opts stem engine = some (code, files)) :
    ∀ f ∈ files, f.1 = stem ++ "_lldp.parquet" := by
  have hnone : ∀ {code' : Nat}, some (code', ([] : Files)) = some (code, files) →
      ∀ f ∈ files, f.1 = stem ++ "_lldp.parquet" := by
    intro code' heq
    cases heq
    exact fun _ hf => absurd hf List.not_mem_nil
  unfold writeLldpTable at h
  dsimp only at h
  split at h
  · exact hnone h
  split at h
  · exact hnone h
  split at h
  · exact hnone h
  split at h
  · exact hnone h
  split at h
  · cases h
  · cases h
    intro f hf
    rw [List.mem_singleton.mp hf]

/-- The packets' path is no table's. -/
theorem leftAt_packets {stem : String} {out : ByteSink} {tables lldp : Files}
    (htables : ∀ f ∈ tables, ∃ node : PduNode, f.1 = stem ++ node.suffix)
    (hlldp : ∀ f ∈ lldp, f.1 = stem ++ "_lldp.parquet") :
    leftAt (stem ++ "_packets.parquet")
        ([(stem ++ "_packets.parquet", out)] ++ tables ++ lldp) = some out ∧
      ∀ node : PduNode, leftAt (stem ++ node.suffix)
          ([(stem ++ "_packets.parquet", out)] ++ tables ++ lldp) =
        leftAt (stem ++ node.suffix) tables := by
  have hne : ∀ node : PduNode, node.suffix ≠ "_packets.parquet" ∧ node.suffix ≠ "_lldp.parquet" := by
    intro node
    cases node <;> decide
  have hcut : ∀ {a b : String}, stem ++ a = stem ++ b → a = b := fun h => by simpa using h
  constructor
  · have hnone : leftAt (stem ++ "_packets.parquet") tables = none := by
      refine leftAt_none fun f hf hpath => ?_
      obtain ⟨node, hnode⟩ := htables f hf
      exact (hne node).1 (hcut (hnode.symm.trans hpath))
    have hnone' : leftAt (stem ++ "_packets.parquet") lldp = none := by
      refine leftAt_none fun f hf hpath => ?_
      have hsuffix : "_lldp.parquet" = "_packets.parquet" := hcut ((hlldp f hf).symm.trans hpath)
      exact absurd hsuffix (by decide)
    rw [leftAt_append, leftAt_append, hnone, hnone']
    simp [leftAt]
  · intro node
    have hnone : leftAt (stem ++ node.suffix) lldp = none := by
      refine leftAt_none fun f hf hpath => ?_
      exact (hne node).2 (hcut (hpath.symm.trans (hlldp f hf)))
    have hnone' : leftAt (stem ++ node.suffix) [(stem ++ "_packets.parquet", out)] = none := by
      refine leftAt_none fun f hf hpath => ?_
      rw [List.mem_singleton.mp hf] at hpath
      exact (hne node).1 (hcut hpath.symm)
    rw [leftAt_append, leftAt_append, hnone, hnone', Option.none_or, Option.or_none]

theorem finish_ok {stem : String} {st : RunState δ Λ} {files : Files}
    (h : finish E opts stem st = some { code := 0, files }) : Finished E opts stem st files := by
  unfold finish at h
  dsimp only at h
  split at h
  · cases h
  rename_i hclosed
  split at h
  · cases h
  rename_i code tables htables
  -- the tables, if they were asked for, and their paths
  obtain ⟨hpaths, hwritten⟩ : (∀ f ∈ tables, ∃ node : PduNode, f.1 = stem ++ node.suffix) ∧
      (opts.decodeL2L3 = true → st.converter.emitted > 0 → writePduTables E.columns E.nanoarrow
        (E.dagTable st.dag) E.external E.disk stem opts.compress = some (code, tables)) := by
    split at htables
    · exact ⟨writePduTables_paths htables, fun _ _ => htables⟩
    · rename_i hno
      cases htables
      exact ⟨fun _ hf => absurd hf List.not_mem_nil, fun hdecode hsome => absurd ⟨hdecode, hsome⟩ hno⟩
  split at h
  · rename_i hcode
    cases h
    exact absurd rfl hcode
  · rename_i hcode
    obtain rfl : code = 0 := not_not.mp hcode
    have key : ∀ lldp : Files, (∀ f ∈ lldp, f.1 = stem ++ "_lldp.parquet") →
        files = [(stem ++ "_packets.parquet", (n2pWriterClose E.external st.writer).2)] ++ tables ++
          lldp → Finished E opts stem st files := by
      intro lldp hlldp hfiles
      obtain ⟨hpackets, htables⟩ := @leftAt_packets stem (n2pWriterClose E.external st.writer).2 _ _
        hpaths hlldp
      rw [← hfiles] at hpackets htables
      exact ⟨not_not.mp hclosed, hpackets,
        fun hdecode hsome => ⟨tables, hwritten hdecode hsome, htables⟩⟩
    split at h
    · cases h
      exact key [] (fun _ hf => absurd hf List.not_mem_nil) (by rw [List.append_nil])
    · rename_i engine _
      obtain ⟨⟨code, lldp⟩, hlldp, heq⟩ := Option.map_eq_some_iff.mp h
      cases heq
      exact key lldp (writeLldpTable_paths hlldp) rfl

/-- Only `--count` ends the loop early. -/
theorem stop_count {schema : ArrowSchema} {st : RunState δ Λ} {windows : List (List Block)}
    {ended : Option (RunState δ Λ)}
    (h : handleAll (handleWindow E opts schema) (some st) windows = .stop ended) :
    CountReached opts.toArgs (run E.nanotins opts.toArgs st.converter windows).1 := by
  induction windows generalizing st with
  | nil => cases h
  | cons refs windows ih =>
    rw [handleAll] at h
    rcases @handleWindow_cases _ _ _ _ _ _ E opts schema st refs with ⟨st1, hdone, heq⟩ | ⟨_, heq⟩
    · have hconverter := hdone.stored.1
      rw [heq] at h
      rw [run_window, ← hconverter]
      rcases @afterWindow_cases _ _ opts st1 with ⟨htake, hge, _⟩ | ⟨hgo, hnext⟩
      · rw [if_pos ⟨htake, hge⟩, ← hconverter]
        exact ⟨htake, hge⟩
      · rw [hnext] at h
        rw [if_neg hgo]
        exact ih h
    · rw [heq] at h
      cases h

/-- The tables do not depend on the LLDP engine. -/
theorem decodeRun_fst (st : Converter) (dag : δ) (lldp lldp' : Option Λ)
    (windows : List (List Block)) :
    (decodeRun E opts st (dag, lldp) windows).1 = (decodeRun E opts st (dag, lldp') windows).1 := by
  have hfold : ∀ (packets : List ((Block × Nat) × PacketRow)) (engines engines' : δ × Option Λ),
      engines.1 = engines'.1 →
      (packets.foldl (scatter E opts) engines).1 = (packets.foldl (scatter E opts) engines').1 := by
    intro packets
    induction packets with
    | nil => exact fun _ _ h => h
    | cons packet packets ih =>
      intro engines engines' h
      refine ih _ _ ?_
      unfold scatter
      split
      · split
        · exact h
        · dsimp only
          rw [h]
      · exact h
  have hrun : ∀ (windows : List (List Block)) (st : Converter) (engines engines' : δ × Option Λ),
      engines.1 = engines'.1 →
      (decodeRun E opts st engines windows).1 = (decodeRun E opts st engines' windows).1 := by
    intro windows
    induction windows with
    | nil => exact fun _ _ _ h => h
    | cons refs windows ih =>
      intro st engines engines' h
      rw [decodeRun_window, decodeRun_window]
      split
      · exact hfold _ _ _ h
      · exact ih _ _ _ (hfold _ _ _ h)
  exact hrun windows st _ _ rfl

/-- The state a run starts its loop in. -/
def RunState.start (E : Env σ Block δ Λ Row Kind) (opts : Options) (stem : String)
    (lldp : Option Λ) : RunState δ Λ :=
  { writer := (n2pWriterSetCodec (n2pWriterOpen (E.disk.stream (stem ++ "_packets.parquet"))
      (stem ++ "_packets.parquet")).2 (codecArg opts.compress)).2, dag := E.dag, lldp }

/-- A run that returned 0: the windows of its loop, what they stored and how it ended. -/
structure Converted (E : Env σ Block δ Λ Row Kind) (opts : Options) (R : FileDecoders)
    (input : FileStream) (stem : String) (files : Files) (windows : List (List Block)) : Prop where
  cut : Cut E.scanWindow E.scanState (FileSource.content input) windows
  scanned : (∃ whole, E.scanWindow E.scanState (FileSource.content input) true = .ok whole) ∨
    CountReached opts.toArgs (run E.nanotins opts.toArgs {} windows).1
  packets : PacketsHeldBy R (windowGroups E.nanotins opts.toArgs {} windows)
    (leftAt (stem ++ "_packets.parquet") files)
  finished : ∃ st lldp, Finished E opts stem st files ∧
    st.converter = (run E.nanotins opts.toArgs {} windows).1 ∧
    (st.dag, st.lldp) = decodeRun E opts {} (E.dag, lldp) windows

theorem converted {R : FileDecoders} (hR : R.Inverts E.external)
    (hbits : BitmapLevels E.external) {type : Kind → Nat → ArrowType} (hE : E.Documented type)
    {fuel : Nat} {input : FileStream} {stem : String} {files : Files}
    (h : convert E opts fuel (some input) stem = some { code := 0, files }) :
    ∃ windows, Converted E opts R input stem files windows := by
  obtain ⟨schema, lldp, st, hschema, hopen, hstream, hfinish⟩ := convert_done h
  obtain ⟨windows, hcut, hended⟩ := stream_ended hE.scan hstream
  obtain ⟨hreached, hwhole⟩ :
      Reached st (handleAll (handleWindow E opts schema) (some (.start E opts stem lldp)) windows) ∧
      ((∃ whole, E.scanWindow E.scanState (FileSource.content input) true = .ok whole) ∨
        CountReached opts.toArgs (run E.nanotins opts.toArgs {} windows).1) := by
    change (handleAll (handleWindow E opts schema) (some (.start E opts stem lldp)) windows).ended _ =
      _ at hended
    cases hall : handleAll (handleWindow E opts schema) (some (.start E opts stem lldp)) windows with
    | next a =>
      rw [hall] at hended
      cases hwhole : E.scanWindow E.scanState (FileSource.content input) true with
      | ok whole =>
        rw [hwhole] at hended
        cases hended
        exact ⟨.inl rfl, .inl ⟨whole, rfl⟩⟩
      | error why =>
        rw [hwhole] at hended
        cases hended
    | stop a =>
      rw [hall] at hended
      cases hended
      exact ⟨.inr rfl, .inr (stop_count hall)⟩
    | fail a =>
      rw [hall] at hended
      cases hended
  obtain ⟨kept, ops, hstored⟩ := stored_windows hreached
  have hfin := finish_ok hfinish
  obtain ⟨tables, htables, hread⟩ :=
    packets_readBack hR hbits hE hschema hopen hstored hfin.closed
  rw [hstored.groups] at htables
  exact ⟨windows, hcut, hwhole, ⟨_, tables, hfin.packets, htables, hread⟩, st, lldp, hfin,
    hstored.converter, hstored.engines⟩

/-- **What a run that returned 0 leaves on the disk.**  The blocks of the capture, or of a first part
    of it that was scanned, divide into windows such that the packets file is read back as one table
    for each window that keeps a packet, and with `--decode-l2l3` each PDU's path holds the table
    that the decoder filled from the packets; no file is written for a table without rows.  If the
    scan of the whole capture fails, then `--count` ended the loop with one of these windows. -/
theorem convert_readBack {R : FileDecoders} (hR : R.Inverts E.external)
    (hbits : BitmapLevels E.external) {type : Kind → Nat → ArrowType} (hE : E.Documented type)
    {fuel : Nat} {input : FileStream} {stem : String} {files : Files}
    (h : convert E opts fuel (some input) stem = some { code := 0, files }) :
    ∃ windows, Cut E.scanWindow E.scanState (FileSource.content input) windows ∧
      ((∃ whole, E.scanWindow E.scanState (FileSource.content input) true = .ok whole) ∨
        CountReached opts.toArgs (run E.nanotins opts.toArgs {} windows).1) ∧
      PacketsHeldBy R (windowGroups E.nanotins opts.toArgs {} windows)
        (leftAt (stem ++ "_packets.parquet") files) ∧
      (opts.decodeL2L3 = true → (run E.nanotins opts.toArgs {} windows).1.emitted > 0 →
        ∀ node : PduNode,
          (E.dagTable (decodeRun E opts {} (E.dag, none) windows).1 node).HeldBy type R
            (leftAt (stem ++ node.suffix) files)) := by
  obtain ⟨windows, hcut, hscanned, hpackets, st, lldp, hfin, hconverter, hengines⟩ :=
    converted hR hbits hE h
  refine ⟨windows, hcut, hscanned, hpackets, fun hdecode hsome node => ?_⟩
  rw [← hconverter] at hsome
  obtain ⟨tables, hwritten, hleft⟩ := hfin.tables hdecode hsome
  obtain ⟨written, hwritten, hok, hheld⟩ := pduTable_written hR hbits hE.columns
    (hE.sized st.dag) hwritten node
  have hdag : (decodeRun E opts {} (E.dag, none) windows).1 = st.dag := by
    rw [decodeRun_fst {} E.dag none lldp, ← hengines]
  rw [hdag, hleft node]
  exact hheld (hok rfl)

end Run

/-! ## A capture -/

/-- A little-endian number in a block. -/
def field (block : Bytes) (start width : Nat) : Nat :=
  ByteSeq.ofLE ((block.drop start).take width)

/-- The blocks of a pcapng file, as far as the rows and the tables below show of them. -/
def pcapngTins : Nanotins Bytes where
  kind block :=
    if field block 0 4 = 0x0A0D0D0A then .shb
    else if field block 0 4 = 1 then .idb
    else if field block 0 4 = 6 then .epb
    else .other
  typeOrLink block := UInt32.ofNat (field block 0 4)
  parseIdb block := some { linkType := UInt16.ofNat (field block 8 2), tsResol := 6 }
  parseEpb block :=
    { interfaceId := UInt32.ofNat (field block 8 4)
      tsRaw := UInt64.ofNat (field block 12 4 * 2 ^ 32 + field block 16 4)
      caplen := UInt32.ofNat (field block 20 4)
      origlen := UInt32.ofNat (field block 24 4) }

/-- A column of numbers. -/
def numberColumn (rows : List PacketRow) (name : String) (width : Nat) (number : PacketRow → Nat) :
    FlatColumn :=
  { name, type := .int false width, elems := rows.map fun r => ByteSeq.toLE width (number r) }

/-- The columns that a list of packets makes. -/
def packetColumns (rows : List PacketRow) : List FlatColumn :=
  [numberColumn rows "packet_id" 8 (·.packetId.toNat),
    numberColumn rows "interface_id" 4 (·.interfaceId.toNat),
    numberColumn rows "ts_raw" 8 (·.tsRaw.toNat),
    numberColumn rows "caplen" 4 (·.caplen.toNat),
    numberColumn rows "origlen" 4 (·.origlen.toNat),
    numberColumn rows "link_type" 2 (·.linkType.toNat),
    numberColumn rows "ts_resol" 1 (·.tsResol.toNat),
    numberColumn rows "epb_flags" 4 (·.epbFlags.toNat)]

theorem numberColumn_whole (rows : List PacketRow) (name : String) (width : Nat)
    (number : PacketRow → Nat) : (numberColumn rows name width number).Whole rows.length := by
  refine ⟨List.length_map _, width, rfl, fun e he => ?_⟩
  obtain ⟨r, _, rfl⟩ := List.mem_map.mp he
  exact ByteSeq.length_toLE width _

theorem numberColumn_scalar {rows : List PacketRow} {name : String} {width : Nat}
    {number : PacketRow → Nat} (hfits : ∀ r, number r < 256 ^ width) {i : Nat}
    (hi : i < rows.length) :
    ArrowType.scalar (.int false width)
        (((numberColumn rows name width number).elems[i]?).getD []) =
      .int (number rows[i]) := by
  have hget : (numberColumn rows name width number).elems[i]? =
      some (ByteSeq.toLE width (number rows[i])) := by
    unfold numberColumn
    rw [List.getElem?_map, List.getElem?_eq_getElem hi, Option.map_some]
  rw [hget, Option.getD_some]
  unfold ArrowType.scalar
  dsimp only
  rw [if_neg Bool.false_ne_true, ByteSeq.ofLE_toLE, Nat.mod_eq_of_lt (hfits _)]

/-- The rows across the columns are the packets. -/
theorem rowsAcross_packets (rows : List PacketRow) :
    rowsAcross rows.length (packetColumns rows) = rows.map PacketRow.cells := by
  change (List.range rows.length).map (rowAcross · (packetColumns rows)) = _
  refine List.ext_getElem (by simp) fun i _ hi => ?_
  rw [List.length_map] at hi
  have h8 : ∀ x : UInt64, x.toNat < 256 ^ 8 := fun x => x.toNat_lt
  have h4 : ∀ x : UInt32, x.toNat < 256 ^ 4 := fun x => x.toNat_lt
  have h2 : ∀ x : UInt16, x.toNat < 256 ^ 2 := fun x => x.toNat_lt
  have h1 : ∀ x : UInt8, x.toNat < 256 ^ 1 := fun x => x.toNat_lt
  rw [List.getElem_map, List.getElem_map, List.getElem_range]
  simp only [packetColumns, PacketRow.cells, rowAcross, Cells.cons.injEq, Cell.scalar.injEq, and_true]
  exact ⟨numberColumn_scalar (fun _ => h8 _) hi, numberColumn_scalar (fun _ => h4 _) hi,
    numberColumn_scalar (fun _ => h8 _) hi, numberColumn_scalar (fun _ => h4 _) hi,
    numberColumn_scalar (fun _ => h4 _) hi, numberColumn_scalar (fun _ => h2 _) hi,
    numberColumn_scalar (fun _ => h1 _) hi, numberColumn_scalar (fun _ => h4 _) hi⟩

def packetGlue : RowGlue PacketRow where
  arrowSchema := .ok
    { format := some "+s", name := none, flags := 0, dictionary := none
      children := [.leaf "L" "packet_id" false, .leaf "I" "interface_id" false,
        .leaf "L" "ts_raw" false, .leaf "I" "caplen" false, .leaf "I" "origlen" false,
        .leaf "S" "link_type" false, .leaf "C" "ts_resol" false, .leaf "I" "epb_flags" false] }
  toArrow rows :=
    if h : rows.length < 2 ^ 63 then
      .ok
        { array := flatBatch rows.length (packetColumns rows)
          int64 := by
            show IsInt64 (rows.length : Int)
            unfold IsInt64
            omega }
    else .error "too many rows"

theorem packetGlue_describes : packetGlue.Describes packetFields PacketRow.cells where
  schema {sc} h := by
    cases h
    decide
  batch {rows b} h := by
    unfold packetGlue at h
    dsimp only at h
    split at h
    · rename_i hlen
      cases h
      have hwhole : ∀ c ∈ packetColumns rows, c.Whole rows.length := by
        simp only [packetColumns, List.mem_cons, List.not_mem_nil, or_false, forall_eq_or_imp,
          forall_eq]
        simp only [numberColumn_whole, and_self]
      rw [← rowsAcross_packets]
      exact denotes_flat hlen hwhole
    · cases h

/-- The first `n` bytes, or zeros. -/
def padded (n : Nat) (bytes : Bytes) : Bytes := (bytes ++ List.replicate n 0).take n

theorem length_padded (n : Nat) (bytes : Bytes) : (padded n bytes).length = n := by
  unfold padded
  rw [List.length_take, List.length_append, List.length_replicate]
  omega

/-- The table of the Ethernet headers. -/
def headerTable (frames : List (UInt64 × Bytes)) (h : frames.length < 2 ^ 63) :
    DagPduTable SampleColumn where
  packetId := frames.map (·.1)
  columns :=
    [⟨"dst", .bytes, 6, frames.map fun f => padded 6 f.2⟩,
      ⟨"ethertype", .u16, 0, frames.map fun f => padded 2 (f.2.drop 12)⟩]
  aligned := by simp
  fits := by rw [List.length_map]; exact h

theorem noColumn_aligned :
    ∀ c ∈ ([] : List (PduColumn SampleColumn)), c.elems.length = ([] : List UInt64).length :=
  fun _ h => absurd h List.not_mem_nil

theorem noRow_fits : ([] : List UInt64).length < 2 ^ 63 := Nat.two_pow_pos 63

def noTable : DagPduTable SampleColumn where
  packetId := []
  columns := []
  aligned := noColumn_aligned
  fits := noRow_fits

/-- A decoder of Ethernet headers and nothing else. -/
def headersEnv : Env Unit Bytes (List (UInt64 × Bytes)) Unit Unit SampleColumn where
  external := .readable
  disk := { capacity := 16, room := fun _ => some 8192, opens := fun _ => true }
  nanotins := pcapngTins
  scanWindow := greedy pcapngBlock
  scanState := ()
  packets := packetGlue
  payload block :=
    if 28 + field block 20 4 ≤ block.length then some ((block.drop 28).take (field block 20 4))
    else none
  dagDecodePacket pid bytes frames := if bytes.length < 14 then frames else frames ++ [(pid, bytes)]
  dag := []
  dagTable
    | frames, .eth => if h : frames.length < 2 ^ 63 then headerTable frames h else noTable
    | _, _ => noTable
  columns := sampleGlue
  nanoarrow _ := {}
  loadRules := .ok ()
  lldpRun _ _ engine := engine
  lldpTable _ := []
  lldp := { arrowSchema := .error "no rows", toArrow := fun _ => .error "no rows" }

theorem headersEnv_documented : headersEnv.Documented SampleColumn.type where
  scan := greedy_lawful pcapngBlock_stable
  packets := packetGlue_describes
  columns := sampleGlue_declares
  sized frames node := by
    have hnone : noTable.Sized SampleColumn.type :=
      fun _ h => absurd h List.not_mem_nil
    cases node with
    | eth =>
      show (if h : frames.length < 2 ^ 63 then headerTable frames h else noTable).Sized _
      split
      · intro c hc
        rcases List.mem_cons.mp hc with rfl | hc
        · refine ⟨6, rfl, fun e he => ?_⟩
          obtain ⟨f, _, rfl⟩ := List.mem_map.mp he
          exact length_padded 6 f.2
        · obtain rfl := List.mem_singleton.mp hc
          refine ⟨2, rfl, fun e he => ?_⟩
          obtain ⟨f, _, rfl⟩ := List.mem_map.mp he
          exact length_padded 2 _
      · exact hnone
    | _ => exact hnone

/-- A section, an Ethernet interface, and two packets. -/
def twoPackets : Bytes :=
  [0x0A, 0x0D, 0x0D, 0x0A, 28, 0, 0, 0, 0x4D, 0x3C, 0x2B, 0x1A, 1, 0, 0, 0,
    0xFF, 0xFF, 0xFF, 0xFF, 0xFF, 0xFF, 0xFF, 0xFF, 28, 0, 0, 0] ++
  [1, 0, 0, 0, 20, 0, 0, 0, 1, 0, 0, 0, 0, 0, 4, 0, 20, 0, 0, 0] ++
  [6, 0, 0, 0, 48, 0, 0, 0, 0, 0, 0, 0, 0, 0, 0, 0, 7, 0, 0, 0, 14, 0, 0, 0, 14, 0, 0, 0,
    1, 2, 3, 4, 5, 6, 7, 8, 9, 10, 11, 12, 8, 0, 0, 0, 48, 0, 0, 0] ++
  [6, 0, 0, 0, 48, 0, 0, 0, 0, 0, 0, 0, 1, 0, 0, 0, 9, 0, 0, 0, 14, 0, 0, 0, 60, 0, 0, 0,
    7, 8, 9, 10, 11, 12, 1, 2, 3, 4, 5, 6, 8, 6, 0, 0, 48, 0, 0, 0]

/-- Windows of 40 bytes at first. -/
def smallWindows : Options := { decodeL2L3 := true, windowBytes := 40 }

theorem convert_readBack_twoPackets :
    ∃ files, convert headersEnv smallWindows 300 (some { bytes := twoPackets }) "cap" =
        some { code := 0, files } ∧
      ∃ windows, Cut headersEnv.scanWindow headersEnv.scanState
          (FileSource.content { bytes := twoPackets }) windows ∧
        PacketsHeldBy readableDecoders
          (windowGroups headersEnv.nanotins smallWindows.toArgs {} windows)
          (leftAt ("cap" ++ "_packets.parquet") files) ∧
        ((run headersEnv.nanotins smallWindows.toArgs {} windows).1.emitted > 0 →
          (headersEnv.dagTable
              (decodeRun headersEnv smallWindows {} (headersEnv.dag, none) windows).1 .eth).HeldBy
            SampleColumn.type readableDecoders (leftAt ("cap" ++ PduNode.suffix .eth) files)) := by
  have hcode : (convert headersEnv smallWindows 300 (some { bytes := twoPackets }) "cap").map
      (·.code) = some 0 := by decide +kernel
  obtain ⟨⟨code, files⟩, hrun, rfl⟩ := Option.map_eq_some_iff.mp hcode
  have hbits : BitmapLevels headersEnv.external := fun _ _ _ => rfl
  obtain ⟨windows, hcut, _, hpackets, htables⟩ := @convert_readBack _ _ _ _ _ _ headersEnv
    smallWindows readableDecoders readableDecoders_invert hbits _ headersEnv_documented _ _ _ _ hrun
  exact ⟨files, hrun, windows, hcut, hpackets, fun hsome => htables rfl hsome .eth⟩

end N2P.Capture
