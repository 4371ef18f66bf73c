import N2P.FlatTables
import N2P.ReferenceReader
import N2P.WriteFile

/-!
# The per-PDU tables

`parquet_pdu_table_writer.hpp` writes each table that the decoder filled as a file of one row group:
a `packet_id` column and the columns of the PDU.

* `buildDagPduSchema`, `buildDagPduBatch` — the record batch, over what soatins and nanoarrow
  return.
* `writeDagPduTable` — one table, and the file it leaves.
* `writePduTables` — the tables of a capture, the later ones also after a failure.
* `pduTables_readBack` — after success the files hold the tables that have rows.
-/

namespace N2P.Capture

open Columnar

/-! ## Files -/

/-- What becomes of a path that is opened: whether it can be, and how much its device takes. -/
structure Disk where
  capacity : Nat
  room : String → Option Nat
  opens : String → Bool

def Disk.stream (d : Disk) (path : String) : ByteSink :=
  openedStream d.capacity (d.room path) (d.opens path)

/-- `compress ? N2P_CODEC_ZSTD : N2P_CODEC_UNCOMPRESSED`. -/
def codecArg (compress : Bool) : Int := if compress then 0 else 1

/-! ## Tables -/

/-- A column of a `dag_pdu_table`: what `columns_of_spec` says of it, and its elements. -/
structure PduColumn (Kind : Type) where
  name : String
  kind : Kind
  fixedWidth : Nat
  elems : List Bytes

/-- `dag_pdu_table`: each emitted PDU adds to every column.  A vector of ids has fewer than 2^63. -/
structure DagPduTable (Kind : Type) where
  packetId : List UInt64
  columns : List (PduColumn Kind)
  aligned : ∀ c ∈ columns, c.elems.length = packetId.length
  fits : packetId.length < 2 ^ 63

/-- `soatins::nt_set_column_schema`, and the `arrow_kind` of the `packet_id` column. -/
structure ColumnGlue (Kind : Type) where
  u64 : Kind
  setColumnSchema : Kind → (fixedWidth : Nat) → (name : String) → Except String ArrowSchema

/-- What the nanoarrow calls return; `append i` fills column `i`. -/
structure NanoarrowCalls where
  setTypeStruct : Bool := true
  initFromSchema : Bool := true
  append : Nat → Bool := fun _ => true
  finishBuilding : Bool := true

section Build

variable {Kind : Type} (G : ColumnGlue Kind) (na : NanoarrowCalls) (table : DagPduTable Kind)

/-- `build_dag_pdu_schema`. -/
def buildDagPduSchema : Except String ArrowSchema :=
  if !na.setTypeStruct then .error "dag pdu schema alloc failed"
  else
    (G.setColumnSchema G.u64 0 "packet_id").bind fun packetId =>
      (table.columns.mapM fun c => G.setColumnSchema c.kind c.fixedWidth c.name).map fun columns =>
        { format := some "+s", name := none, flags := 0, children := packetId :: columns,
          dictionary := none }

/-- `build_dag_pdu_batch`.  Every column's first `n` elements are appended in one piece. -/
def buildDagPduBatch : Except String ArrowArray :=
  let n := table.packetId.length
  let children := flatArray n (table.packetId.flatMap fun id => ByteSeq.toLE 8 id.toNat) ::
    table.columns.map fun c => flatArray n (c.elems.take n).flatten
  if !na.initFromSchema then .error "dag pdu array init failed"
  else if !(List.range children.length).all na.append then .error "dag pdu bulk fill failed"
  else if !na.finishBuilding then .error "dag pdu array finalize failed"
  else .ok (.struct n none 0 children)

/-- What `write_dag_pdu_table` returns, and the stream it closed. -/
structure PduWritten where
  ok : Bool
  error : Option Bytes := none
  file : Option ByteSink := none

/-- `write_dag_pdu_table`; `none` is undefined behaviour. -/
def writeDagPduTable (X : External) (disk : Disk) (path : String) (compress : Bool) :
    Option PduWritten :=
  if table.packetId.length = 0 then some { ok := true }
  else
    match buildDagPduSchema G na table with
    | .error why => some { ok := false, error := some (utf8 why) }
    | .ok schema =>
      match buildDagPduBatch na table with
      | .error why => some { ok := false, error := some (utf8 why) }
      | .ok batch =>
        let (opened, w) := n2pWriterOpen (disk.stream path) path
        if opened ≠ .ok then
          some { ok := false, error := some (utf8 ("n2p_writer_open failed for " ++ path)) }
        else
          let (_, w) := n2pWriterSetCodec w (codecArg compress)
          match n2pWriterWriteBatch X w (some schema) (some batch) with
          | none => none
          | some (status, w) =>
            let (closed, out) := n2pWriterClose X w
            if status ≠ .ok then
              some { ok := false,
                     error := some (utf8 "n2p_writer_write_batch: " ++ cBytes w.lastError),
                     file := some out }
            else if closed ≠ .ok then
              some { ok := false,
                     error := some (utf8 ("n2p_writer_close failed for " ++ path)),
                     file := some out }
            else some { ok := true, file := some out }

end Build

/-! ## What a table holds -/

section Contents

variable {Kind : Type}

/-- What the glue is documented to declare: a REQUIRED column of the kind's type. -/
structure ColumnGlue.Declares (G : ColumnGlue Kind) (type : Kind → Nat → ArrowType) : Prop where
  u64 : type G.u64 0 = .int false 8
  schema : ∀ {kind width name sc}, G.setColumnSchema kind width name = .ok sc →
    shapeOf sc = some (.leaf (type kind width)) ∧ sc.nameOr = name ∧
      (sc.flags &&& ARROW_FLAG_NULLABLE != 0) = false

/-- A table's columns, as the format sees them. -/
def DagPduTable.flat (table : DagPduTable Kind) (type : Kind → Nat → ArrowType) :
    List FlatColumn :=
  { name := "packet_id", type := .int false 8,
    elems := table.packetId.map fun id => ByteSeq.toLE 8 id.toNat } ::
    table.columns.map fun c => { name := c.name, type := type c.kind c.fixedWidth, elems := c.elems }

/-- The elements are as wide as the column's type. -/
def DagPduTable.Sized (table : DagPduTable Kind) (type : Kind → Nat → ArrowType) : Prop :=
  ∀ c ∈ table.columns, ∃ w, (type c.kind c.fixedWidth).byteWidth = some w ∧
    ∀ e ∈ c.elems, e.length = w

/-- The rows of a table. -/
def DagPduTable.rows (table : DagPduTable Kind) (type : Kind → Nat → ArrowType) : List Cells :=
  rowsAcross table.packetId.length (table.flat type)

variable {G : ColumnGlue Kind} {na : NanoarrowCalls} {table : DagPduTable Kind}
  {type : Kind → Nat → ArrowType}

theorem flat_whole (hsized : table.Sized type) :
    ∀ c ∈ table.flat type, c.Whole table.packetId.length := by
  intro c hc
  rcases List.mem_cons.mp hc with rfl | hc
  · refine ⟨by simp, 8, rfl, fun e he => ?_⟩
    obtain ⟨id, _, rfl⟩ := List.mem_map.mp he
    exact ByteSeq.length_toLE 8 id.toNat
  · obtain ⟨c', hc', rfl⟩ := List.mem_map.mp hc
    exact ⟨table.aligned c' hc', hsized c' hc'⟩

/-- A column's schema declares a REQUIRED member. -/
theorem members_cons (hG : G.Declares type) {kind : Kind} {width : Nat} {name : String}
    {sc : ArrowSchema} (h : G.setColumnSchema kind width name = .ok sc) {scs : List ArrowSchema}
    {rest : Members} (hrest : membersOf scs = some rest) :
    membersOf (sc :: scs) = some (.cons name false (.leaf (type kind width)) rest) := by
  obtain ⟨hshape, hname, hflags⟩ := hG.schema h
  rw [membersOf, hshape, hrest, hname, hflags]
  rfl

/-- The schema is of the columns' type. -/
theorem schema_members (hG : G.Declares type) {schema : ArrowSchema}
    (h : buildDagPduSchema G na table = .ok schema) :
    membersOf schema.children = some (flatFields (table.flat type)) := by
  have hcolumns : ∀ {columns : List (PduColumn Kind)} {scs : List ArrowSchema},
      (columns.mapM fun c => G.setColumnSchema c.kind c.fixedWidth c.name) = .ok scs →
      membersOf scs = some (flatFields (columns.map fun c =>
        { name := c.name, type := type c.kind c.fixedWidth, elems := c.elems })) := by
    intro columns
    induction columns with
    | nil =>
      intro scs hscs
      cases hscs
      rfl
    | cons c columns ih =>
      intro scs hscs
      rw [List.mapM_cons] at hscs
      obtain ⟨sc, hsc, hscs⟩ := Outcome.bind_eq_ok.mp hscs
      obtain ⟨rest, hrest, hscs⟩ := Outcome.bind_eq_ok.mp hscs
      cases hscs
      exact members_cons hG hsc (ih hrest)
  unfold buildDagPduSchema at h
  split at h
  · cases h
  · obtain ⟨packetId, hpacket, h⟩ := Outcome.bind_eq_ok.mp h
    cases hscs : table.columns.mapM fun c => G.setColumnSchema c.kind c.fixedWidth c.name with
    | error why => rw [hscs] at h; cases h
    | ok columns =>
      rw [hscs] at h
      cases h
      rw [members_cons hG hpacket (hcolumns hscs), hG.u64]
      rfl

/-- The batch denotes the rows. -/
theorem batch_denotes (hsized : table.Sized type) {batch : ArrowArray}
    (h : buildDagPduBatch na table = .ok batch) :
    Denotes (flatFields (table.flat type)) (table.rows type) batch := by
  have hbatch : batch = flatBatch table.packetId.length (table.flat type) := by
    unfold buildDagPduBatch at h
    dsimp only at h
    split_ifs at h
    cases h
    unfold flatBatch DagPduTable.flat
    rw [List.map_cons, List.map_map, List.flatMap_def]
    refine congrArg (ArrowArray.struct _ none 0) (congrArg (_ :: ·) (List.map_congr_left ?_))
    intro c hc
    show flatArray _ (c.elems.take _).flatten = flatArray _ c.elems.flatten
    rw [List.take_of_length_le (by rw [table.aligned c hc])]
  rw [hbatch]
  exact denotes_flat table.fits (flat_whole hsized)

end Contents

/-! ## One table -/

section OneTable

variable {Kind : Type} {G : ColumnGlue Kind} {na : NanoarrowCalls} {table : DagPduTable Kind}
  {type : Kind → Nat → ArrowType} {X : External} {disk : Disk} {path : String} {compress : Bool}

/-- The file that a run writes of a table: none without rows, else one row group.  What an earlier
    run left at the path of a table without rows stays there. -/
def DagPduTable.HeldBy (table : DagPduTable Kind) (type : Kind → Nat → ArrowType)
    (R : FileDecoders) (file : Option ByteSink) : Prop :=
  if table.packetId.length = 0 then file = none
  else ∃ out columns, file = some out ∧
    tableOf (flatFields (table.flat type)) (table.rows type) = some columns ∧
    readFile R out.file = some [columns]

/-- A path that was opened can be. -/
theorem opens_of_open (h : (n2pWriterOpen (disk.stream path) path).1 = .ok) :
    disk.opens path = true := by
  unfold n2pWriterOpen at h
  split at h
  · rename_i hisOpen
    exact hisOpen
  · cases h

/-- A table that is written with success: its schema and its batch were built, the file was opened,
    the batch was accepted and the close succeeded. -/
theorem writeDagPduTable_ok {written : PduWritten}
    (h : writeDagPduTable G na table X disk path compress = some written)
    (hok : written.ok = true) (hrows : table.packetId.length ≠ 0) :
    ∃ schema batch w w', buildDagPduSchema G na table = .ok schema ∧
      buildDagPduBatch na table = .ok batch ∧ disk.opens path = true ∧
      w = (n2pWriterSetCodec (n2pWriterOpen (disk.stream path) path).2 (codecArg compress)).2 ∧
      n2pWriterWriteBatch X w (some schema) (some batch) = some (.ok, w') ∧
      (n2pWriterClose X w').1 = .ok ∧ written.file = some (n2pWriterClose X w').2 := by
  unfold writeDagPduTable at h
  rw [if_neg hrows] at h
  cases hschema : buildDagPduSchema G na table with
  | error why =>
    rw [hschema] at h
    cases h
    cases hok
  | ok schema =>
    cases hbatch : buildDagPduBatch na table with
    | error why =>
      rw [hschema, hbatch] at h
      cases h
      cases hok
    | ok batch =>
      rw [hschema, hbatch] at h
      dsimp only at h
      split at h
      · cases h
        cases hok
      · rename_i hopen
        split at h
        · cases h
        · rename_i status w' hwrite
          split at h
          · cases h
            cases hok
          · rename_i hstatus
            split at h
            · cases h
              cases hok
            · rename_i hclosed
              cases h
              have hstatus : status = .ok := not_not.mp hstatus
              subst hstatus
              exact ⟨schema, batch, _, w', rfl, rfl, opens_of_open (not_not.mp hopen), rfl, hwrite,
                not_not.mp hclosed, rfl⟩

/-- **After success a table's file holds its rows.** -/
theorem writeDagPduTable_heldBy {R : FileDecoders} (hR : R.Inverts X) (hbits : BitmapLevels X)
    (hG : G.Declares type) (hsized : table.Sized type) {written : PduWritten}
    (h : writeDagPduTable G na table X disk path compress = some written)
    (hok : written.ok = true) : table.HeldBy type R written.file := by
  unfold DagPduTable.HeldBy
  split
  · rename_i hempty
    unfold writeDagPduTable at h
    rw [if_pos hempty] at h
    cases h
    rfl
  · rename_i hrows
    obtain ⟨schema, batch, w, w', hschema, hbatch, hopens, hw, hwrite, hclosed, hfile⟩ :=
      writeDagPduTable_ok h hok hrows
    have hdenotes := batch_denotes hsized hbatch
    obtain ⟨columns, hcolumns⟩ : ∃ columns,
        tableOf (flatFields (table.flat type)) (table.rows type) = some columns :=
      tableOf_of_holds rowsAcross_hold
    refine ⟨_, columns, hfile, hcolumns, ?_⟩
    have hlen : batch.length = (table.packetId.length : Int) := by
      rw [hdenotes.length]
      simp [DagPduTable.rows, rowsAcross]
    have hint : IsInt64 batch.length := by
      have hfits := table.fits
      rw [hlen]
      unfold IsInt64
      omega
    have hrun : N2P.run X (n2pWriterOpen (disk.stream path) path).2
        [.setCodec (codecArg compress), .writeBatch (some schema) (some ⟨batch, hint⟩)] =
        some ([(n2pWriterSetCodec (n2pWriterOpen (disk.stream path) path).2
          (codecArg compress)).1, .ok], w') := by
      rw [N2P.run, Op.apply]
      dsimp only
      rw [N2P.run, Op.apply, ← hw]
      dsimp only [Option.map_some]
      rw [hwrite]
      rfl
    unfold Disk.stream at hrun
    rw [hopens] at hrun
    have htyped : Typed (flatFields (table.flat type))
        [.setCodec (codecArg compress), .writeBatch (some schema) (some ⟨batch, hint⟩)] := by
      intro call hcall sc hsc
      obtain rfl := List.mem_singleton.mp hcall
      cases hsc
      exact schema_members hG hschema
    refine readFile_typed hR hbits hrun hclosed (oneCodec_set (by simp) hrun) flat_shallow htyped
      (List.Forall₂.cons hdenotes List.Forall₂.nil) ?_
    rw [List.mapM_cons, hcolumns]
    rfl

end OneTable

/-! ## All tables -/

/-- The nodes whose tables are written. -/
inductive PduNode where
  | eth | vlan | ipv4 | ipv6 | tcp | udp
  | gptp | ptpTimestampBody | ptpTsPortBody | ptpAnnounceBody | ptpSignalingBody
  | ipv6HopByHop | ipv6Routing | ipv6Fragment | ipv6DestOpt | ipv6Ah
  | someip
  deriving DecidableEq, Repr

/-- The end of a table's path. -/
def PduNode.suffix : PduNode → String
  | .eth => "_ethernet.parquet"
  | .vlan => "_vlan.parquet"
  | .ipv4 => "_ipv4.parquet"
  | .ipv6 => "_ipv6.parquet"
  | .tcp => "_tcp.parquet"
  | .udp => "_udp.parquet"
  | .gptp => "_ptp.parquet"
  | .ptpTimestampBody => "_ptp_timestamp.parquet"
  | .ptpTsPortBody => "_ptp_ts_port.parquet"
  | .ptpAnnounceBody => "_ptp_announce.parquet"
  | .ptpSignalingBody => "_ptp_signaling.parquet"
  | .ipv6HopByHop => "_ipv6_hopbyhop.parquet"
  | .ipv6Routing => "_ipv6_routing.parquet"
  | .ipv6Fragment => "_ipv6_fragment.parquet"
  | .ipv6DestOpt => "_ipv6_destopt.parquet"
  | .ipv6Ah => "_ipv6_ah.parquet"
  | .someip => "_someip.parquet"

/-- The calls of `write_one`. -/
def PduNode.all : List PduNode :=
  [.eth, .vlan, .ipv4, .ipv6, .tcp, .udp, .gptp, .ptpTimestampBody, .ptpTsPortBody,
    .ptpAnnounceBody, .ptpSignalingBody, .ipv6HopByHop, .ipv6Routing, .ipv6Fragment, .ipv6DestOpt,
    .ipv6Ah, .someip]

/-- The streams that were closed, each with its path, in order. -/
abbrev Files := List (String × ByteSink)

/-- What is left at a path: the last stream that was opened there. -/
def leftAt (path : String) : Files → Option ByteSink
  | [] => none
  | (p, out) :: files =>
    match leftAt path files with
    | some later => some later
    | none => if p = path then some out else none

section AllTables

variable {Kind : Type} (G : ColumnGlue Kind) (na : PduNode → NanoarrowCalls)
  (dag : PduNode → DagPduTable Kind) (X : External) (disk : Disk) (stem : String) (compress : Bool)

/-- The tables one after the other, also behind one that failed. -/
def writeTables : List PduNode → Option (List (PduNode × PduWritten))
  | [] => some []
  | node :: nodes =>
    match writeDagPduTable G (na node) (dag node) X disk (stem ++ node.suffix) compress with
    | none => none
    | some written => (writeTables nodes).map ((node, written) :: ·)

/-- The streams that some tables closed. -/
def tableFiles (tables : List (PduNode × PduWritten)) : Files :=
  tables.flatMap fun t => t.2.file.toList.map fun out => (stem ++ t.1.suffix, out)

/-- `write_pdu_tables`: the exit code, and the files. -/
def writePduTables : Option (Nat × Files) :=
  (writeTables G na dag X disk stem compress PduNode.all).map fun tables =>
    (if tables.all (·.2.ok) then 0 else 1, tableFiles stem tables)

end AllTables

section AllWritten

variable {Kind : Type} {G : ColumnGlue Kind} {na : PduNode → NanoarrowCalls}
  {dag : PduNode → DagPduTable Kind} {X : External} {disk : Disk} {stem : String} {compress : Bool}

/-- No table's path is another's. -/
theorem suffix_injective {a b : PduNode} (h : stem ++ a.suffix = stem ++ b.suffix) : a = b := by
  have h : a.suffix = b.suffix := by simpa using h
  revert h
  cases a <;> cases b <;> decide

theorem leftAt_append {path : String} {files later : Files} :
    leftAt path (files ++ later) = (leftAt path later).or (leftAt path files) := by
  induction files with
  | nil => simp [leftAt]
  | cons f files ih =>
    rw [List.cons_append, leftAt, leftAt, ih]
    cases leftAt path later <;> rfl

/-- Paths that were not opened. -/
theorem leftAt_none {path : String} {files : Files} (h : ∀ f ∈ files, f.1 ≠ path) :
    leftAt path files = none := by
  induction files with
  | nil => rfl
  | cons f files ih =>
    rw [leftAt, ih fun f' hf' => h f' (List.mem_cons_of_mem f hf'), if_neg (h f List.mem_cons_self)]

/-- What a table of a list left is its own stream. -/
theorem leftAt_tableFiles {tables : List (PduNode × PduWritten)}
    (hnodup : (tables.map (·.1)).Nodup) {node : PduNode} {written : PduWritten}
    (h : (node, written) ∈ tables) :
    leftAt (stem ++ node.suffix) (tableFiles stem tables) = written.file := by
  have hown : leftAt (stem ++ node.suffix)
      (written.file.toList.map fun out => (stem ++ node.suffix, out)) = written.file := by
    cases written.file <;> simp [leftAt]
  induction tables with
  | nil => cases h
  | cons t tables ih =>
    rw [List.map_cons, List.nodup_cons] at hnodup
    have hsplit : tableFiles stem (t :: tables) =
        (t.2.file.toList.map fun out => (stem ++ t.1.suffix, out)) ++ tableFiles stem tables := by
      unfold tableFiles
      rw [List.flatMap_cons]
    rw [hsplit, leftAt_append]
    rcases List.mem_cons.mp h with rfl | hlater
    · have hnone : leftAt (stem ++ node.suffix) (tableFiles stem tables) = none := by
        refine leftAt_none fun f hf hpath => hnodup.1 ?_
        obtain ⟨t, ht, hf⟩ := List.mem_flatMap.mp hf
        obtain ⟨out, _, rfl⟩ := List.mem_map.mp hf
        rw [← suffix_injective hpath]
        exact List.mem_map.mpr ⟨t, ht, rfl⟩
      rw [hnone, hown]
      rfl
    · rw [ih hnodup.2 hlater]
      have hne : t.1 ≠ node := by
        rintro rfl
        exact hnodup.1 (List.mem_map.mpr ⟨_, hlater, rfl⟩)
      have hnone : leftAt (stem ++ node.suffix)
          (t.2.file.toList.map fun out => (stem ++ t.1.suffix, out)) = none := by
        refine leftAt_none fun f hf hpath => hne ?_
        obtain ⟨out, _, rfl⟩ := List.mem_map.mp hf
        exact suffix_injective hpath
      rw [hnone, Option.or_none]

theorem writeTables_mem {nodes : List PduNode} {tables : List (PduNode × PduWritten)}
    (h : writeTables G na dag X disk stem compress nodes = some tables) :
    tables.map (·.1) = nodes ∧ ∀ t ∈ tables,
      writeDagPduTable G (na t.1) (dag t.1) X disk (stem ++ t.1.suffix) compress = some t.2 := by
  induction nodes generalizing tables with
  | nil =>
    cases h
    exact ⟨rfl, fun _ h => absurd h List.not_mem_nil⟩
  | cons node nodes ih =>
    rw [writeTables] at h
    split at h
    · cases h
    · rename_i written hwritten
      obtain ⟨rest, hrest, rfl⟩ := Option.map_eq_some_iff.mp h
      obtain ⟨hnodes, hmem⟩ := ih hrest
      refine ⟨by rw [List.map_cons, hnodes], fun t ht => ?_⟩
      rcases List.mem_cons.mp ht with rfl | ht
      · exact hwritten
      · exact hmem t ht

/-- Only the tables' paths are opened. -/
theorem writePduTables_paths {code : Nat} {files : Files}
    (h : writePduTables G na dag X disk stem compress = some (code, files)) :
    ∀ f ∈ files, ∃ node : PduNode, f.1 = stem ++ node.suffix := by
  obtain ⟨tables, _, heq⟩ := Option.map_eq_some_iff.mp h
  simp only [Prod.mk.injEq] at heq
  obtain ⟨_, rfl⟩ := heq
  intro f hf
  obtain ⟨t, _, hf⟩ := List.mem_flatMap.mp hf
  obtain ⟨out, _, rfl⟩ := List.mem_map.mp hf
  exact ⟨t.1, rfl⟩

theorem mem_all (node : PduNode) : node ∈ PduNode.all := by cases node <;> decide

/-- What became of one of the tables. -/
theorem pduTable_written {R : FileDecoders} (hR : R.Inverts X) (hbits : BitmapLevels X)
    {type : Kind → Nat → ArrowType} (hG : G.Declares type)
    (hsized : ∀ node, (dag node).Sized type) {code : Nat} {files : Files}
    (h : writePduTables G na dag X disk stem compress = some (code, files)) (node : PduNode) :
    ∃ written,
      writeDagPduTable G (na node) (dag node) X disk (stem ++ node.suffix) compress =
        some written ∧
      (code = 0 → written.ok = true) ∧
      (written.ok = true → (dag node).HeldBy type R (leftAt (stem ++ node.suffix) files)) := by
  obtain ⟨tables, htables, heq⟩ := Option.map_eq_some_iff.mp h
  simp only [Prod.mk.injEq] at heq
  obtain ⟨rfl, rfl⟩ := heq
  obtain ⟨hnodes, hmem⟩ := writeTables_mem htables
  have hnodup : (tables.map (·.1)).Nodup := by
    rw [hnodes]
    decide
  have hnode : node ∈ tables.map (·.1) := by
    rw [hnodes]
    exact mem_all node
  obtain ⟨⟨_, written⟩, ht, rfl⟩ := List.mem_map.mp hnode
  refine ⟨written, hmem _ ht, fun hcode => ?_, fun hok => ?_⟩
  · by_contra hnot
    have hall : ¬(tables.all fun t => t.2.ok) = true := fun hall =>
      hnot (List.all_eq_true.mp hall _ ht)
    rw [if_neg hall] at hcode
    cases hcode
  · rw [leftAt_tableFiles hnodup ht]
    exact writeDagPduTable_heldBy hR hbits hG (hsized _) (hmem _ ht) hok

/-- **Each table that was written with success is what its path holds**, whatever became of the
    others, and the exit code is zero exactly when all were. -/
theorem pduTables_readBack {R : FileDecoders} (hR : R.Inverts X) (hbits : BitmapLevels X)
    {type : Kind → Nat → ArrowType} (hG : G.Declares type)
    (hsized : ∀ node, (dag node).Sized type) {code : Nat} {files : Files}
    (h : writePduTables G na dag X disk stem compress = some (code, files)) :
    (∀ node, ∃ written,
      writeDagPduTable G (na node) (dag node) X disk (stem ++ node.suffix) compress =
        some written ∧
      (written.ok = true → (dag node).HeldBy type R (leftAt (stem ++ node.suffix) files))) ∧
    (code = 0 ↔ ∀ node written,
      writeDagPduTable G (na node) (dag node) X disk (stem ++ node.suffix) compress =
        some written → written.ok = true) := by
  refine ⟨fun node => ?_, fun hcode node written hwritten => ?_, fun hall => ?_⟩
  · obtain ⟨written, hwritten, _, hheld⟩ := pduTable_written hR hbits hG hsized h node
    exact ⟨written, hwritten, hheld⟩
  · obtain ⟨_, hwritten', hok, _⟩ := pduTable_written hR hbits hG hsized h node
    rw [hwritten] at hwritten'
    cases hwritten'
    exact hok hcode
  · obtain ⟨tables, htables, heq⟩ := Option.map_eq_some_iff.mp h
    simp only [Prod.mk.injEq] at heq
    rw [← heq.1, if_pos (List.all_eq_true.mpr fun t ht =>
      hall t.1 t.2 ((writeTables_mem htables).2 t ht))]

end AllWritten

/-- Kinds of columns as they matter here. -/
inductive SampleColumn where
  | u16 | u64 | bytes
  deriving DecidableEq

def SampleColumn.type : SampleColumn → Nat → ArrowType
  | .u16, _ => .int false 2
  | .u64, _ => .int false 8
  | .bytes, w => .fixedSizeBinary w

def sampleGlue : ColumnGlue SampleColumn where
  u64 := .u64
  setColumnSchema
    | .u16, _, name => .ok (.leaf "S" name false)
    | .u64, _, name => .ok (.leaf "L" name false)
    | .bytes, 6, name => .ok (.leaf "w:6" name false)
    | .bytes, _, _ => .error "unsupported width"

theorem sampleGlue_declares : sampleGlue.Declares SampleColumn.type where
  u64 := rfl
  schema {kind width name sc} h := by
    have hflags : ((0 : Nat) &&& ARROW_FLAG_NULLABLE != 0) = false := by decide
    unfold sampleGlue at h
    dsimp only at h
    split at h <;> cases h
    · exact ⟨shapeOf_leaf rfl, rfl, hflags⟩
    · exact ⟨shapeOf_leaf rfl, rfl, hflags⟩
    · exact ⟨shapeOf_leaf (by decide), rfl, hflags⟩

/-- Two Ethernet frames, a VLAN tag, and nothing else. -/
def sampleDag : PduNode → DagPduTable SampleColumn
  | .eth =>
    { packetId := [0, 7]
      columns := [⟨"dst", .bytes, 6, [[1, 2, 3, 4, 5, 6], [7, 8, 9, 10, 11, 12]]⟩,
        ⟨"ethertype", .u16, 0, [[0, 8], [0, 0x81]]⟩]
      aligned := by decide
      fits := by decide }
  | .vlan =>
    { packetId := [7], columns := [⟨"vid", .u16, 0, [[5, 0]]⟩], aligned := by decide
      fits := by decide }
  | _ => { packetId := [], columns := [], aligned := by decide, fits := by decide }

theorem sampleDag_sized (node : PduNode) : (sampleDag node).Sized SampleColumn.type := by
  cases node with
  | eth =>
    intro c hc
    rcases List.mem_cons.mp hc with rfl | hc
    · exact ⟨6, rfl, by decide⟩
    · obtain rfl := List.mem_singleton.mp hc
      exact ⟨2, rfl, by decide⟩
  | vlan =>
    intro c hc
    obtain rfl := List.mem_singleton.mp hc
    exact ⟨2, rfl, by decide⟩
  | _ => exact fun _ h => absurd h List.not_mem_nil

/-- A disk on which the VLAN table cannot be opened. -/
def sampleDisk : Disk :=
  { capacity := 16, room := fun _ => some 4096, opens := fun path => path ≠ "cap_vlan.parquet" }

theorem pduTables_readBack_twoFrames :
    ∃ code files, writePduTables sampleGlue (fun _ => {}) sampleDag .readable sampleDisk "cap" true =
        some (code, files) ∧ code = 1 ∧
      (sampleDag .eth).HeldBy SampleColumn.type readableDecoders
        (leftAt "cap_ethernet.parquet" files) := by
  have hcode : (writePduTables sampleGlue (fun _ => {}) sampleDag .readable sampleDisk "cap"
      true).map (·.1) = some 1 := by decide +kernel
  have heth : (writeDagPduTable sampleGlue {} (sampleDag .eth) .readable sampleDisk
      "cap_ethernet.parquet" true).map (·.ok) = some true := by decide +kernel
  obtain ⟨⟨code, files⟩, hrun, rfl⟩ := Option.map_eq_some_iff.mp hcode
  obtain ⟨hall, _⟩ := pduTables_readBack readableDecoders_invert (fun _ _ _ => rfl)
    sampleGlue_declares sampleDag_sized hrun
  obtain ⟨written, hwritten, hheld⟩ := hall .eth
  rw [show ("cap" ++ PduNode.suffix .eth) = "cap_ethernet.parquet" from rfl] at hwritten hheld
  rw [hwritten] at heth
  exact ⟨_, files, hrun, rfl, hheld (Option.some.inj heth)⟩

end N2P.Capture
