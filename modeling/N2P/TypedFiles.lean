import N2P.DenotedTables
import N2P.Settings

/-!
# Files of batches of one type

What is left of a run that hands over batches of one type without lists: a file that is read back
as the tables the batches' rows make.

* `typedLock_run` — the locked schema is of the type.
* `oneCodec_run` — while the codec is not set, one is used.
* `readFile_typed` — one table for each accepted batch, from the rows it denotes.
-/

namespace N2P

open Columnar

/-- Every schema handed over is of the type. -/
def Typed (fields : Members) (ops : List Op) : Prop :=
  ∀ call ∈ handedOver ops, ∀ sc, call.1 = some sc → membersOf sc.children = some fields

/-- The locked schema, if there is one, is of the type. -/
def TypedLock (fields : Members) (w : Writer) : Prop :=
  w.schemaLocked = true → ∃ columns, membersOf columns = some fields ∧
    flattenColumns columns 0 ([], []) = .ok (w.schemaNodes, w.leaves)

section Lock

variable {X : External} {fields : Members} {w w' : Writer}

theorem TypedLock.same (h : TypedLock fields w) (hs : SameSchema w w') : TypedLock fields w' := by
  unfold TypedLock
  rw [hs.locked, hs.nodes, hs.leaves]
  exact h

theorem TypedLock.lockAfter (h : TypedLock fields w) {call : Option ArrowSchema × Option Batch}
    (hcall : ∀ sc, call.1 = some sc → membersOf sc.children = some fields) :
    TypedLock fields (lockAfter w call) := by
  obtain ⟨schema, batch⟩ := call
  unfold N2P.lockAfter
  split
  · exact h
  · rename_i sc b hargs
    split
    · rename_i w1 hlock
      cases lockSchema_ok.mp hlock with
      | before => exact h
      | now nodes leaves hl hf =>
        refine fun _ => ⟨sc.children, hcall sc ?_, hf⟩
        unfold checkArguments at hargs
        split at hargs
        · rename_i hschema _
          split_ifs at hargs
          cases hargs
          exact hschema
        · cases hargs
    · exact h

/-- **The locked schema of a run is of the type of its batches.** -/
theorem typedLock_run {ops : List Op} {statuses : List N2PStatus} (hopen : w.out.isOpen = true)
    (hrun : run X w ops = some (statuses, w')) (htyped : Typed fields ops)
    (h : TypedLock fields w) : TypedLock fields w' := by
  refine TypedLock.same ?_ (sameSchema_run hopen hrun)
  unfold Typed at htyped
  clear hrun hopen
  generalize handedOver ops = calls at htyped
  induction calls generalizing w with
  | nil => exact h
  | cons call calls ih =>
    exact ih (h.lockAfter (htyped call List.mem_cons_self))
      fun c hc => htyped c (List.mem_cons_of_mem call hc)

end Lock

/-- A run and then another. -/
theorem run_append {X : External} {w w1 w2 : Writer} {ops ops' : List Op}
    {statuses statuses' : List N2PStatus} (h : run X w ops = some (statuses, w1))
    (h' : run X w1 ops' = some (statuses', w2)) :
    run X w (ops ++ ops') = some (statuses ++ statuses', w2) := by
  induction ops generalizing w statuses with
  | nil =>
    cases h
    exact h'
  | cons op ops ih =>
    obtain ⟨status, w', rest, hop, hrest, rfl⟩ := run_cons.mp h
    exact run_cons.mpr ⟨status, w', _, hop, ih hrest, rfl⟩

/-! ## One codec -/

section OneCodec

variable {X : External} {w w' : Writer}

/-- A batch is written with the codec that is set, and leaves it set. -/
theorem writeBatch_codec {schema : Option ArrowSchema} {batch : Option ArrowArray}
    {status : N2PStatus} (h : n2pWriterWriteBatch X w schema batch = some (status, w')) :
    w'.codec = w.codec := by
  rcases writeBatch_cases h with ⟨rfl, hok⟩ | ⟨_, ⟨e, t, msg, _, hf, rfl⟩ | ⟨_, msg, rfl⟩⟩
  · obtain ⟨sc, b, w1, xs, _, hlock, _, rfl, _⟩ := writeOneBatch_ok hok
    exact hlock.settings.1
  · rcases hf with ⟨msg', _⟩ | ⟨sc, b, w1, t, _, hlock, hleaves⟩ | ⟨sc, b, w1, xs, _, hlock, _, _⟩
    · rfl
    · obtain ⟨pieces, msg', rfl⟩ := ((onlyStreams_writeLeaves _ _ _ _).error hleaves).1
      exact hlock.settings.1
    · exact hlock.settings.1
  · rfl

/-- **Between two changes of the codec one codec is used.** -/
theorem oneCodec_run {ops : List Op} {statuses : List N2PStatus}
    (hset : ∀ codec, .setCodec codec ∉ ops) (hrun : run X w ops = some (statuses, w')) :
    w'.codec = w.codec ∧ ∀ codec ∈ usedCodecs X w ops, codec = w.codec := by
  induction ops generalizing w statuses with
  | nil =>
    cases hrun
    exact ⟨rfl, fun _ h => absurd h List.not_mem_nil⟩
  | cons op ops ih =>
    obtain ⟨status, w1, rest, hop, hrest, _⟩ := run_cons.mp hrun
    have hkept : w1.codec = w.codec := by
      cases op with
      | setCodec codec => exact absurd List.mem_cons_self (hset codec)
      | setEncoding encoding =>
        simp only [Op.apply, Option.some.injEq] at hop
        unfold n2pWriterSetEncoding at hop
        split at hop <;> cases hop <;> rfl
      | writeBatch schema batch => exact writeBatch_codec hop
    obtain ⟨hcodec, hused⟩ := ih (fun codec h => hset codec (List.mem_cons_of_mem op h)) hrest
    rw [hkept] at hcodec hused
    refine ⟨hcodec, fun codec hmem => ?_⟩
    rw [usedCodecs, hop] at hmem
    rcases List.mem_append.mp hmem with hnow | hlater
    · unfold usedCodec at hnow
      split at hnow
      · exact List.mem_singleton.mp hnow
      · cases hnow
    · exact hused codec hlater

/-- A setting of the codec and batches. -/
theorem oneCodec_set {setting : Int} {ops : List Op} {statuses : List N2PStatus}
    (hset : ∀ codec, .setCodec codec ∉ ops)
    (hrun : run X w (.setCodec setting :: ops) = some (statuses, w')) :
    ∀ codec ∈ usedCodecs X w (.setCodec setting :: ops), codec = w'.codec := by
  obtain ⟨status, w1, rest, hop, hrest, _⟩ := run_cons.mp hrun
  obtain ⟨hcodec, hused⟩ := oneCodec_run hset hrest
  have hgroups : w1.rowGroups = w.rowGroups := by
    simp only [Op.apply, Option.some.injEq] at hop
    unfold n2pWriterSetCodec at hop
    split_ifs at hop <;> cases hop <;> rfl
  intro codec hmem
  rw [usedCodecs, hop] at hmem
  dsimp only at hmem
  rw [usedCodec_none hgroups, List.nil_append] at hmem
  rw [hcodec]
  exact hused codec hmem

end OneCodec

/-! ## The file -/

/-- A leaf has no more definition levels than nodes on its path. -/
theorem Columnar.LeafAt.maxDef {columns : List ArrowSchema} {leaf : LeafSpec}
    (hof : LeafOfColumns columns leaf) {path : List PathNode} {t : ArrowType}
    (h : LeafAt path t leaf) : leaf.maxDefLevel ≤ path.length := by
  obtain ⟨_, hcount, _⟩ := flat_path hof h.flat
  rw [← hcount, h.optional]
  exact List.count_le_length.trans (by rw [List.length_map])

/-- The leaves of a type are not nested deeper than an `int` counts. -/
def Shallow (fields : Members) : Prop := ∀ p ∈ fields.leaves 0, p.1.length ≤ INT32_MAX

/-- **Each accepted batch is read back as the table its rows make.** -/
theorem readFile_typed {R : FileDecoders} {X : External} (hR : R.Inverts X) (hbits : BitmapLevels X)
    {capacity : Nat} {room : Option Nat} {path : String} {ops : List Op} {statuses : List N2PStatus}
    {w : Writer}
    (hrun : run X (n2pWriterOpen (openedStream capacity room true) path).2 ops = some (statuses, w))
    (hclose : (n2pWriterClose X w).1 = .ok)
    (hcodec : ∀ codec ∈ usedCodecs X (n2pWriterOpen (openedStream capacity room true) path).2 ops,
      codec = w.codec)
    {fields : Members} (hshallow : Shallow fields) (htyped : Typed fields ops)
    {batches : List (List Cells)}
    (hdenotes : List.Forall₂ (fun batch rows => Denotes fields rows batch) (accepted ops statuses)
      batches) {tables : List (List TableColumn)}
    (htables : batches.mapM (tableOf fields) = some tables) :
    readFile R (n2pWriterClose X w).2.file = some tables := by
  obtain ⟨u, gs, hclosed, hu, hbatches, hcodecs⟩ := closedRun_of_close hrun hclose
  rw [← hbatches] at hdenotes
  rw [← hcodecs] at hcodec
  have hlock : TypedLock fields u := typedLock_run rfl hu htyped nofun
  -- the leaves of the file are those of the type
  have hleaves : gs = [] ∧ w.leaves = [] ∨ ∃ columns nodes, membersOf columns = some fields ∧
      flattenColumns columns 0 ([], []) = .ok (nodes, w.leaves) := by
    rw [← hclosed.leaves]
    cases hl : u.schemaLocked with
    | true =>
      obtain ⟨columns, hfields, hflat⟩ := hlock hl
      exact .inr ⟨columns, _, hfields, hflat⟩
    | false =>
      exact .inl ⟨hclosed.layout.recorded.unlocked hl, (hclosed.blank hl).2.1⟩
  rcases hleaves with ⟨rfl, hleaves⟩ | ⟨columns, nodes, hfields, hflat⟩
  · cases hdenotes
    cases htables
    obtain ⟨table, htable, hread⟩ := hclosed.readFile hR hbits
      (fun _ h => absurd h List.not_mem_nil) (by simp [hleaves])
      (fun _ h => absurd h List.not_mem_nil)
    cases htable
    exact hread
  · have hint : ∀ leaf ∈ w.leaves, leaf.maxDefLevel ≤ INT32_MAX := by
      obtain ⟨leaves, hout, hall⟩ := flattenColumns_leaves fields 0 hfields hflat
      rw [List.nil_append] at hout
      change w.leaves = leaves at hout
      intro leaf hleaf
      rw [hout] at hleaf
      obtain ⟨i, hi, rfl⟩ := List.getElem_of_mem hleaf
      obtain ⟨hlen, hat⟩ := List.forall₂_iff_get.mp hall
      have hp := List.get_mem (fields.leaves 0) ⟨i, hlen ▸ hi⟩
      have hat := hat i (hlen ▸ hi) hi
      have hof := leafOf_of_flattenColumns hflat leaves[i] (by rw [hout]; exact hleaf)
      exact (hat.maxDef hof).trans (hshallow _ hp)
    have hdenoted : ∀ {bs : List ArrowArray} {batches tables},
        List.Forall₂ (fun batch rows => Denotes fields rows batch) bs batches →
        batches.mapM (tableOf fields) = some tables →
        (∀ batch ∈ bs, ∀ leaf ∈ w.leaves, LeafArrays leaf batch) ∧
          bs.mapM (batchColumns w.leaves) = some tables := by
      intro bs batches tables hall htables
      induction hall generalizing tables with
      | nil => exact ⟨fun _ h => absurd h List.not_mem_nil, htables⟩
      | @cons batch rows bs batches hbatch _ ih =>
        rw [List.mapM_cons] at htables
        obtain ⟨table, htable, htables⟩ := Option.bind_eq_some_iff.mp htables
        obtain ⟨tables', htables', htables⟩ := Option.bind_eq_some_iff.mp htables
        cases htables
        obtain ⟨harrays, hcolumns⟩ := batchColumns_denoted hfields hflat hbatch
        obtain ⟨harrays', hcolumns'⟩ := ih htables'
        refine ⟨fun b hb => ?_, ?_⟩
        · rcases List.mem_cons.mp hb with rfl | hb
          · exact harrays
          · exact harrays' b hb
        · rw [List.mapM_cons, hcolumns', show batchColumns w.leaves batch = some table from
            hcolumns htable]
          rfl
    obtain ⟨harrays, hcolumns⟩ := hdenoted hdenotes htables
    obtain ⟨table, htable, hread⟩ := hclosed.readFile hR hbits hcodec hint harrays
    rw [hcolumns] at htable
    cases htable
    exact hread

end N2P
