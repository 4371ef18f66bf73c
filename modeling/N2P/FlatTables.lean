import N2P.TypedFiles

/-!
# Tables of fixed-width columns

A record batch whose columns are REQUIRED and of fixed width is its elements, one column behind the
other.

* `FlatColumn` — a column's name, its type and its elements.
* `denotes_flat` — the batch denotes the rows read across the columns.
-/

namespace N2P.Columnar

/-- Bytes of an element; the other types have no width of their own. -/
def ArrowType.byteWidth : ArrowType → Option Nat
  | .int _ w => some w
  | .float w => some w
  | .fixedSizeBinary w => some w
  | .bool | .binary _ _ => none

/-- No field is a struct. -/
def Members.Flat : Members → Prop
  | .nil => True
  | .cons _ _ (.leaf _) rest => rest.Flat
  | .cons _ _ (.struct _) _ => False

theorem Members.Flat.leaves {fields : Members} (h : fields.Flat) (i : Nat) :
    ∀ p ∈ fields.leaves i, p.1.length = 1 := by
  fun_induction Members.Flat fields generalizing i with
  | case1 =>
    intro p hp
    rw [Members.leaves] at hp
    cases hp
  | case2 name nullable t rest ih =>
    intro p hp
    rw [Members.leaves, Shape.leaves] at hp
    rcases List.mem_append.mp hp with hp | hp
    · cases List.mem_singleton.mp hp
      rfl
    · exact ih h (i + 1) p hp
  | case3 => exact h.elim

theorem Members.Flat.shallow {fields : Members} (h : fields.Flat) : Shallow fields := by
  intro p hp
  rw [h.leaves 0 p hp]
  decide

/-- What an element's bytes stand for. -/
def ArrowType.scalar (t : ArrowType) (e : Bytes) : Scalar :=
  match t with
  | .int signed _ => .int (if signed then signedLE e else ByteSeq.ofLE e)
  | .float _ => .float (ByteSeq.ofLE e)
  | _ => .bytes e

/-- A column without nulls. -/
structure FlatColumn where
  name : String
  type : ArrowType
  elems : List Bytes

/-- As many elements as there are rows, each as wide as the type. -/
structure FlatColumn.Whole (n : Nat) (c : FlatColumn) : Prop where
  length : c.elems.length = n
  width : ∃ w, c.type.byteWidth = some w ∧ ∀ e ∈ c.elems, e.length = w

/-- `n` slots over one data buffer. -/
def flatArray (n : Nat) (dat : Bytes) : ArrowArray :=
  { length := n, nullCount := 0, offset := 0, nBuffers := 2, nChildren := 0,
    buffers := some [none, some dat], children := none }

def flatFields : List FlatColumn → Members
  | [] => .nil
  | c :: cs => .cons c.name false (.leaf c.type) (flatFields cs)

/-- Row `i`, read across the columns. -/
def rowAcross (i : Nat) : List FlatColumn → Cells
  | [] => .nil
  | c :: cs => .cons (.scalar (c.type.scalar (c.elems[i]?.getD []))) (rowAcross i cs)

def rowsAcross (n : Nat) (columns : List FlatColumn) : List Cells :=
  (List.range n).map (rowAcross · columns)

def flatBatch (n : Nat) (columns : List FlatColumn) : ArrowArray :=
  .struct n none 0 (columns.map fun c => flatArray n c.elems.flatten)

section Flat

variable {n : Nat} {c : FlatColumn} {columns : List FlatColumn}

theorem flatArray_exact (h : c.Whole n) : Exact n (.leaf c.type) (flatArray n c.elems.flatten) := by
  obtain ⟨w, hw, _⟩ := h.width
  rw [Exact]
  have hbuffers : c.type.buffers = 2 := by
    cases htype : c.type with
    | binary text w' => rw [htype] at hw; cases hw
    | _ => rfl
  refine ⟨⟨rfl, rfl, ?_, rfl, none, rfl, rfl⟩, fun text w' htype => ?_⟩
  · rw [hbuffers]
    exact ⟨rfl, _, rfl, rfl⟩
  · rw [htype] at hw
    cases hw

/-- The writer's type of a fixed-width column is as wide. -/
theorem kind_byteWidth {t : ArrowType} {w : Nat} {k : ColumnKind} (hw : t.byteWidth = some w)
    (hk : t.kind = some k) :
    k.width = w ∧ k ≠ .bool ∧ ∀ utf8 large, k ≠ .bytes utf8 large := by
  unfold ArrowType.kind at hk
  split at hk <;> try split at hk
  all_goals cases hk
  all_goals cases hw
  all_goals exact ⟨rfl, (fun h => by cases h), fun _ _ h => by cases h⟩

theorem flatArray_buffered (hn : n < 2 ^ 63) (h : c.Whole n) :
    Buffered (.leaf c.type) (flatArray n c.elems.flatten) := by
  obtain ⟨w, hw, hsize⟩ := h.width
  rw [Buffered]
  intro k hk
  obtain ⟨hwidth, hbool, hbytes⟩ := kind_byteWidth hw hk
  refine ⟨⟨Int.natCast_nonneg n, Int.ofNat_lt.mpr hn⟩, fun _ => ⟨_, rfl⟩, fun h => absurd h hbool, ?_,
    fun utf8 large h => absurd h (hbytes utf8 large)⟩
  show (n : Int).toNat * k.width ≤ c.elems.flatten.length
  rw [hwidth, ByteSeq.length_flatten hsize, h.length]
  exact le_refl _

theorem flatArray_cell {i : Nat} (h : c.Whole n) (hi : i < n) :
    cellAt (.leaf c.type) (flatArray n c.elems.flatten) i =
      .ok (.scalar (c.type.scalar (c.elems[i]?.getD []))) := by
  obtain ⟨w, hw, hsize⟩ := h.width
  have hlen : i < c.elems.length := by rw [h.length]; exact hi
  have hget : c.elems[i]? = some c.elems[i] := List.getElem?_eq_getElem hlen
  have hread : readElem w c.elems.flatten i = .ok c.elems[i] := by
    have hbytes : n * w ≤ c.elems.flatten.length := by
      rw [ByteSeq.length_flatten hsize, h.length]
    rw [(readElem_ok hbytes hi).1, ByteSeq.element_flatten hsize hget]
  rw [cellAt_leaf rfl rfl hi rfl rfl, if_pos rfl, hget, Option.getD_some]
  unfold scalarAt ArrowType.scalar
  cases htype : c.type with
  | int signed w' | float w' | fixedSizeBinary w' =>
    rw [htype] at hw
    cases hw
    show Except.map _ (Except.map _ (readElem _ c.elems.flatten i)) = _
    rw [hread]
    rfl
  | bool | binary text w' =>
    rw [htype] at hw
    cases hw

/-- **A batch of fixed-width columns denotes its rows.** -/
theorem denotes_flat (hn : n < 2 ^ 63) (h : ∀ c ∈ columns, c.Whole n) :
    Denotes (flatFields columns) (rowsAcross n columns) (flatBatch n columns) := by
  have hlen : (rowsAcross n columns).length = n := by simp [rowsAcross]
  have hall : ExactAll n (flatFields columns)
        (columns.map fun c => flatArray n c.elems.flatten) ∧
      BufferedAll (flatFields columns) (columns.map fun c => flatArray n c.elems.flatten) ∧
      ∀ i < n, cellsAt (flatFields columns) (columns.map fun c => flatArray n c.elems.flatten) i =
        .ok (rowAcross i columns) := by
    clear hlen
    induction columns with
    | nil => exact ⟨by simp [flatFields, ExactAll], by simp [flatFields, BufferedAll], fun _ _ => rfl⟩
    | cons c columns ih =>
      have hc := h c List.mem_cons_self
      obtain ⟨hexact, hbuffered, hcells⟩ := ih fun c' hc' => h c' (List.mem_cons_of_mem c hc')
      refine ⟨?_, ?_, fun i hi => ?_⟩
      · rw [flatFields, List.map_cons, ExactAll]
        exact ⟨flatArray_exact hc, hexact⟩
      · rw [flatFields, List.map_cons, BufferedAll]
        exact ⟨flatArray_buffered hn hc, hbuffered⟩
      · rw [flatFields, List.map_cons, cellsAt, flatArray_cell hc hi, hcells i hi]
        rfl
  obtain ⟨hexact, hbuffered, hcells⟩ := hall
  have hfields : (flatFields columns).length = columns.length := by
    clear h hexact hbuffered hcells hlen
    induction columns with
    | nil => rfl
    | cons c columns ih => rw [flatFields, Members.length, ih, List.length_cons]
  refine ⟨?_, ?_, fun {i row} hrow => ?_⟩
  · rw [hlen, Exact, hfields]
    refine ⟨⟨rfl, rfl, ⟨rfl, _, rfl, rfl⟩, ?_, none, rfl, rfl⟩, _, rfl, hexact⟩
    show ((columns.map _).length : Int) = _
    rw [List.length_map]
  · rw [Buffered]
    intro children hc
    cases hc
    exact hbuffered
  · obtain ⟨hi, _⟩ := List.getElem?_eq_some_iff.mp hrow
    rw [hlen] at hi
    obtain rfl : rowAcross i columns = row := by
      unfold rowsAcross at hrow
      rw [List.getElem?_map, List.getElem?_range hi] at hrow
      exact Option.some.inj hrow
    unfold flatBatch
    rw [cellAt_struct rfl rfl hi rfl rfl rfl, hcells i hi]
    rfl

theorem flatFields_flat : (flatFields columns).Flat := by
  induction columns with
  | nil => exact trivial
  | cons c columns ih => exact ih

/-- A column of a flat table is not nested. -/
theorem flat_shallow : Shallow (flatFields columns) := flatFields_flat.shallow

/-- The rows are of the type. -/
theorem rowsAcross_hold : ∀ row ∈ rowsAcross n columns, (flatFields columns).Holds row := by
  intro row hrow
  obtain ⟨i, _, rfl⟩ := List.mem_map.mp hrow
  clear hrow
  induction columns with
  | nil => simp [flatFields, rowAcross, Members.Holds]
  | cons c columns ih =>
    rw [flatFields, rowAcross, Members.Holds]
    exact ⟨.inr (by rw [Shape.Holds]; exact trivial), ih⟩

end Flat

end N2P.Columnar
