import N2P.Schema

/-!
# The column types `map_format` accepts

`ColumnKind` lists the column types there are, and `ColumnKind.spec` is the `ColumnSpec` of each.
`mapFormat_kind`: every accepted format string gives the spec of one of them, so a statement about
every accepted leaf type is a case analysis on `ColumnKind`.
-/

namespace N2P

inductive ColumnKind where
  | null
  | bool
  /-- `w = 1` or `2` bytes, stored as INT32. -/
  | narrow (w : Nat) (signed : Bool) (hw : w = 1 ∨ w = 2)
  | int32 (unsigned : Bool)
  | int64 (unsigned : Bool)
  | float
  | double
  | fixed (width : Nat) (pos : 0 < width)
  | bytes (utf8 large : Bool)

def ColumnKind.converted : ColumnKind → Option ConvertedType
  | .narrow 1 true _ => some .int8
  | .narrow 1 false _ => some .uint8
  | .narrow _ true _ => some .int16
  | .narrow _ false _ => some .uint16
  | .int32 true => some .uint32
  | .int64 true => some .uint64
  | .bytes true _ => some .utf8
  | _ => none

def ColumnKind.spec (k : ColumnKind) (name : String) (nullable : Bool) : ColumnSpec :=
  match k with
  | .null => { name, type := .int32, extract := .null, nullable := true }
  | .bool => { name, type := .boolean, extract := .bool, nullable }
  | .narrow w signed _ =>
    { name, type := .int32, extract := .widenInt, srcWidth := w, signExtend := signed,
      converted := k.converted, nullable }
  | .int32 _ => { name, type := .int32, srcWidth := 4, converted := k.converted, nullable }
  | .int64 _ => { name, type := .int64, srcWidth := 8, converted := k.converted, nullable }
  | .float => { name, type := .float, srcWidth := 4, nullable }
  | .double => { name, type := .double, srcWidth := 8, nullable }
  | .fixed width _ =>
    { name, type := .fixedLenByteArray, srcWidth := width, typeLength := width, nullable }
  | .bytes _ large =>
    { name, type := .byteArray, extract := .byteArray, converted := k.converted,
      largeOffsets := large, nullable }

@[simp] theorem ColumnKind.spec_name (k : ColumnKind) (name : String) (nullable : Bool) :
    (k.spec name nullable).name = name := by
  cases k <;> rfl

theorem ite_eq_ok {ε α : Type} {c : Prop} [Decidable c] {x y : Except ε α} {a : α}
    (h : (if c then x else y) = .ok a) : c ∧ x = .ok a ∨ ¬c ∧ y = .ok a := by
  by_cases hc : c
  · rw [if_pos hc] at h; exact .inl ⟨hc, h⟩
  · rw [if_neg hc] at h; exact .inr ⟨hc, h⟩

/-- **Every accepted format is one of the kinds**; only the null type is nullable by itself. -/
theorem mapFormat_kind {format : Option String} {name : String} {nullable : Bool}
    {spec : ColumnSpec} (h : mapFormat format name nullable = .ok spec) :
    ∃ k : ColumnKind, spec = k.spec name nullable ∧ (k = .null ↔ format = some "n") := by
  cases format with
  | none => cases h
  | some f =>
    have pick : ∀ (k : ColumnKind) {x : ColumnSpec}, x = k.spec name nullable → k ≠ .null →
        f ≠ "n" → (Except.ok x : Except Fault ColumnSpec) = .ok spec →
        ∃ k : ColumnKind, spec = k.spec name nullable ∧ (k = .null ↔ some f = some "n") := by
      intro k x hx hk hf h
      cases h
      exact ⟨k, hx, by simp [hk, hf]⟩
    unfold mapFormat at h
    rcases ite_eq_ok h with ⟨hn, h⟩ | ⟨hn, h⟩
    · cases h
      exact ⟨.null, rfl, by simp [hn]⟩
    rcases ite_eq_ok h with ⟨_, h⟩ | ⟨_, h⟩
    · exact pick .bool rfl (by simp) hn h
    rcases ite_eq_ok h with ⟨_, h⟩ | ⟨_, h⟩
    · exact pick (.narrow 1 true (.inl rfl)) rfl (by simp) hn h
    rcases ite_eq_ok h with ⟨_, h⟩ | ⟨_, h⟩
    · exact pick (.narrow 1 false (.inl rfl)) rfl (by simp) hn h
    rcases ite_eq_ok h with ⟨_, h⟩ | ⟨_, h⟩
    · exact pick (.narrow 2 true (.inr rfl)) rfl (by simp) hn h
    rcases ite_eq_ok h with ⟨_, h⟩ | ⟨_, h⟩
    · exact pick (.narrow 2 false (.inr rfl)) rfl (by simp) hn h
    rcases ite_eq_ok h with ⟨_, h⟩ | ⟨_, h⟩
    · exact pick (.int32 false) rfl (by simp) hn h
    rcases ite_eq_ok h with ⟨_, h⟩ | ⟨_, h⟩
    · exact pick (.int32 true) rfl (by simp) hn h
    rcases ite_eq_ok h with ⟨_, h⟩ | ⟨_, h⟩
    · exact pick (.int64 false) rfl (by simp) hn h
    rcases ite_eq_ok h with ⟨_, h⟩ | ⟨_, h⟩
    · exact pick (.int64 true) rfl (by simp) hn h
    rcases ite_eq_ok h with ⟨_, h⟩ | ⟨_, h⟩
    · exact pick .float rfl (by simp) hn h
    rcases ite_eq_ok h with ⟨_, h⟩ | ⟨_, h⟩
    · exact pick .double rfl (by simp) hn h
    rcases ite_eq_ok h with ⟨_, h⟩ | ⟨_, h⟩
    · -- fixed_size_binary: the width is what atoi reads, and positive
      cases hw : atoi (f.toList.drop 2) with
      | error e => simp [hw] at h
      | ok n =>
        simp only [hw] at h
        rcases ite_eq_ok h with ⟨_, h⟩ | ⟨hpos, h⟩
        · cases h
        · exact pick (.fixed n.toNat (by omega)) rfl (by simp) hn h
    rcases ite_eq_ok h with ⟨_, h⟩ | ⟨_, h⟩
    · exact pick (.bytes true (f = "U")) rfl (by simp) hn h
    rcases ite_eq_ok h with ⟨_, h⟩ | ⟨_, h⟩
    · exact pick (.bytes false (f = "Z")) rfl (by simp) hn h
    · cases h

end N2P
