import N2P.LockedSchema

/-!
# The schemas the parser accepts

`Representable` says which Arrow schema trees the writer's documentation promises to write.
`flatten_node` reads less than that: it never looks at `dictionary`, hands a null format to
`strcmp`, and reads a width with `atoi`.

* `defects` — the nodes of a tree where the parser and `Representable` part, in the order the parser
  meets them, with what it does there.
* `flattenNode_ends` — the parser ends as the first defect it does not overlook says.
* `acceptsExactly_iff` — the schemas on which the parser accepts exactly what can be represented.
* `not_acceptsExactly_coded` — a dictionary-encoded column is one on which it does not, a column
  without a format another.
-/

namespace N2P

open Outcome

/-! ## Representable schemas -/

/-- The formats of the columns without a parameter. -/
def plainFormats : List String :=
  ["n", "b", "c", "C", "s", "S", "i", "I", "l", "L", "f", "g", "u", "U", "z", "Z"]

/-- The number that decimal digits spell. -/
def decimal (digits : List Char) : Nat :=
  digits.foldl (fun n c => 10 * n + (c.toNat - '0'.toNat)) 0

/-- `w:` and the digits of a positive `int`, and nothing else. -/
def isWidthFormat (format : String) : Bool :=
  match format.toList with
  | 'w' :: ':' :: digits =>
    digits ≠ [] && digits.all Char.isDigit && 0 < decimal digits && decimal digits < 2 ^ 31
  | _ => false

/-- The formats of leaves. -/
def isLeafFormat (format : String) : Bool := plainFormats.contains format || isWidthFormat format

/-- The schema trees that Parquet columns can stand for. -/
inductive Representable : ArrowSchema → Prop where
  | leaf {format : String} {name : Option String} {flags : Nat} (hf : isLeafFormat format = true) :
      Representable ⟨some format, name, flags, [], none⟩
  | struct {name : Option String} {flags : Nat} {children : List ArrowSchema} (hne : children ≠ [])
      (h : ∀ c ∈ children, Representable c) :
      Representable ⟨some "+s", name, flags, children, none⟩
  | list {format : String} {name : Option String} {flags : Nat} {child : ArrowSchema}
      (hf : format = "+l" ∨ format = "+L") (h : Representable child) :
      Representable ⟨some format, name, flags, [child], none⟩
  | map {name entriesName : Option String} {flags entriesFlags : Nat} {key value : ArrowSchema}
      (hk : Representable key) (hv : Representable value) :
      Representable ⟨some "+m", name, flags,
        [⟨some "+s", entriesName, entriesFlags, [key, value], none⟩], none⟩

/-! ## Defects -/

/-- What the parser does at a node that is not one of a representable tree. -/
inductive Defect where
  /-- It overlooks it. -/
  | lax
  /-- It refuses the schema. -/
  | refused
  /-- Its behaviour is undefined. -/
  | undefined
  deriving DecidableEq, Repr

/-- A leaf's format. -/
def formatDefects : Option String → List Defect
  | none => [.undefined] -- strcmp on a null pointer
  | some f =>
    if isLeafFormat f then []
    else if f.toList.take 2 = ['w', ':'] then
      match atoi (f.toList.drop 2) with
      | .error _ => [.undefined]
      | .ok n => if n ≤ 0 then [.refused] else [.lax]
    else [.refused]

/-- Something that should not be there, and is not looked at. -/
def overlooked (there : Bool) : List Defect := if there then [.lax] else []

mutual
/-- The defects of a tree in the parser's order. -/
def defects (node : ArrowSchema) : List Defect :=
  match node with
  | ⟨format, _, _, children, dictionary⟩ =>
    overlooked dictionary.isSome ++
      if format = some "+s" then overlooked children.isEmpty ++ defectsAll children
      else if format = some "+l" ∨ format = some "+L" then
        match children with
        | [child] => defects child
        | _ => [.refused]
      else if format = some "+m" then
        match children with
        | [⟨entriesFormat, _, _, [key, value], entriesDictionary⟩] =>
          if entriesFormat = some "+s" then
            overlooked entriesDictionary.isSome ++ (defects key ++ defects value)
          else [.refused]
        | _ => [.refused]
      else overlooked (!children.isEmpty) ++ formatDefects format

def defectsAll (children : List ArrowSchema) : List Defect :=
  match children with
  | [] => []
  | child :: rest => defects child ++ defectsAll rest
end

/-- The first defect the parser does not overlook. -/
def fatal (ds : List Defect) : Option Defect := ds.find? fun d => d ≠ .lax

@[simp] theorem fatal_append (ds es : List Defect) :
    fatal (ds ++ es) = (fatal ds).or (fatal es) := List.find?_append

@[simp] theorem fatal_overlooked (there : Bool) : fatal (overlooked there) = none := by
  cases there <;> rfl

@[simp] theorem overlooked_eq_nil {there : Bool} : overlooked there = [] ↔ there = false := by
  cases there <;> simp [overlooked]

/-! ## Leaves -/

theorem digitsValue_digits (digits : List Char) (h : digits.all Char.isDigit = true) (n : Nat) :
    digitsValue n digits = digits.foldl (fun n c => 10 * n + (c.toNat - '0'.toNat)) n := by
  induction digits generalizing n with
  | nil => rfl
  | cons c cs ih =>
    rw [List.all_cons, Bool.and_eq_true] at h
    rw [digitsValue, if_pos h.1, List.foldl_cons]
    exact ih h.2 _

/-- On digits `atoi` reads the number they spell, if it fits an `int`. -/
theorem atoi_numeral {digits : List Char} (hne : digits ≠ [])
    (h : digits.all Char.isDigit = true) :
    atoi digits = if decimal digits < 2 ^ 31 then .ok (decimal digits : Int)
      else .error .undefined := by
  cases digits with
  | nil => exact absurd rfl hne
  | cons c cs =>
    have hdigit : c.isDigit = true := by
      rw [List.all_cons, Bool.and_eq_true] at h
      exact h.1
    have hc : 48 ≤ c.toNat := by
      unfold Char.isDigit at hdigit
      rw [Bool.and_eq_true, decide_eq_true_iff] at hdigit
      exact UInt32.le_iff_toNat_le.mp hdigit.1
    have hspace : isSpace c = false := by
      unfold isSpace
      simp only [Bool.or_eq_false_iff, Bool.and_eq_false_iff, decide_eq_false_iff_not]
      refine ⟨?_, .inr ?_⟩
      · rintro rfl
        exact absurd hdigit (by decide)
      · intro hle
        have hle : c.toNat ≤ 13 := hle
        omega
    have hminus : c ≠ '-' := by
      rintro rfl
      exact absurd hdigit (by decide)
    have hplus : c ≠ '+' := by
      rintro rfl
      exact absurd hdigit (by decide)
    have hread : digitsValue 0 (c :: cs) = decimal (c :: cs) := digitsValue_digits _ h 0
    unfold atoi
    rw [List.dropWhile_cons_of_neg (by simp [hspace])]
    split
    · rename_i heq
      cases heq
      exact absurd rfl hminus
    · rename_i heq
      cases heq
      exact absurd rfl hplus
    · rw [hread]
      refine if_congr ?_ rfl rfl
      omega

theorem atoi_digits {digits : List Char} (hne : digits ≠ []) (h : digits.all Char.isDigit = true)
    (hfits : decimal digits < 2 ^ 31) : atoi digits = .ok (decimal digits) := by
  rw [atoi_numeral hne h, if_pos hfits]

theorem atoi_error {s : List Char} {e : Fault} (h : atoi s = .error e) : e = .undefined := by
  have hfits : ∀ n : Int, (if -(2 ^ 31) ≤ n ∧ n < 2 ^ 31 then (.ok n : Except Fault Int)
      else .error .undefined) = .error e → e = .undefined := by
    intro n hn
    by_cases hbounds : -(2 ^ 31) ≤ n ∧ n < 2 ^ 31
    · rw [if_pos hbounds] at hn
      cases hn
    · rw [if_neg hbounds] at hn
      exact (Except.error.inj hn).symm
  exact hfits _ h

/-- How a step of the parser ends, by the first defect it does not overlook. -/
inductive Ends {α : Type} (good : α → Prop) : Option Defect → Except Fault α → Prop where
  | ok {a : α} (h : good a) : Ends good none (.ok a)
  | refused (why : Refusal) : Ends good (some .refused) (.error (.refused why))
  | undefined : Ends good (some .undefined) (.error .undefined)

theorem Ends.of_none {α : Type} {good : α → Prop} {x : Except Fault α} (h : Ends good none x) :
    ∃ a, x = .ok a ∧ good a := by
  cases h with
  | ok hgood => exact ⟨_, rfl, hgood⟩

theorem Ends.of_undefined {α : Type} {good : α → Prop} {x : Except Fault α}
    (h : Ends good (some .undefined) x) : x = .error .undefined := by
  cases h
  rfl

theorem Ends.eq_none {α : Type} {good : α → Prop} {d : Option Defect} {a : α}
    (h : Ends good d (.ok a)) : d = none := by
  cases h
  rfl

theorem Ends.refused_of_error {α : Type} {good : α → Prop} {d : Option Defect} {e : Fault}
    (h : Ends good d (.error e)) (hdefined : d ≠ some .undefined) :
    ∃ why, e = .refused why := by
  cases h with
  | refused why => exact ⟨why, rfl⟩
  | undefined => exact absurd rfl hdefined

/-- Outside the formats without a parameter only a width is left. -/
theorem mapFormat_width {f : String} (h : ∀ g ∈ plainFormats, f ≠ g) (name : String)
    (nullable : Bool) :
    Ends (fun _ => True)
      (fatal (if f.toList.take 2 = ['w', ':'] then
        match atoi (f.toList.drop 2) with
        | .error _ => [.undefined]
        | .ok n => if n ≤ 0 then [.refused] else [.lax]
      else [.refused])) (mapFormat (some f) name nullable) := by
  simp only [plainFormats, List.mem_cons, List.not_mem_nil, or_false, forall_eq_or_imp,
    forall_eq] at h
  obtain ⟨h1, h2, h3, h4, h5, h6, h7, h8, h9, h10, h11, h12, h13, h14, h15, h16⟩ := h
  unfold mapFormat
  dsimp only
  rw [if_neg h1, if_neg h2, if_neg h3, if_neg h4, if_neg h5, if_neg h6, if_neg h7, if_neg h8,
    if_neg h9, if_neg h10, if_neg h11, if_neg h12]
  by_cases hw : f.toList.take 2 = ['w', ':']
  · rw [if_pos hw, if_pos hw]
    cases hn : atoi (f.toList.drop 2) with
    | error e =>
      rw [atoi_error hn]
      exact .undefined
    | ok n =>
      dsimp only
      by_cases hpos : n ≤ 0
      · rw [if_pos hpos, if_pos hpos]
        exact .refused _
      · rw [if_neg hpos, if_neg hpos]
        exact .ok trivial
  · rw [if_neg hw, if_neg hw, if_neg (not_or.mpr ⟨h13, h14⟩), if_neg (not_or.mpr ⟨h15, h16⟩)]
    exact .refused _

/-- `w:` and a positive `int` passes. -/
theorem mapFormat_digits {f : String} (h : ∀ g ∈ plainFormats, f ≠ g)
    (hwidth : isWidthFormat f = true) (name : String) (nullable : Bool) :
    Ends (fun _ => True) none (mapFormat (some f) name nullable) := by
  have hends := mapFormat_width h name nullable
  unfold isWidthFormat at hwidth
  split at hwidth
  · rename_i digits hf
    simp only [Bool.and_eq_true, decide_eq_true_iff] at hwidth
    obtain ⟨⟨⟨hne, hall⟩, hpos⟩, hfits⟩ := hwidth
    have hdrop : f.toList.drop 2 = digits := by rw [hf]; rfl
    rw [if_pos (by rw [hf]; rfl), hdrop, atoi_digits hne hall hfits] at hends
    simp only at hends
    rw [if_neg (by omega)] at hends
    exact hends
  · cases hwidth

theorem mapFormat_ends (format : Option String) (name : String) (nullable : Bool) :
    Ends (fun _ => True) (fatal (formatDefects format)) (mapFormat format name nullable) := by
  cases format with
  | none => exact .undefined
  | some f =>
    unfold formatDefects
    by_cases hplain : plainFormats.contains f = true
    · have hleaf : isLeafFormat f = true := by rw [isLeafFormat, hplain, Bool.true_or]
      dsimp only
      rw [if_pos hleaf]
      have hmem := List.contains_iff_mem.mp hplain
      simp only [plainFormats, List.mem_cons, List.not_mem_nil, or_false] at hmem
      rcases hmem with rfl | rfl | rfl | rfl | rfl | rfl | rfl | rfl | rfl | rfl | rfl | rfl |
        rfl | rfl | rfl | rfl <;> exact .ok trivial
    · have hno : ∀ g ∈ plainFormats, f ≠ g := by
        rintro g hg rfl
        exact hplain (List.contains_iff_mem.mpr hg)
      dsimp only
      by_cases hwidth : isWidthFormat f = true
      · rw [if_pos (by rw [isLeafFormat, hwidth, Bool.or_true])]
        exact mapFormat_digits hno hwidth name nullable
      · rw [if_neg (by rw [isLeafFormat, Bool.or_eq_true]; exact not_or.mpr ⟨hplain, hwidth⟩)]
        exact mapFormat_width hno name nullable

/-! ## Trees -/

/-- The parser only appends leaves, and at least one where there is no defect at all. -/
def Grows (flawless : Prop) (out out' : Flat) : Prop :=
  out.2.length ≤ out'.2.length ∧ (flawless → out.2.length < out'.2.length)

theorem flattenLeaf_ends (format : Option String) (flawless : Prop) (name : String)
    (optional : Bool) (idx : List Nat) (names : List String) (opt : List Bool)
    (steps : List PathStep) (out : Flat) :
    Ends (Grows flawless out) (fatal (formatDefects format))
      (flattenLeaf format name optional idx names opt steps out) := by
  have hends := mapFormat_ends format name optional
  unfold flattenLeaf
  generalize fatal (formatDefects format) = d at hends
  cases hs : mapFormat format name optional with
  | error e =>
    rw [hs] at hends
    cases hends with
    | refused why => exact .refused why
    | undefined => exact .undefined
  | ok spec =>
    rw [hs] at hends
    cases hends
    exact .ok ⟨by simp, by simp⟩

/-- One step after another: the second runs where the first succeeds. -/
theorem Ends.seq {α β : Type} {good : α → Prop} {good' : β → Prop} {d e : Option Defect}
    {x : Except Fault α} {y : Except Fault β} (h : Ends good d x)
    (herr : ∀ f, x = .error f → y = .error f)
    (hok : ∀ a, x = .ok a → good a → Ends good' e y) : Ends good' (d.or e) y := by
  cases h with
  | ok ha => exact hok _ rfl ha
  | refused why =>
    rw [herr _ rfl]
    exact .refused why
  | undefined =>
    rw [herr _ rfl]
    exact .undefined

theorem Ends.mono {α : Type} {good good' : α → Prop} {d : Option Defect} {x : Except Fault α}
    (h : Ends good d x) (hgood : ∀ a, good a → good' a) : Ends good' d x := by
  cases h with
  | ok ha => exact .ok (hgood _ ha)
  | refused why => exact .refused why
  | undefined => exact .undefined

mutual
/-- **The parser ends as the first defect it does not overlook says.** -/
theorem flattenNode_ends : ∀ (node : ArrowSchema) (name : String) (optional : Bool)
    (idx : List Nat) (names : List String) (opt : List Bool) (steps : List PathStep) (out : Flat),
    Ends (Grows (defects node = []) out) (fatal (defects node))
      (flattenNode node name optional idx names opt steps out)
  | ⟨format, nm, flags, children, dict⟩, name, optional, idx, names, opt, steps, out => by
    unfold flattenNode defects
    dsimp only
    rw [fatal_append, fatal_overlooked, Option.none_or]
    cases format with
    | none =>
      have hempty : (none : Option String).getD "" = "" := rfl
      rw [hempty, if_neg (by decide), if_neg (by decide), if_neg (by decide), if_neg (by decide),
        if_neg (by decide), if_neg (by decide), fatal_append, fatal_overlooked, Option.none_or]
      exact flattenLeaf_ends none _ name optional idx names opt steps out
    | some f =>
    rw [Option.getD_some]
    by_cases hs : f = "+s"
    · subst hs
      rw [if_pos rfl, if_pos rfl, fatal_append, fatal_overlooked, Option.none_or]
      refine (flattenFields_ends children 0 optional idx names opt steps _).mono ?_
      intro out' hgrow
      refine ⟨hgrow.1, fun hflaw => hgrow.2 ?_⟩
      simp only [List.append_eq_nil_iff, overlooked_eq_nil] at hflaw
      exact ⟨by simpa using hflaw.2.1, hflaw.2.2⟩
    have hs' : (some f : Option String) ≠ some "+s" := fun h => hs (Option.some.inj h)
    rw [if_neg hs, if_neg hs']
    by_cases hl : f = "+l" ∨ f = "+L"
    · rw [if_pos hl, if_pos (by simpa using hl)]
      match children with
      | [] => exact .refused _
      | _ :: _ :: _ => exact .refused _
      | [child] =>
        refine (flattenNode_ends child _ _ _ _ _ _ _).mono fun out' hgrow => ?_
        refine ⟨hgrow.1, fun hflaw => hgrow.2 ?_⟩
        simp only [List.append_eq_nil_iff] at hflaw
        exact hflaw.2
    rw [if_neg hl, if_neg (by simpa using hl)]
    by_cases hm : f = "+m"
    · subst hm
      rw [if_pos rfl, if_pos rfl]
      match children with
      | [] => exact .refused _
      | ⟨_, _, _, [], _⟩ :: _ :: _ => exact .refused _
      | ⟨_, _, _, [_], _⟩ :: _ :: _ => exact .refused _
      | ⟨_, _, _, [_, _], _⟩ :: _ :: _ => exact .refused _
      | ⟨_, _, _, _ :: _ :: _ :: _, _⟩ :: _ :: _ => exact .refused _
      | [⟨_, _, _, [], _⟩] => exact .refused _
      | [⟨_, _, _, [_], _⟩] => exact .refused _
      | [⟨_, _, _, _ :: _ :: _ :: _, _⟩] => exact .refused _
      | [⟨entriesFormat, _, _, [key, value], entriesDict⟩] =>
        by_cases he : entriesFormat = some "+s"
        swap
        · simp only [if_neg he]
          exact .refused _
        simp only [if_pos he]
        rw [fatal_append, fatal_overlooked, Option.none_or, fatal_append]
        refine Ends.seq (flattenNode_ends key _ _ _ _ _ _ _) (fun f hf => by rw [hf])
          fun mid hmid hkey => ?_
        rw [hmid]
        refine (flattenNode_ends value _ _ _ _ _ _ mid).mono fun out' hvalue => ?_
        refine ⟨Nat.le_trans hkey.1 hvalue.1, fun hflaw => ?_⟩
        simp only [List.append_eq_nil_iff] at hflaw
        exact Nat.lt_of_lt_of_le (hkey.2 hflaw.2.2.1) hvalue.1
    have hm' : (some f : Option String) ≠ some "+m" := fun h => hm (Option.some.inj h)
    rw [if_neg hm, if_neg hm', fatal_append, fatal_overlooked, Option.none_or]
    exact flattenLeaf_ends (some f) _ name optional idx names opt steps out

theorem flattenFields_ends : ∀ (children : List ArrowSchema) (i : Nat) (optional : Bool)
    (idx : List Nat) (names : List String) (opt : List Bool) (steps : List PathStep) (out : Flat),
    Ends (Grows (children ≠ [] ∧ defectsAll children = []) out) (fatal (defectsAll children))
      (flattenFields children i optional idx names opt steps out)
  | [], i, optional, idx, names, opt, steps, out => by
    unfold flattenFields defectsAll
    exact .ok ⟨Nat.le_refl _, fun h => absurd rfl h.1⟩
  | child :: rest, i, optional, idx, names, opt, steps, out => by
    unfold flattenFields defectsAll
    rw [fatal_append]
    refine Ends.seq (flattenNode_ends child _ _ _ _ _ _ out) (fun f hf => by rw [hf])
      fun mid hmid hchild => ?_
    rw [hmid]
    refine (flattenFields_ends rest _ _ _ _ _ _ mid).mono fun out' hrest => ?_
    refine ⟨Nat.le_trans hchild.1 hrest.1, fun hflaw => ?_⟩
    exact Nat.lt_of_lt_of_le (hchild.2 (List.append_eq_nil_iff.mp hflaw.2).1) hrest.1
end

/-- One column. -/
theorem flattenSchema_ends (node : ArrowSchema) (idx : List Nat) (names : List String)
    (opt : List Bool) (out : Flat) :
    Ends (Grows (defects node = []) out) (fatal (defects node))
      (flattenSchema node idx names opt out) :=
  flattenNode_ends node _ _ _ _ _ _ out

theorem flattenColumns_ends (columns : List ArrowSchema) (i : Nat) (out : Flat) :
    Ends (Grows (columns ≠ [] ∧ defectsAll columns = []) out) (fatal (defectsAll columns))
      (flattenColumns columns i out) := by
  induction columns generalizing i out with
  | nil =>
    unfold flattenColumns defectsAll
    exact .ok ⟨Nat.le_refl _, fun h => absurd rfl h.1⟩
  | cons child rest ih =>
    unfold flattenColumns defectsAll
    rw [fatal_append]
    refine Ends.seq (flattenSchema_ends child _ _ _ out) (fun f hf => by rw [hf])
      fun mid hmid hchild => ?_
    rw [hmid]
    refine (ih (i + 1) mid).mono fun out' hrest => ?_
    refine ⟨Nat.le_trans hchild.1 hrest.1, fun hflaw => ?_⟩
    exact Nat.lt_of_lt_of_le (hchild.2 (List.append_eq_nil_iff.mp hflaw.2).1) hrest.1

/-! ## No defect -/

theorem formatDefects_eq_nil {format : Option String} (h : formatDefects format = []) :
    ∃ f, format = some f ∧ isLeafFormat f = true := by
  cases format with
  | none => cases h
  | some f =>
    refine ⟨f, rfl, ?_⟩
    by_contra hno
    unfold formatDefects at h
    dsimp only at h
    rw [if_neg hno] at h
    split at h
    · split at h
      · cases h
      · split at h <;> cases h
    · cases h

/-- A leaf's format opens no group. -/
theorem isLeafFormat_ne {f : String} (h : isLeafFormat f = true) :
    f ≠ "+s" ∧ f ≠ "+l" ∧ f ≠ "+L" ∧ f ≠ "+m" := by
  refine ⟨?_, ?_, ?_, ?_⟩
  all_goals
    rintro rfl
    exact absurd h (by decide)

mutual
theorem representable_of_defects : ∀ node : ArrowSchema, defects node = [] → Representable node
  | ⟨format, nm, flags, children, dict⟩, h => by
    unfold defects at h
    rw [List.append_eq_nil_iff, overlooked_eq_nil] at h
    obtain ⟨hdict, h⟩ := h
    have hdict : dict = none := by
      cases dict with
      | none => rfl
      | some d => cases hdict
    subst hdict
    by_cases hs : format = some "+s"
    · rw [if_pos hs, List.append_eq_nil_iff, overlooked_eq_nil] at h
      subst hs
      have hne : children ≠ [] := fun he => by simp [he] at h
      exact .struct hne (representable_of_defectsAll children h.2)
    rw [if_neg hs] at h
    by_cases hl : format = some "+l" ∨ format = some "+L"
    · rw [if_pos hl] at h
      match children, h with
      | [], h => cases h
      | _ :: _ :: _, h => cases h
      | [child], h =>
        rcases hl with rfl | rfl
        · exact .list (.inl rfl) (representable_of_defects child h)
        · exact .list (.inr rfl) (representable_of_defects child h)
    rw [if_neg hl] at h
    by_cases hm : format = some "+m"
    · rw [if_pos hm] at h
      subst hm
      match children, h with
      | [], h => cases h
      | ⟨_, _, _, [], _⟩ :: _ :: _, h => cases h
      | ⟨_, _, _, [_], _⟩ :: _ :: _, h => cases h
      | ⟨_, _, _, [_, _], _⟩ :: _ :: _, h => cases h
      | ⟨_, _, _, _ :: _ :: _ :: _, _⟩ :: _ :: _, h => cases h
      | [⟨_, _, _, [], _⟩], h => cases h
      | [⟨_, _, _, [_], _⟩], h => cases h
      | [⟨_, _, _, _ :: _ :: _ :: _, _⟩], h => cases h
      | [⟨entriesFormat, _, _, [key, value], entriesDict⟩], h =>
        by_cases he : entriesFormat = some "+s"
        swap
        · simp only [if_neg he] at h
          cases h
        simp only [if_pos he, List.append_eq_nil_iff, overlooked_eq_nil] at h
        obtain ⟨hdict, hkey, hvalue⟩ := h
        subst he
        cases entriesDict with
        | some d => cases hdict
        | none =>
          exact .map (representable_of_defects key hkey) (representable_of_defects value hvalue)
    rw [if_neg hm, List.append_eq_nil_iff, overlooked_eq_nil] at h
    obtain ⟨hchildren, hformat⟩ := h
    obtain ⟨f, rfl, hf⟩ := formatDefects_eq_nil hformat
    have hnil : children = [] := by simpa using hchildren
    subst hnil
    exact .leaf hf

theorem representable_of_defectsAll : ∀ children : List ArrowSchema, defectsAll children = [] →
    ∀ c ∈ children, Representable c
  | [], _, c, hc => by cases hc
  | child :: rest, h, c, hc => by
    unfold defectsAll at h
    rw [List.append_eq_nil_iff] at h
    rcases List.mem_cons.mp hc with heq | hc
    · rw [heq]
      exact representable_of_defects child h.1
    · exact representable_of_defectsAll rest h.2 c hc
end

theorem defectsAll_eq_nil {children : List ArrowSchema} :
    defectsAll children = [] ↔ ∀ c ∈ children, defects c = [] := by
  induction children with
  | nil => simp [defectsAll]
  | cons child rest ih =>
    rw [defectsAll, List.append_eq_nil_iff, ih]
    simp

theorem fatal_defectsAll {children : List ArrowSchema} (h : fatal (defectsAll children) = none) :
    ∀ c ∈ children, fatal (defects c) = none := by
  induction children with
  | nil =>
    intro c hc
    cases hc
  | cons child rest ih =>
    rw [defectsAll, fatal_append, Option.or_eq_none_iff] at h
    intro c hc
    rcases List.mem_cons.mp hc with rfl | hc
    · exact h.1
    · exact ih h.2 c hc

/-- **A tree without defects is a representable one.** -/
theorem defects_eq_nil {node : ArrowSchema} : defects node = [] ↔ Representable node := by
  refine ⟨representable_of_defects node, fun h => ?_⟩
  induction h with
  | leaf hf =>
    obtain ⟨h1, h2, h3, h4⟩ := isLeafFormat_ne hf
    unfold defects
    simp [h1, h2, h3, h4, formatDefects, hf, overlooked]
  | struct hne _ ih =>
    unfold defects
    simp [overlooked, hne, defectsAll_eq_nil.mpr ih]
  | list hf _ ih =>
    unfold defects
    rcases hf with rfl | rfl
    · simpa [overlooked] using ih
    · simpa [overlooked] using ih
  | map _ _ ihk ihv =>
    unfold defects
    simp [overlooked, ihk, ihv]

/-! ## The first batch -/

/-- The call reports an error and leaves the writer as it was, but for the text of the error. -/
def RefusedCleanly (X : External) (w : Writer) (schema : ArrowSchema) (batch : Option ArrowArray) :
    Prop :=
  ∃ status msg, n2pWriterWriteBatch X w (some schema) batch =
    some (status, { w with lastError := msg }) ∧ status ≠ .ok

/-- The parser accepts exactly what can be represented: a column is flattened exactly when it is a
    representable tree, and a batch whose schema is not one is refused while no schema is locked. -/
structure AcceptsExactly (X : External) (schema : ArrowSchema) : Prop where
  columns : ∀ c ∈ schema.children, ∀ (idx : List Nat) (names : List String) (opt : List Bool)
    (out : Flat), (∃ out', flattenSchema c idx names opt out = .ok out') ↔ Representable c
  others : ¬ Representable schema → ∀ (w : Writer) (batch : Option ArrowArray),
    w.schemaLocked = false → RefusedCleanly X w schema batch

/-- No defect is all that a column has and overlooked, none is undefined before one is refused, and
    a dictionary on the batch itself comes with a column that is refused. -/
structure ReadFully (schema : ArrowSchema) : Prop where
  columns : ∀ c ∈ schema.children, fatal (defects c) = none → defects c = []
  defined : schema.format = some "+s" → fatal (defectsAll schema.children) ≠ some .undefined
  root : schema.format = some "+s" → schema.children ≠ [] → schema.dictionary.isSome →
    fatal (defectsAll schema.children) ≠ none

/-- A batch is refused before anything is written where its arguments or its schema are. -/
theorem refusedCleanly_of_refused (X : External) {w : Writer} (hl : w.schemaLocked = false)
    {schema : ArrowSchema} (h : schema.format = some "+s" → schema.children ≠ [] →
      ∃ why, flattenColumns schema.children 0 ([], []) = .error (.refused why))
    (batch : Option ArrowArray) : RefusedCleanly X w schema batch := by
  unfold RefusedCleanly n2pWriterWriteBatch
  by_cases hopen : w.out.isOpen = true
  swap
  · rw [if_neg hopen]
    exact ⟨_, _, rfl, by simp⟩
  rw [if_pos hopen]
  cases hargs : checkArguments (some schema) batch with
  | error f =>
    have hstop : ∀ why, f = .refused why → writeOneBatch X (some schema) batch w =
        .error (.refused .invalidArgument why) { w with lastError := why.text } := by
      rintro why rfl
      unfold writeOneBatch
      rw [hargs]
      rfl
    have hrefused : ∃ why, f = .refused why := by
      rcases checkArguments_error hargs with h | h | h | h <;> exact ⟨_, h⟩
    obtain ⟨why, rfl⟩ := hrefused
    rw [hstop why rfl]
    exact ⟨_, _, rfl, by simp⟩
  | ok args =>
    obtain ⟨sc, b⟩ := args
    obtain ⟨hsc, _, hformat, hchildren, _⟩ := checkArguments_eq_ok.mp hargs
    cases hsc
    obtain ⟨why, hflat⟩ := h hformat fun hnil => hchildren (by rw [hnil]; rfl)
    have hstop : writeOneBatch X (some schema) batch w =
        .error (.refused .unsupportedType why) { w with lastError := why.text } := by
      have hlock : lockSchema schema w =
          .error (.refused .unsupportedType why) { w with lastError := why.text } := by
        unfold lockSchema
        rw [get_bind, if_pos (by rw [hl]; rfl), hflat]
        rfl
      unfold writeOneBatch
      rw [hargs]
      show (lockSchema schema >>= _) w = _
      exact seq_eq_error.mpr (.inl hlock)
    rw [hstop]
    exact ⟨_, _, rfl, by simp⟩

/-- A batch with the schema's column count, and nothing else. -/
def blankBatch (schema : ArrowSchema) : ArrowArray :=
  { length := 0, nullCount := 0, offset := 0, nBuffers := 0, nChildren := schema.children.length,
    buffers := none, children := none }

theorem checkArguments_blank {schema : ArrowSchema} (hformat : schema.format = some "+s")
    (hne : schema.children ≠ []) :
    checkArguments (some schema) (some (blankBatch schema)) = .ok (schema, blankBatch schema) := by
  refine checkArguments_eq_ok.mpr ⟨rfl, rfl, hformat, ?_, rfl⟩
  intro hzero
  exact hne (List.eq_nil_of_length_eq_zero hzero)

/-- A schema on which the parser's behaviour is undefined is not refused. -/
theorem not_refusedCleanly_of_undefined (X : External) {schema : ArrowSchema}
    (hformat : schema.format = some "+s") (hne : schema.children ≠ [])
    (hflat : flattenColumns schema.children 0 ([], []) = .error .undefined) :
    ¬ RefusedCleanly X freshWriter schema (some (blankBatch schema)) := by
  rintro ⟨status, msg, hcall, _⟩
  have hlock : lockSchema schema freshWriter = .error .undefined freshWriter := by
    unfold lockSchema
    rw [get_bind, if_pos (by rfl), hflat]
    rfl
  have hstop : writeOneBatch X (some schema) (some (blankBatch schema)) freshWriter =
      .error .undefined freshWriter := by
    unfold writeOneBatch
    rw [checkArguments_blank hformat hne]
    show (lockSchema schema >>= _) freshWriter = _
    exact seq_eq_error.mpr (.inl hlock)
  unfold n2pWriterWriteBatch at hcall
  rw [if_pos (by rfl), hstop] at hcall
  cases hcall

/-- A schema whose columns are all flattened is locked, whatever becomes of the batch. -/
theorem not_refusedCleanly_of_locked (X : External) {schema : ArrowSchema}
    (hformat : schema.format = some "+s") (hne : schema.children ≠ []) {nodes : List SchemaNode}
    {leaves : List LeafSpec}
    (hflat : flattenColumns schema.children 0 ([], []) = .ok (nodes, leaves))
    (hleaves : leaves ≠ []) :
    ¬ RefusedCleanly X freshWriter schema (some (blankBatch schema)) := by
  rintro ⟨status, msg, hcall, hstatus⟩
  rcases writeBatch_cases hcall with ⟨hok, _⟩ | ⟨_, ⟨e, t, msg', _, hfail, heq⟩ | ⟨hopen, _⟩⟩
  · exact hstatus hok
  · have hlocked : t.schemaLocked = false := congrArg Writer.schemaLocked heq.symm
    have hargs := checkArguments_blank hformat hne
    rcases hfail with ⟨_, _, hstop⟩ | ⟨sc, b, w1, _, _, hlock, hwrite⟩ |
      ⟨sc, b, w1, xs, _, hlock, _, _⟩
    · exact hstop schema _ _ hargs (.now nodes leaves rfl hflat hleaves)
    · obtain ⟨pieces, msg'', rfl⟩ := ((onlyStreams_writeLeaves _ _ _ _).error hwrite).1
      have htrue : w1.schemaLocked = true := hlock.locked
      have hfalse : w1.schemaLocked = false := hlocked
      rw [htrue] at hfalse
      cases hfalse
    · have htrue : w1.schemaLocked = true := hlock.locked
      have hfalse : w1.schemaLocked = false := hlocked
      rw [htrue] at hfalse
      cases hfalse
  · cases hopen

theorem representable_batch {schema : ArrowSchema} (hformat : schema.format = some "+s")
    (h : Representable schema) :
    schema.dictionary = none ∧ defectsAll schema.children = [] := by
  have hclean := defects_eq_nil.mpr h
  obtain ⟨format, nm, flags, children, dict⟩ := schema
  cases hformat
  unfold defects at hclean
  rw [if_pos rfl, List.append_eq_nil_iff, List.append_eq_nil_iff, overlooked_eq_nil] at hclean
  refine ⟨?_, hclean.2.2⟩
  cases dict with
  | none => rfl
  | some d => cases hclean.1

theorem representable_batch_of {schema : ArrowSchema} (hformat : schema.format = some "+s")
    (hne : schema.children ≠ []) (hdict : schema.dictionary = none)
    (h : defectsAll schema.children = []) : Representable schema := by
  obtain ⟨format, nm, flags, children, dict⟩ := schema
  cases hformat
  cases hdict
  exact .struct hne (representable_of_defectsAll children h)

/-- A column without a fatal defect is flattened. -/
theorem flattenSchema_ok_of_fatal {c : ArrowSchema} (h : fatal (defects c) = none)
    (idx : List Nat) (names : List String) (opt : List Bool) (out : Flat) :
    ∃ out', flattenSchema c idx names opt out = .ok out' := by
  have hends := flattenSchema_ends c idx names opt out
  rw [h] at hends
  obtain ⟨out', hx, _⟩ := hends.of_none
  exact ⟨out', hx⟩

/-! ### What exact acceptance asks for -/

theorem AcceptsExactly.columns_clean {X : External} {schema : ArrowSchema}
    (h : AcceptsExactly X schema) :
    ∀ c ∈ schema.children, fatal (defects c) = none → defects c = [] := by
  intro c hc hnone
  have hflattened := flattenSchema_ok_of_fatal hnone [] [] [] ([], [])
  exact defects_eq_nil.mpr ((h.columns c hc [] [] [] ([], [])).mp hflattened)

/-- A leaf with undefined behaviour that comes first is not refused. -/
theorem AcceptsExactly.defined {X : External} {schema : ArrowSchema} (h : AcceptsExactly X schema)
    (hformat : schema.format = some "+s") :
    fatal (defectsAll schema.children) ≠ some .undefined := by
  intro hundefined
  have hne : schema.children ≠ [] := by
    intro hnil
    rw [hnil] at hundefined
    cases hundefined
  have hother : ¬ Representable schema := by
    intro hrep
    rw [(representable_batch hformat hrep).2] at hundefined
    cases hundefined
  have hends := flattenColumns_ends schema.children 0 ([], [])
  rw [hundefined] at hends
  exact not_refusedCleanly_of_undefined X hformat hne hends.of_undefined (h.others hother _ _ rfl)

/-- Under a dictionary-encoded batch a column is refused, or the schema would be locked. -/
theorem AcceptsExactly.root {X : External} {schema : ArrowSchema} (h : AcceptsExactly X schema)
    (hformat : schema.format = some "+s") (hne : schema.children ≠ [])
    (hdict : schema.dictionary.isSome) : fatal (defectsAll schema.children) ≠ none := by
  intro hnone
  have hclean : defectsAll schema.children = [] :=
    defectsAll_eq_nil.mpr fun c hc => h.columns_clean c hc (fatal_defectsAll hnone c hc)
  have hother : ¬ Representable schema := by
    intro hrep
    rw [(representable_batch hformat hrep).1] at hdict
    cases hdict
  have hends := flattenColumns_ends schema.children 0 ([], [])
  rw [hnone] at hends
  obtain ⟨⟨nodes, leaves⟩, hx, hgrow⟩ := hends.of_none
  have hleaves : leaves ≠ [] := List.ne_nil_of_length_pos (hgrow.2 ⟨hne, hclean⟩)
  exact not_refusedCleanly_of_locked X hformat hne hx hleaves (h.others hother _ _ rfl)

/-! ### What being read fully gives -/

theorem ReadFully.column_iff {schema : ArrowSchema} (h : ReadFully schema) {c : ArrowSchema}
    (hc : c ∈ schema.children) (idx : List Nat) (names : List String) (opt : List Bool)
    (out : Flat) :
    (∃ out', flattenSchema c idx names opt out = .ok out') ↔ Representable c := by
  constructor
  · rintro ⟨out', hx⟩
    have hends := flattenSchema_ends c idx names opt out
    rw [hx] at hends
    exact defects_eq_nil.mp (h.columns c hc hends.eq_none)
  · intro hrep
    have hclean := defects_eq_nil.mpr hrep
    exact flattenSchema_ok_of_fatal (by rw [hclean]; rfl) idx names opt out

/-- Flattened columns under a schema that is not representable leave a dictionary on the batch to
    be wrong, and that is excluded. -/
theorem ReadFully.representable_of_flattened {schema : ArrowSchema} (h : ReadFully schema)
    (hformat : schema.format = some "+s") (hne : schema.children ≠ []) {out : Flat}
    (hx : flattenColumns schema.children 0 ([], []) = .ok out) : Representable schema := by
  have hends := flattenColumns_ends schema.children 0 ([], [])
  rw [hx] at hends
  have hnone := hends.eq_none
  have hclean : defectsAll schema.children = [] :=
    defectsAll_eq_nil.mpr fun c hc => h.columns c hc (fatal_defectsAll hnone c hc)
  cases hdict : schema.dictionary with
  | some d => exact absurd hnone (h.root hformat hne (by rw [hdict]; rfl))
  | none => exact representable_batch_of hformat hne hdict hclean

theorem ReadFully.refuses_others {X : External} {schema : ArrowSchema} (h : ReadFully schema)
    (hother : ¬ Representable schema) {w : Writer} {batch : Option ArrowArray}
    (hl : w.schemaLocked = false) : RefusedCleanly X w schema batch := by
  apply refusedCleanly_of_refused X hl
  intro hformat hne
  have hends := flattenColumns_ends schema.children 0 ([], [])
  cases hx : flattenColumns schema.children 0 ([], []) with
  | error e =>
    rw [hx] at hends
    obtain ⟨why, rfl⟩ := hends.refused_of_error (h.defined hformat)
    exact ⟨why, rfl⟩
  | ok out => exact absurd (h.representable_of_flattened hformat hne hx) hother

/-- **The schemas on which the parser accepts exactly what can be represented.** -/
theorem acceptsExactly_iff (X : External) (schema : ArrowSchema) :
    AcceptsExactly X schema ↔ ReadFully schema := by
  constructor
  · intro h
    exact ⟨h.columns_clean, h.defined, h.root⟩
  · intro h
    exact ⟨fun _ hc => h.column_iff hc, fun hother _ _ => h.refuses_others hother⟩

/-- Int32 codes of a dictionary of strings. -/
def codedSchema : ArrowSchema :=
  .nested "+s" "" false
    [{ ArrowSchema.leaf "i" "city" false with dictionary := some (.leaf "u" "" false) }]

def codedBatch : ArrowArray := .struct 3 none 0 [.int32 [0, 1, 0] none 0]

/-- A column whose format is a null pointer. -/
def formatlessSchema : ArrowSchema :=
  .nested "+s" "" false [{ ArrowSchema.leaf "i" "city" false with format := none }]

/-- The codes are written as if they were the values; a null format goes to `strcmp`. -/
theorem not_acceptsExactly_coded :
    ¬ AcceptsExactly .reference codedSchema ∧
      (n2pWriterWriteBatch .reference freshWriter (some codedSchema) (some codedBatch)).map
        (fun r => (r.1, r.2.leaves.map (·.col.type))) = some (.ok, [.int32]) ∧
      ¬ AcceptsExactly .reference formatlessSchema := by
  refine ⟨fun h => ?_, by decide +kernel, fun h => ?_⟩
  · have hrep := (h.columns _ List.mem_cons_self [0] ["city"] [false] ([], [])).mp ⟨_, rfl⟩
    have hclean := defects_eq_nil.mpr hrep
    cases hclean
  · have hother : ¬ Representable formatlessSchema := by
      intro hrep
      have hclean := (representable_batch rfl hrep).2
      cases hclean
    exact not_refusedCleanly_of_undefined .reference rfl (by decide) rfl (h.others hother _ _ rfl)

end N2P
