import N2P.Arrow

/-!
# Column types and schema flattening

`mapFormat`, `flattenNode` and `flattenSchema` of `writer.cpp`.  A record batch is a tree of
groups and leaf columns; `flattenNode` walks it once and appends to two lists: the footer's
schema nodes in pre-order, and one `LeafSpec` per leaf column in write order.  What a leaf needs
later (its path of child indices, its path of names, the OPTIONAL flags, the Arrow nodes above it)
is threaded through the recursion as accumulators.

Child counts and indices fit an `int`, so they are naturals here.
-/

namespace N2P

/-! ## Column types -/

inductive Extract where
  | memcpyFixed
  | widenInt
  | bool
  | byteArray
  | null
  deriving DecidableEq, Repr

structure ColumnSpec where
  name : String
  type : PhysicalType := .boolean
  extract : Extract := .memcpyFixed
  converted : Option ConvertedType := none
  /-- FIXED_LEN_BYTE_ARRAY width. -/
  typeLength : Nat := 0
  /-- `memcpyFixed`: element bytes; `widenInt`: 1 or 2. -/
  srcWidth : Nat := 0
  signExtend : Bool := false
  /-- `byteArray`: 64-bit offsets. -/
  largeOffsets : Bool := false
  nullable : Bool := false
  deriving DecidableEq, Repr

/-- `std::isspace` in the C locale. -/
def isSpace (c : Char) : Bool := c = ' ' || ('\t' ≤ c && c ≤ '\r')

/-- The digits `strtol` consumes, most significant first. -/
def digitsValue (acc : Nat) : List Char → Nat
  | [] => acc
  | c :: cs => if c.isDigit then digitsValue (10 * acc + (c.toNat - '0'.toNat)) cs else acc

/-- `std::atoi`: blanks, a sign, digits; anything after them is ignored.  The result is undefined
    when the number does not fit an `int`. -/
def atoi (s : List Char) : Except Fault Int :=
  let n : Int :=
    match s.dropWhile isSpace with
    | '-' :: cs => -(digitsValue 0 cs : Int)
    | '+' :: cs => digitsValue 0 cs
    | cs => digitsValue 0 cs
  if -(2 ^ 31) ≤ n ∧ n < 2 ^ 31 then .ok n else .error .undefined

/-- `map_format`: parse an Arrow C format string. -/
def mapFormat (format : Option String) (name : String) (nullable : Bool) :
    Except Fault ColumnSpec :=
  match format with
  | none => .error .undefined -- strcmp on a null pointer
  | some f =>
    let s : ColumnSpec := { name, nullable }
    let fixed (t : PhysicalType) (w : Nat) : ColumnSpec :=
      { s with type := t, extract := .memcpyFixed, srcWidth := w }
    let widen (w : Nat) (sign : Bool) (c : ConvertedType) : ColumnSpec :=
      { s with type := .int32, extract := .widenInt, srcWidth := w, signExtend := sign,
               converted := some c }
    -- an all-null column is inherently OPTIONAL
    if f = "n" then .ok { s with type := .int32, extract := .null, nullable := true }
    else if f = "b" then .ok { s with type := .boolean, extract := .bool }
    else if f = "c" then .ok (widen 1 true .int8)
    else if f = "C" then .ok (widen 1 false .uint8)
    else if f = "s" then .ok (widen 2 true .int16)
    else if f = "S" then .ok (widen 2 false .uint16)
    else if f = "i" then .ok (fixed .int32 4)
    else if f = "I" then .ok { fixed .int32 4 with converted := some .uint32 }
    else if f = "l" then .ok (fixed .int64 8)
    else if f = "L" then .ok { fixed .int64 8 with converted := some .uint64 }
    else if f = "f" then .ok (fixed .float 4)
    else if f = "g" then .ok (fixed .double 8)
    else if f.toList.take 2 = ['w', ':'] then
      match atoi (f.toList.drop 2) with
      | .error e => .error e
      | .ok n =>
        if n ≤ 0 then .error (.refused (.fixedWidth f))
        else .ok { fixed .fixedLenByteArray n.toNat with typeLength := n.toNat }
    else if f = "u" ∨ f = "U" then
      .ok { s with type := .byteArray, extract := .byteArray, converted := some .utf8,
                   largeOffsets := f = "U" }
    else if f = "z" ∨ f = "Z" then
      .ok { s with type := .byteArray, extract := .byteArray, largeOffsets := f = "Z" }
    else .error (.refused (.unsupportedFormat f))

/-! ## Schema nodes, steps and leaves -/

/-- One footer schema node, in pre-order. -/
structure SchemaNode where
  isGroup : Bool := false
  name : String
  optional : Bool := false
  /-- The repeated group of a LIST / MAP. -/
  repeated : Bool := false
  /-- Groups only. -/
  numChildren : Nat := 0
  listGroup : Bool := false
  mapGroup : Bool := false
  /-- Leaves only. -/
  type : PhysicalType := .boolean
  converted : Option ConvertedType := none
  typeLength : Nat := 0
  deriving DecidableEq, Repr

inductive StepKind where
  | struct
  | list
  | largeList
  | map
  | leaf
  deriving DecidableEq, Repr

/-- `List`, `LargeList` or `Map`. -/
def StepKind.isList : StepKind → Bool
  | .list => true
  | .largeList => true
  | .map => true
  | _ => false

/-- One Arrow node on a leaf's path. -/
structure PathStep where
  kind : StepKind := .leaf
  optional : Bool := false
  /-- `struct`: the child followed; `map`: 0 = key, 1 = value. -/
  child : Nat := 0
  /-- Lists: this list's repetition level. -/
  repLevel : Nat := 0
  deriving DecidableEq, Repr

structure LeafSpec where
  col : ColumnSpec
  pathIdx : List Nat
  pathNames : List String
  pathOptional : List Bool
  maxDefLevel : Nat
  defBitWidth : Nat
  hasList : Bool
  /-- Filled in only for a leaf under a list or map. -/
  steps : List PathStep
  maxRepLevel : Nat
  repBitWidth : Nat
  deriving DecidableEq, Repr

/-- The loop of `dictionary_bit_width`; `1 << w` reaches every `size_t` within 64 rounds. -/
def bitWidthFrom : (fuel w n : Nat) → Nat
  | 0, w, _ => w
  | fuel + 1, w, n => if 2 ^ w < n then bitWidthFrom fuel (w + 1) n else w

/-- `dictionary_bit_width`: smallest width that holds every index below `n`. -/
def dictionaryBitWidth (n : Nat) : Nat := bitWidthFrom 64 0 n

/-! ## Flattening -/

/-- `D`: one level per OPTIONAL node and one per list on the path. -/
def defLevels : List PathStep → Nat
  | [] => 0
  | st :: sts => (if st.optional then 1 else 0) + (if st.kind.isList then 1 else 0) + defLevels sts

/-- `R`: one level per list on the path. -/
def repLevels : List PathStep → Nat
  | [] => 0
  | st :: sts => (if st.kind.isList then 1 else 0) + repLevels sts

/-- The two lists `flatten_node` appends to: schema nodes and leaves. -/
abbrev Flat := List SchemaNode × List LeafSpec

/-- The `LeafSpec` of a column below the Arrow nodes `steps`, the leaf itself included. -/
def leafSpec (spec : ColumnSpec) (idx : List Nat) (names : List String) (opt : List Bool)
    (steps : List PathStep) : LeafSpec :=
  let D := defLevels steps
  let R := repLevels steps
  { col := spec, pathIdx := idx, pathNames := names, pathOptional := opt,
    maxDefLevel := D, defBitWidth := dictionaryBitWidth (D + 1),
    hasList := 0 < R, steps := if 0 < R then steps else [],
    maxRepLevel := R, repBitWidth := dictionaryBitWidth (R + 1) }

/-- A leaf's schema node. -/
def leafNode (spec : ColumnSpec) : SchemaNode :=
  { name := spec.name, optional := spec.nullable, type := spec.type,
    converted := spec.converted, typeLength := spec.typeLength }

/-- The leaf branch of `flatten_node`. -/
def flattenLeaf (format : Option String) (name : String) (optional : Bool) (idx : List Nat)
    (names : List String) (opt : List Bool) (steps : List PathStep) (out : Flat) :
    Except Fault Flat :=
  match mapFormat format name optional with
  | .error e => .error e
  | .ok spec =>
    let steps := steps ++ [{ kind := .leaf, optional := spec.nullable, child := 0, repLevel := 0 }]
    .ok (out.1 ++ [leafNode spec], out.2 ++ [leafSpec spec idx names opt steps])

/-- The group a list or map opens, and the repeated group inside it. -/
def listNodes (name : String) (optional isMap : Bool) : List SchemaNode :=
  [{ isGroup := true, name := name, optional := optional, numChildren := 1,
     listGroup := !isMap, mapGroup := isMap },
   { isGroup := true, name := if isMap then "key_value" else "list", repeated := true,
     numChildren := if isMap then 2 else 1 }]

mutual
/-- `flatten_node`. -/
def flattenNode (node : ArrowSchema) (name : String) (optional : Bool) (idx : List Nat)
    (names : List String) (opt : List Bool) (steps : List PathStep) (out : Flat) :
    Except Fault Flat :=
  match node with
  | ⟨format, _, _, children, _⟩ =>
    let f := format.getD ""
    let repAbove := repLevels steps
    if f = "+s" then
      let g : SchemaNode :=
        { isGroup := true, name := name, optional := optional, numChildren := children.length }
      flattenFields children 0 optional idx names opt steps (out.1 ++ [g], out.2)
    else if f = "+l" ∨ f = "+L" then
      match children with
      | [child] =>
        let kind : StepKind := if f = "+L" then .largeList else .list
        flattenNode child "element" child.nullableChild idx (names ++ ["list", "element"]) opt
          (steps ++ [{ kind, optional, child := 0, repLevel := repAbove + 1 }])
          (out.1 ++ listNodes name optional false, out.2)
      | _ => .error (.refused (.listChildren name))
    else if f = "+m" then
      match children with
      | [⟨entriesFormat, _, _, [key, value], _⟩] =>
        if entriesFormat = some "+s" then
          let nodes := out.1 ++ listNodes name optional true
          -- keys are REQUIRED in Parquet; values keep their nullability
          match flattenNode key "key" false idx (names ++ ["key_value", "key"]) opt
              (steps ++ [{ kind := .map, optional, child := 0, repLevel := repAbove + 1 }])
              (nodes, out.2) with
          | .error e => .error e
          | .ok out =>
            flattenNode value "value" value.nullableChild idx (names ++ ["key_value", "value"]) opt
              (steps ++ [{ kind := .map, optional, child := 1, repLevel := repAbove + 1 }]) out
        else .error (.refused (.mapEntries name))
      | [_] => .error (.refused (.mapEntries name))
      | _ => .error (.refused (.listChildren name))
    else flattenLeaf format name optional idx names opt steps out

/-- The loop over a struct's children, from index `i` on. -/
def flattenFields (children : List ArrowSchema) (i : Nat) (optional : Bool) (idx : List Nat)
    (names : List String) (opt : List Bool) (steps : List PathStep) (out : Flat) :
    Except Fault Flat :=
  match children with
  | [] => .ok out
  | child :: rest =>
    match flattenNode child child.nameOr child.nullableChild (idx ++ [i]) (names ++ [child.nameOr])
        (opt ++ [child.nullableChild])
        (steps ++ [{ kind := .struct, optional, child := i, repLevel := 0 }]) out with
    | .error e => .error e
    | .ok out => flattenFields rest (i + 1) optional idx names opt steps out
end

/-- `flatten_schema`: a top-level column of the record batch. -/
def flattenSchema (node : ArrowSchema) (idx : List Nat) (names : List String) (opt : List Bool)
    (out : Flat) : Except Fault Flat :=
  flattenNode node node.nameOr (opt.getLastD false) idx names opt [] out

/-- The schema-lock loop of `write_one_batch`: every top-level column, from index `i` on. -/
def flattenColumns (columns : List ArrowSchema) (i : Nat) (out : Flat) : Except Fault Flat :=
  match columns with
  | [] => .ok out
  | child :: rest =>
    match flattenSchema child [i] [child.nameOr] [child.nullableChild] out with
    | .error e => .error e
    | .ok out => flattenColumns rest (i + 1) out

end N2P
