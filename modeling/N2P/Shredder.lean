import N2P.Schema

/-!
# The Shredder

`Shredder::walk` of `writer.cpp`: one leaf's repetition and definition levels, and which positions
of the leaf array hold its values, from a walk of the Arrow arrays on the leaf's path.

The source's one function is cut at its two switches: `enter` is everything done at a node before
the walk goes deeper (offset, index and null checks), `listRange` reads a list slot's child range.
`walk` itself is the recursion, structural in the steps that remain.
-/

namespace N2P

/-- What a leaf's walk collects. -/
structure Shredded where
  rep : List Nat
  dfn : List Nat
  /-- Over the leaf array. -/
  present : Bytes
  presentCount : Nat
  deriving DecidableEq, Repr

/-- `emit`. -/
def Shredded.emit (out : Shredded) (r d : Nat) : Shredded :=
  { out with rep := out.rep ++ [r], dfn := out.dfn ++ [d] }

/-- The leaf case after its `emit`: set the position's bit and count it. -/
def Shredded.mark (out : Shredded) (e : Nat) : Except Fault Shredded :=
  match ByteSeq.setBit out.present e with
  | none => .error .undefined
  | some bs => .ok { out with present := bs, presentCount := out.presentCount + 1 }

namespace Shredder

/-- `Shredder::fail`. -/
def fail {α : Type} (leaf : LeafSpec) (e : ShredError) : Except Fault α :=
  .error (.refused (.shred leaf.col.name e))

/-- `Shredder::valid`. -/
def valid (a : ArrowArray) (e : Nat) : Except Fault Bool :=
  if a.nullCount = 0 ∨ a.nBuffers < 1 ∨ a.buffers.isNone then .ok true
  else
    match a.buffer 0 with
    | .error f => .error f
    | .ok none => .ok true
    | .ok (some bm) => readBit bm e

/-- The first part of `walk`: the checks at a node, and the definition level once the walk is past
    it; `none` when an optional node is null and the walk of this slot ends here. -/
def enter (leaf : LeafSpec) (st : PathStep) (a : ArrowArray) (e : Int) (d : Nat) :
    Except Fault (Option Nat) :=
  if a.offset ≠ 0 then fail leaf .sliced
  else if e < 0 ∨ e ≥ a.length then fail leaf .pastEnd
  else if st.optional then
    if st.kind = .leaf ∧ leaf.col.extract = .null then .ok none
    else
      match valid a e.toNat with
      | .error f => .error f
      | .ok present => .ok (if present then some (d + 1) else none)
  else if a.nullCount > 0 then
    match valid a e.toNat with
    | .error f => .error f
    | .ok present => if present then .ok (some d) else fail leaf .nullInRequired
  else .ok (some d)

/-- The struct case: `a->children[st.child]`. -/
def structChild (leaf : LeafSpec) (st : PathStep) (a : ArrowArray) : Except Fault ArrowArray :=
  if a.children.isNone ∨ (st.child : Int) ≥ a.nChildren then fail leaf .structureMismatch
  else a.child st.child

/-- The list cases: the child array and slot `e`'s range in it, once checked. -/
def listRange (leaf : LeafSpec) (st : PathStep) (a : ArrowArray) (e : Nat) :
    Except Fault (ArrowArray × Int × Int) :=
  if a.nBuffers < 2 ∨ a.buffers.isNone then fail leaf .noOffsets
  else
    match a.buffer 1 with
    | .error f => .error f
    | .ok none => fail leaf .noOffsets
    | .ok (some off) =>
      if a.children.isNone ∨ a.nChildren < 1 then fail leaf .noOffsets
      else
        let w := if st.kind = .largeList then 8 else 4
        match readOffset w off e, readOffset w off (e + 1), a.child 0 with
        | .ok s, .ok t, .ok child =>
          let target : Except Fault ArrowArray :=
            if st.kind = .map then
              if child.offset ≠ 0 ∨ child.children.isNone ∨ child.nChildren ≠ 2 then
                fail leaf .mapEntries
              else if t > child.length then fail leaf .mapPastEntries
              else child.child st.child
            else .ok child
          match target with
          | .error f => .error f
          | .ok child =>
            if s < 0 ∨ t < s ∨ t > child.length then fail leaf .offsetsOrder
            else .ok (child, s, t)
        | _, _, _ => .error .undefined

/-- `Shredder::walk`, by the steps from `k` on. -/
def walk (leaf : LeafSpec) : List PathStep → ArrowArray → Int → Nat → Nat → Shredded →
    Except Fault Shredded
  | [], _, _, _, _, _ => .error .undefined -- steps[k] past its end
  | st :: rest, a, e, r, d, out =>
    match enter leaf st a e d with
    | .error f => .error f
    | .ok none => .ok (out.emit r d)
    | .ok (some d) =>
      match st.kind with
      | .leaf => (out.emit r d).mark e.toNat
      | .struct =>
        match structChild leaf st a with
        | .error f => .error f
        | .ok child => walk leaf rest child e r d out
      | _ =>
        match listRange leaf st a e.toNat with
        | .error f => .error f
        | .ok (child, s, t) =>
          if s = t then .ok (out.emit r d) -- an empty list
          else
            (List.range (t - s).toNat).foldlM
              (fun out (j : Nat) =>
                walk leaf rest child (s + j) (if j = 0 then r else st.repLevel) (d + 1) out)
              out

/-- `Shredder::row`. -/
def row (leaf : LeafSpec) (column : ArrowArray) (e : Int) (out : Shredded) :
    Except Fault Shredded :=
  walk leaf leaf.steps column e 0 0 out

/-- `row` over rows `0 .. n-1`. -/
def rows (leaf : LeafSpec) (column : ArrowArray) (n : Nat) (out : Shredded) :
    Except Fault Shredded :=
  (List.range n).foldlM (fun out (i : Nat) => row leaf column i out) out

end Shredder

end N2P
