import VoxelAlgebra.Equation.Symbol

/-!
# Simplification of equation texts

Some negations are removed from the text of an equation before it is cut into tokens: a double
negation cancels, a negated union or intersection sign turns into the other one, and a negated
constant turns into the other one. A text that is nothing but one group loses the group.

## Main definitions

* `replacePair` — replaces a pair of neighbouring characters wherever it occurs.
* `simplify` — the five replacements in turn, then the outer group.
-/

namespace VoxelAlgebra.Equation

/-- Replaces the neighbours `a b` by `new`, from left to right and without overlaps. -/
def replacePair (a b : Char) (new : List Char) : List Char → List Char
  | x :: y :: rest =>
    if x = a ∧ y = b then new ++ replacePair a b new rest
    else x :: replacePair a b new (y :: rest)
  | text => text

/-- The negations that are resolved in the text, in the order in which they are applied. -/
def replacements : List (Char × Char × List Char) :=
  [(Symbol.negation, Symbol.negation, []),
    (Symbol.negation, Symbol.inter, [Symbol.union]),
    (Symbol.negation, Symbol.union, [Symbol.inter]),
    (Symbol.negation, Symbol.universal, [Symbol.null]),
    (Symbol.negation, Symbol.null, [Symbol.universal])]

def resolveNegations (text : List Char) : List Char :=
  replacements.foldl (fun t r => replacePair r.1 r.2.1 r.2.2 t) text

def isEnclosed (text : List Char) : Bool :=
  text.head? = some Symbol.opening && text.getLast? = some Symbol.closing

/-- The outer group goes only if the text as given has no other group. -/
def simplify (text : List Char) : List Char :=
  let resolved := resolveNegations text
  if text.count Symbol.opening = 1 ∧ text.count Symbol.closing = 1 ∧ isEnclosed resolved then
    resolved.tail.dropLast
  else resolved

end VoxelAlgebra.Equation
