import VoxelAlgebra.Edit
import VoxelAlgebra.Equation.Validation
import VoxelAlgebra.Equation.Tree

/-!
# Equations with their tokens and tree

A `SetEquation` keeps an equation text together with what has been worked out for it. A new text
drops tokens and tree.

## Main definitions

* `SetEquation.ofText` — a text for which nothing has been worked out.
* `SetEquation.validate`, `SetEquation.generate` — work out the tokens, and the tree from them.
-/

namespace VoxelAlgebra

structure SetEquation where
  text : String := ""
  tokens : Option (List Equation.Token) := none
  tree : Datum := .list []
  deriving Repr, Inhabited

namespace SetEquation

def ofText (text : String) : SetEquation := { text := text }

def validate : Edit SetEquation Unit := do
  let e ← get
  let tokens ← Edit.ofExcept (Equation.validate e.text.toList)
  set { e with tokens := some tokens }

/-- The tree of the tokens at hand; a text that was not validated yet is validated first. -/
def generate : Edit SetEquation Unit := do
  if (← get).tokens.isNone then validate
  let e ← get
  let tree ← Edit.ofExcept (Equation.buildTree (e.tokens.getD []))
  set { e with tree := tree }

def assign (text : String) : Edit SetEquation Unit := do
  set (ofText text)
  validate
  generate

def literal (e : SetEquation) : String :=
  "SetOperationsEquation(" ++ Datum.quoteText e.text ++ ")"

end SetEquation
end VoxelAlgebra
