import VoxelAlgebra.SetEquation
import VoxelAlgebra.Solid.VoxelSet

/-!
# Composite voxel sets

A composite computes its voxels from an equation over named voxel sets. Every operation of the
equation is evaluated once in a pass: results are kept in a cache under the identifiers of the
operands and the operator, and a commutative operation is also found with its operands swapped. The
cache belongs to the composite and is released when the next pass begins or the names change. The
named sets belong to the caller and are never released here.

## Main definitions

* `Bound` — the sets that the names of an equation stand for.
* `Cache` — the universal set, the null set and the results of a pass.
* `Evaluation.solve`, `Evaluation.evaluate` — evaluating a tree.
* `Composite` — a voxel set with an equation and a cache.
* `Composite.interpret` — makes the value of the equation the voxels of the composite.
-/

namespace VoxelAlgebra

/-- The voxel sets that the names of an equation stand for, in order. -/
abbrev Bound := List (String × VoxelSet)

def Bound.universe (bound : Bound) : Except Fault (List Voxel) := do
  return Voxel.distinct (← bound.mapM fun b => b.2.absolute).flatten

/-! ## Cache -/

/-- An operation is known by its operator and the identifiers of its operands. -/
structure OperationKey where
  left : String
  op : Equation.Operator
  right : String
  deriving DecidableEq, Repr

/-- The sets of one pass, which belong to the composite. -/
structure Cache where
  universal : VoxelSet
  null : VoxelSet
  results : List (OperationKey × VoxelSet) := []
  deriving Repr

namespace Cache

def sets (c : Cache) : List VoxelSet := c.universal :: c.null :: c.results.map Prod.snd

/-- The result of an operation; the operands of a commutative one may be swapped. -/
def find? (c : Cache) (left : String) (op : Equation.Operator) (right : String) :
    Option VoxelSet :=
  match c.results.lookup ⟨left, op, right⟩ with
  | some s => some s
  | none => if op.isCommutative then c.results.lookup ⟨right, op, left⟩ else none

end Cache

/-! ## Evaluation -/

namespace Evaluation

open Equation (Operator)

def store (key : OperationKey) (voxels : List Voxel) : Edit (Issuer × Cache) VoxelSet := do
  let result ← Edit.onFirst (VoxelSet.create .zero voxels)
  Edit.onSecond (modify fun c => { c with results := c.results ++ [(key, result)] })
  return result

/-- The voxels of an operation on two different sets. The order is: voxels of the left set only,
voxels of the right set only, common voxels. -/
def combineVoxels (left right : VoxelSet) (op : Operator) : Except Fault (List Voxel) := do
  let region := left.overlapRegion right
  let (common, leftOnly) ← left.partition right region
  let (_, rightOnly) ← right.partition left region
  match op with
  | .inter => return common
  | .union => return leftOnly ++ rightOnly ++ common
  | .diff => return leftOnly
  | .symmDiff => return leftOnly ++ rightOnly
  | .unknown sign => throw (.report (.unknownOperation (.text (String.ofList sign))))

/-- The voxels of an operation. A set with itself needs no search. -/
def operate (left : VoxelSet) (op : Operator) (right : VoxelSet) : Except Fault (List Voxel) :=
  if left.id = right.id then
    if op.isCommutative then left.absolute else pure []
  else combineVoxels left right op

/-- The result of an operation, from the cache if it was computed before. -/
def apply (left : VoxelSet) (op : Operator) (right : VoxelSet) :
    Edit (Issuer × Cache) VoxelSet := do
  match (← get).2.find? left.id op right.id with
  | some result => return result
  | none =>
    let voxels ← Edit.ofExcept (operate left op right)
    store ⟨left.id, op, right.id⟩ voxels

def lookUp (bound : Bound) (token : Datum) : Edit (Issuer × Cache) VoxelSet := do
  let cache := (← get).2
  match token with
  | .text name =>
    if name.toList = [Equation.Symbol.universal] then return cache.universal
    else if name.toList = [Equation.Symbol.null] then return cache.null
    else match bound.lookup name with
      | some s => return s
      | none => throw (.report (.unboundName token))
  | .record _ => throw .wrongShape
  | _ => throw (.report (.unboundName token))

def operation (token : Datum) : Except Fault Operator :=
  match token with
  | .text sign =>
    match Operator.ofSign? sign.toList with
    | some op => pure op
    | none => throw (.report (.unknownOperation token))
  | _ => throw (.report (.unknownOperation token))

mutual

def resolve (bound : Bound) : Datum → Edit (Issuer × Cache) VoxelSet
  | .list items => solve bound (.list items) items
  | token => lookUp bound token

/-- The set of a level with these items: a single item stands for itself, three are an operation. -/
def solve (bound : Bound) (level : Datum) : List Datum → Edit (Issuer × Cache) VoxelSet
  | [item] => resolve bound item
  | [left, token, right] => do
    let l ← resolve bound left
    let op ← Edit.ofExcept (operation token)
    let r ← resolve bound right
    apply l op r
  | _ => throw (.report (.malformedLevel (.datum level)))

end

/-- Why a whole tree is no level. A record has a length, but no members by position. -/
def refuse (tree : Datum) : Fault :=
  match tree with
  | .record fields =>
    if fields.length = 1 ∨ fields.length = 3 then .noEntry
    else .report (.malformedLevel (.datum tree))
  | _ => .wrongShape

def evaluate (bound : Bound) (tree : Datum) : Edit (Issuer × Cache) VoxelSet :=
  match tree.parts with
  | some items => solve bound tree items
  | none => throw (refuse tree)

end Evaluation

/-! ## Composites -/

/-- A voxel set with an equation. The cache is absent after it was released and not rebuilt. -/
structure Composite where
  base : VoxelSet
  equation : SetEquation := {}
  cache : Option Cache := none
  deriving Repr

namespace Composite

def cacheSets (c : Composite) : List VoxelSet := c.cache.elim [] Cache.sets

def onBase {α : Type} : Edit VoxelSet α → Edit (Issuer × Composite) α := fun edit =>
  Edit.onSecond (Edit.onPart Composite.base (fun base c => { c with base }) edit)

def releaseSets : List VoxelSet → Edit Issuer Unit
  | [] => pure ()
  | s :: rest => do
    let _ ← s.release
    releaseSets rest

def releaseCache : Edit (Issuer × Composite) Unit := do
  let (_, c) ← get
  Edit.onFirst (releaseSets c.cacheSets)
  Edit.onSecond (modify ({ · with cache := none }))

/-- Releases the cache and begins a new one with the universal and the null set. -/
def beginCache (bound : Bound) : Edit (Issuer × Composite) Cache := do
  Edit.ofExcept (← get).2.base.checkAlive
  releaseCache
  let voxels ← Edit.ofExcept bound.universe
  let universal ← Edit.onFirst (VoxelSet.create .zero voxels)
  let null ← Edit.onFirst (VoxelSet.create .zero [])
  Edit.onSecond (modify ({ · with cache := some { universal, null } }))
  return { universal, null }

def resetCache (bound : Bound) : Edit (Issuer × Composite) Unit := do
  let _ ← beginCache bound

def create (origin : List Number) (bound : Bound) : Edit Issuer Composite := do
  let voxels ← Edit.ofExcept bound.universe
  let relative ← Edit.ofExcept (unshiftNumbers origin voxels)
  let base ← VoxelSet.createFrom origin relative
  let (_, c) ← Edit.withSecond { base } (resetCache bound)
  return c

/-- Takes up a new equation. A wrong one is kept, but has no tree. -/
def setEquation (text : String) : Edit (Issuer × Composite) Unit := do
  Edit.ofExcept (← get).2.base.checkAlive
  Edit.onSecond
    (Edit.onPart Composite.equation (fun equation c => { c with equation })
      (SetEquation.assign text))

def onCache {α : Type} (cache : Cache) (edit : Edit (Issuer × Cache) α) :
    Edit (Issuer × Composite) α :=
  Edit.onPart (fun p => (p.1, p.2.cache.getD cache))
    (fun q p => (q.1, { p.2 with cache := some q.2 })) edit

/-- Makes the value of the equation the voxels of the composite. -/
def interpret (bound : Bound) : Edit (Issuer × Composite) Unit := do
  let cache ← beginCache bound
  let tree := (← get).2.equation.tree
  let result ← onCache cache (Evaluation.evaluate bound tree)
  let voxels ← Edit.ofExcept result.absolute
  let origin := (← get).2.base.origin
  onBase (VoxelSet.setFill (voxels.map (· - origin)))

def release : Edit (Issuer × Composite) Unit := do
  Edit.ofExcept (← get).2.base.checkAlive
  releaseCache
  let (_, c) ← get
  let base ← Edit.onFirst c.base.release
  Edit.onSecond (modify ({ · with base }))

end Composite
end VoxelAlgebra
