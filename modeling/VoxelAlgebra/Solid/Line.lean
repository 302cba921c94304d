import VoxelAlgebra.Grid.Segment
import VoxelAlgebra.Solid.VoxelSet

/-!
# Lines

A line is a voxel set with two endpoints relative to its origin. Its voxels are the endpoints until
the line is traced. With a double pass it is traced in both directions, which makes the set of its
voxels independent of the order of the endpoints.

## Main definitions

* `Line`, `Line.create` — lines and their beginning.
* `Line.generate`, `Line.changeEndpoints` — tracing a line, and giving it other endpoints.
-/

namespace VoxelAlgebra

structure Line where
  base : VoxelSet
  start : Voxel
  finish : Voxel
  doublePass : Bool
  deriving Repr

namespace Line

def endpointsFrom (rows : List (List Number)) : Except Fault (Voxel × Voxel) :=
  match rows with
  | [p, q] => do return (← Voxel.ofNumbers p, ← Voxel.ofNumbers q)
  | _ => throw (.report (.emptyInput "Line" 2))

/-- The voxels of the traced line; a double pass adds those that only the way back has. -/
def trace (start finish : Voxel) (doublePass : Bool) : List Voxel :=
  if doublePass then Voxel.distinct (segment start finish ++ segment finish start)
  else segment start finish

def create (origin : List Number) (endpoints : List (List Number)) (doublePass : Bool) :
    Edit Issuer Line := do
  let (start, finish) ← Edit.ofExcept (endpointsFrom endpoints)
  let id ← Issuer.issue
  let base ← Edit.ofExcept do
    VoxelSet.ofParts id (← Voxel.ofNumbers origin) [start, finish]
  return { base, start, finish, doublePass }

def onBase {α : Type} : Edit VoxelSet α → Edit Line α :=
  Edit.onPart Line.base fun base l => { l with base }

def generate : Edit Line Unit := do
  let l ← get
  Edit.ofExcept l.base.checkAlive
  onBase (VoxelSet.setFill (trace l.start l.finish l.doublePass))

/-- Gives the line other endpoints, which are then its voxels. -/
def changeEndpoints (endpoints : List (List Number)) : Edit Line Unit := do
  Edit.ofExcept (← get).base.checkAlive
  let (start, finish) ← Edit.ofExcept (endpointsFrom endpoints)
  modify ({ · with start, finish })
  onBase (VoxelSet.setFill [start, finish])

def vertices (l : Line) : Except Fault (List Voxel) := do
  l.base.checkAlive
  return [l.start + l.base.origin, l.finish + l.base.origin]

end Line
end VoxelAlgebra
