import VoxelAlgebra.Identifier
import VoxelAlgebra.Box.Slices

/-!
# Voxel sets

A voxel set owns a list of voxels relative to its origin. From the absolute voxels it derives their
box, the slices along the axis of the largest range, and the region of the boxes of the slices that
are not empty. The slices make it quick to find a voxel. Every change works out the derived state
anew; a set without voxels has no box.

## Main definitions

* `Derived`, `Derived.of` — the derived state of absolute voxels.
* `VoxelSet`, `VoxelSet.create`, `VoxelSet.release` — a set from its beginning to its end.
* `VoxelSet.absolute`, `VoxelSet.find` — reading voxels.
* `VoxelSet.setOrigin`, `VoxelSet.setFill`, `VoxelSet.addFill` — changes.
* `VoxelSet.partition`, `VoxelSet.overlapRegion` — the voxels of a set that are in another one.
-/

namespace VoxelAlgebra

structure Derived where
  box : Option Box := none
  axes : AxisOrder := .xyz
  directory : Directory Voxel := []
  region : Region := []
  deriving Repr, DecidableEq

namespace Derived

def empty : Derived := {}

def of : List Voxel → Except Fault Derived
  | [] => pure empty
  | voxels => do
    let box ← Box.ofVoxels voxels
    let o := box.extents.axisOrder
    let (directory, region) ← slices o (box.extents.low.coord o.first)
      (box.extents.high.coord o.first) Box.ofVoxels voxels
    return ⟨some box, o, directory, region⟩

end Derived

/-- A set of voxels. `fill` is relative to the origin. -/
structure VoxelSet where
  id : String
  origin : Voxel
  fill : List Voxel
  derived : Derived
  isDeleted : Bool := false
  deriving Repr

namespace VoxelSet

/-! ## Reading -/

def checkAlive (s : VoxelSet) : Except Fault Unit :=
  if s.isDeleted then throw (.report (.deletedObject s.id)) else pure ()

/-- The absolute voxels of a set, whether deleted or not. -/
def absoluteFill (s : VoxelSet) : List Voxel := s.fill.map (· + s.origin)

def absolute (s : VoxelSet) : Except Fault (List Voxel) := do
  s.checkAlive
  return s.absoluteFill

def find {m : Type → Type} {π : Type} [Monad m] [Coordinates m π] (s : VoxelSet) (p : π) :
    m (Option Nat) :=
  if s.derived.box.isNone then pure none else s.derived.directory.indexOf? s.derived.axes p

/-- Whether a voxel is among the absolute voxels, by the slices. -/
def contains (s : VoxelSet) (v : Voxel) : Bool := (Id.run (s.find v)).isSome

/-! ## From beginning to end -/

def ofParts (id : String) (origin : Voxel) (fill : List Voxel) : Except Fault VoxelSet := do
  let derived ← Derived.of (fill.map (· + origin))
  return { id, origin, fill, derived }

/-- A new set. Its identifier is issued before anything else can fail. -/
def create (origin : Voxel) (fill : List Voxel) : Edit Issuer VoxelSet := do
  let id ← Issuer.issue
  Edit.ofExcept (ofParts id origin fill)

/-- A new set from rows of numbers. Its identifier is issued before the rows are read. -/
def createFrom (origin : List Number) (fill : List (List Number)) : Edit Issuer VoxelSet := do
  let id ← Issuer.issue
  Edit.ofExcept do
    ofParts id (← Voxel.ofNumbers origin) (← fill.mapM Voxel.ofNumbers)

/-- A set after its deletion: it keeps its identifier and origin, but no voxels. -/
def emptied (s : VoxelSet) : VoxelSet :=
  { s with fill := [], derived := { Derived.empty with axes := s.derived.axes }, isDeleted := true }

def release (s : VoxelSet) : Edit Issuer VoxelSet := do
  Edit.ofExcept s.checkAlive
  Issuer.release s.id
  return s.emptied

/-! ## Changes -/

def recompute : Edit VoxelSet Unit := do
  let s ← get
  Edit.ofExcept s.checkAlive
  let derived ← Edit.ofExcept (Derived.of s.absoluteFill)
  set { s with derived }

def setOrigin (origin : Voxel) : Edit VoxelSet Unit := do
  Edit.ofExcept (← get).checkAlive
  modify ({ · with origin })
  recompute

def setOriginFrom (origin : List Number) : Edit VoxelSet Unit := do
  Edit.ofExcept (← get).checkAlive
  setOrigin (← Edit.ofExcept (Voxel.ofNumbers origin))

def setFill (fill : List Voxel) : Edit VoxelSet Unit := do
  Edit.ofExcept (← get).checkAlive
  modify ({ · with fill })
  recompute

def setFillFrom (fill : List (List Number)) : Edit VoxelSet Unit := do
  Edit.ofExcept (← get).checkAlive
  setFill (← Edit.ofExcept (fill.mapM Voxel.ofNumbers))

def addFill (more : List Voxel) : Edit VoxelSet Unit := do
  Edit.ofExcept (← get).checkAlive
  modify fun s => { s with fill := s.fill ++ more }
  recompute

/-- Appends the voxels of rows one by one; the rows in front of a bad one are kept. -/
def appendRows : List (List Number) → Edit VoxelSet Unit
  | [] => pure ()
  | row :: rest => do
    let v ← Edit.ofExcept (Voxel.ofNumbers row)
    modify fun s => { s with fill := s.fill ++ [v] }
    appendRows rest

def addFillFrom (more : List (List Number)) : Edit VoxelSet Unit := do
  Edit.ofExcept (← get).checkAlive
  appendRows more
  recompute

/-! ## Two sets -/

/-- Where the slices of two sets can meet. -/
def overlapRegion (s t : VoxelSet) : Region := s.derived.region.overlap t.derived.region

/-- Splits the voxels of `s` into those that are also in `t` and the others. Voxels outside the
region are not looked up. -/
def partition (s t : VoxelSet) (region : Region) : Except Fault (List Voxel × List Voxel) := do
  return (← s.absolute).partition fun v => region.contains v && t.contains v

/-! ## Written form -/

def literal (kind : String) (s : VoxelSet) : String :=
  if s.isDeleted then kind ++ "(<deleted " ++ s.id ++ ">)"
  else
    kind ++ "(id=" ++ Datum.quoteText s.id ++ ", origin=" ++ s.origin.literal ++
      ", voxels=" ++ toString s.fill.length ++ ")"

end VoxelSet
end VoxelAlgebra
