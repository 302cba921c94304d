import VoxelAlgebra.Box.Corner
import VoxelAlgebra.Report

/-!
# Extents

The extents of a box are its least and its greatest coordinate on every axis.

## Main definitions

* `Extents` — the lowest and the highest corner.
* `Extents.axisOrder` — the axes by decreasing range, which decides how a shape is sliced.
* `Extents.corners` — the eight corners.
* `Extents.around` — the least extents around voxels.
* `Voxel.InRange` — the coordinates that a box can have.
-/

namespace VoxelAlgebra

structure Extents where
  low : Voxel
  high : Voxel
  deriving DecidableEq, Repr, Inhabited

namespace Extents

def range (e : Extents) (a : Axis) : Int := (e.high.coord a - e.low.coord a).natAbs

def axisOrder (e : Extents) : AxisOrder := AxisOrder.byDecreasing e.range

def corner (e : Extents) (c : Corner) : Voxel :=
  Voxel.ofCoords fun a => if c.isHigh a then e.high.coord a else e.low.coord a

def corners (e : Extents) : Cube Voxel := Cube.ofFn e.corner

def extend (e : Extents) (v : Voxel) : Extents where
  low := Voxel.ofCoords fun a => min (e.low.coord a) (v.coord a)
  high := Voxel.ofCoords fun a => max (e.high.coord a) (v.coord a)

def around (v : Voxel) (rest : List Voxel) : Extents := rest.foldl extend ⟨v, v⟩

end Extents

/-- Boxes have signed 64-bit coordinates. -/
def InInt64 (n : Int) : Prop := -0x8000000000000000 ≤ n ∧ n < 0x8000000000000000

instance : DecidablePred InInt64 := fun _ => inferInstanceAs (Decidable (_ ∧ _))

def Voxel.InRange (v : Voxel) : Prop := InInt64 v.x ∧ InInt64 v.y ∧ InInt64 v.z

instance : DecidablePred Voxel.InRange := fun _ => inferInstanceAs (Decidable (_ ∧ _))

/-- The least extents around voxels. There has to be a voxel, and all have to be in range. -/
def Extents.ofVoxels : List Voxel → Except Fault Extents
  | [] => throw (.report (.emptyInput "BoundingBox" 1))
  | v :: rest =>
    if (v :: rest).all fun w => decide w.InRange then pure (Extents.around v rest)
    else throw .outOfRange

end VoxelAlgebra
