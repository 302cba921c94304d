import VoxelAlgebra.Report

/-!
# Views of several boxes

Several boxes can be shown as boxes, by the corners of each, or by all corners in one list.

## Main definitions

* `RegionMode` — the ways to show boxes, chosen by name.
* `RegionView`, `RegionView.of` — the boxes as shown.
-/

namespace VoxelAlgebra

inductive RegionMode where
  | boxes
  | corners
  | voxels
  deriving DecidableEq, Repr

namespace RegionMode

def all : List RegionMode := [boxes, corners, voxels]

def name : RegionMode → String
  | boxes => "RETURN_MODE_FULL_DIRECTORY"
  | corners => "RETURN_MODE_VOXELS_DIRECTORY"
  | voxels => "RETURN_MODE_VOXELS"

def ofDatum (mode : Datum) : Except Fault RegionMode := chooseNamed all name mode

end RegionMode

/-- Several boxes as shown: the boxes, the corners of each, or all corners in one list. -/
inductive RegionView (β π : Type) where
  | boxes (boxes : List β)
  | corners (corners : List (List π))
  | voxels (voxels : List π)
  deriving Repr

def RegionView.of {β π : Type} (cornersOf : β → List π) (boxes : List β) :
    RegionMode → RegionView β π
  | .boxes => .boxes boxes
  | .corners => .corners (boxes.map cornersOf)
  | .voxels => .voxels (boxes.flatMap cornersOf)

end VoxelAlgebra
