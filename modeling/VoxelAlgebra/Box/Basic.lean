import VoxelAlgebra.Box.Extents
import VoxelAlgebra.Box.Overlap

/-!
# Boxes and regions

A box keeps its eight corners and the extents that were worked out from them. A region is several
boxes taken together, which need not be convex.

## Main definitions

* `Box`, `Box.ofVoxels` — the least box around voxels.
* `Box.contains`, `Box.overlap?` — points in a box, and the overlap of two boxes.
* `Region`, `Region.contains`, `Region.overlap` — the same for several boxes.
-/

namespace VoxelAlgebra

structure Box where
  corners : Cube Voxel
  extents : Extents
  deriving DecidableEq, Repr

namespace Box

def ofExtents (e : Extents) : Box := ⟨e.corners, e⟩

def ofVoxels (voxels : List Voxel) : Except Fault Box := ofExtents <$> Extents.ofVoxels voxels

/-- A box with the given corners; its extents are the least ones around them. -/
def ofCorners (corners : Cube Voxel) : Box :=
  ⟨corners, Extents.around corners.flb corners.toList⟩

/-- Reading a corner needs no effect. -/
def corner (b : Box) (c : Corner) : Id Voxel := pure (b.corners.get c)

def contains (b : Box) (v : Voxel) : Bool := Id.run (isInside v b.corner)

def overlap? (b₁ b₂ : Box) : Option Box :=
  match Id.run (intersect b₁.corner b₂.corner) with
  | (true, corners) => ofCorners <$> corners.complete?
  | (false, _) => none

end Box

abbrev Region := List Box

namespace Region

def contains (r : Region) (v : Voxel) : Bool := r.any fun b => b.contains v

def overlap (r₁ r₂ : Region) : Region :=
  r₁.flatMap fun b₁ => r₂.filterMap fun b₂ => b₁.overlap? b₂

end Region
end VoxelAlgebra
