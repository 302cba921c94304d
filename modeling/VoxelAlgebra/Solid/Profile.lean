import VoxelAlgebra.Solid.Layer
import VoxelAlgebra.Solid.Line

/-!
# Profiles

A profile is what a sweep or a loft reads of another object: its voxels, its vertices, and the
voxels of its edges. A layer has all three, a line has no edges, and other objects have only voxels.

## Main definitions

* `Profile` — the readings of an object.
* `VoxelSet.profile`, `Line.profile`, `Layer.profile` — the profiles of the kinds of objects.
-/

namespace VoxelAlgebra

/-- What is read of an object that is swept or lofted, in absolute coordinates. -/
structure Profile where
  base : VoxelSet
  vertices : Except Fault (List Voxel)
  edgeVoxels : Except Fault (List Voxel)

/-- A set of voxels has neither vertices nor edges. -/
def VoxelSet.profile (s : VoxelSet) : Profile := ⟨s, .error .wrongKind, .error .wrongKind⟩

def Line.profile (l : Line) : Profile := ⟨l.base, l.vertices, .error .wrongKind⟩

def Layer.profile (l : Layer) : Profile := ⟨l.base, l.absoluteVertices, l.edgeVoxels⟩

end VoxelAlgebra
