import VoxelAlgebra.Grid.Segment
import VoxelAlgebra.Solid.VoxelSet

/-!
# Layers

A layer is a voxel set with the vertices of a closed polygon, relative to its origin. Its outline
joins every vertex to the next one and the last to the first. Filling treats each slice of the
current voxels as a polygon of its own: the voxels of a slice of an outline are sorted along the
next axis, so their outline is the solid span between them.

## Main definitions

* `outline`, `outlineFill` — the edges of a closed polygon and their voxels.
* `Layer`, `Layer.create` — layers and their beginning.
* `Layer.generateEdges`, `Layer.fillPolygon` — tracing the outline, and filling it.
-/

namespace VoxelAlgebra

/-- The edges of a closed polygon: the path from each vertex to the next, and from the last vertex
to the first. -/
def outline (vertices : List Voxel) : List (List Voxel) :=
  List.zipWith segment vertices (vertices.tail ++ vertices.take 1)

/-- The voxels of an outline: the inner voxels of the edges in order, then the vertices. -/
def outlineFill (vertices : List Voxel) : List Voxel :=
  Voxel.distinct ((outline vertices).flatMap (fun path => path.tail.dropLast) ++ vertices)

def edgeName (count i : Nat) : String :=
  "V" ++ toString i ++ "V" ++ toString ((i + 1) % count)

/-- A layer; `edges` are the paths of its outline by name, once it was traced. -/
structure Layer where
  base : VoxelSet
  vertices : List Voxel
  edges : List (String × List Voxel) := []
  deriving Repr

namespace Layer

/-- The vertices of a layer; there has to be one. -/
def verticesFrom (rows : List (List Number)) : Except Fault (List Voxel) :=
  if rows.isEmpty then throw (.report (.emptyInput "Layer" 1)) else rows.mapM Voxel.ofNumbers

def create (vertices : List Voxel) : Edit Issuer Layer := do
  if vertices.isEmpty then throw (.report (.emptyInput "Layer" 1))
  return { base := ← VoxelSet.create .zero vertices, vertices }

def createFrom (origin : List Number) (vertices : List (List Number)) : Edit Issuer Layer := do
  let vertices ← Edit.ofExcept (verticesFrom vertices)
  let id ← Issuer.issue
  let base ← Edit.ofExcept do VoxelSet.ofParts id (← Voxel.ofNumbers origin) vertices
  return { base, vertices }

def onBase {α : Type} : Edit VoxelSet α → Edit Layer α :=
  Edit.onPart Layer.base fun base l => { l with base }

/-- Gives the layer other vertices, which are then its voxels. -/
def changeVertices (rows : List (List Number)) : Edit Layer Unit := do
  Edit.ofExcept (← get).base.checkAlive
  let vertices ← Edit.ofExcept (verticesFrom rows)
  modify ({ · with vertices, edges := [] })
  onBase (VoxelSet.setFill vertices)

def namedEdges (vertices : List Voxel) : List (String × List Voxel) :=
  (outline vertices).mapIdx fun i path => (edgeName vertices.length i, path)

/-- Traces the outline; its voxels become those of the layer. -/
def generateEdges : Edit Layer Unit := do
  let l ← get
  Edit.ofExcept l.base.checkAlive
  set { l with edges := namedEdges l.vertices }
  onBase (VoxelSet.setFill (outlineFill l.vertices))

/-- The voxels of the outline through vertices, traced by a layer that is given back at once. -/
def scratchOutline (vertices : List Voxel) : Edit Issuer (List Voxel) := do
  let scratch ← create vertices
  let (outcome, traced) := generateEdges.outcome scratch
  Edit.ofExcept outcome
  let _ ← traced.base.release
  return traced.base.fill

def sliceOutlines (origin : Voxel) : Directory Voxel → Edit Issuer (List Voxel)
  | [] => pure []
  | (_, []) :: rest => sliceOutlines origin rest
  | (_, bucket) :: rest => do
    let voxels ← scratchOutline (bucket.map (· - origin))
    return voxels ++ (← sliceOutlines origin rest)

def fillPolygon : Edit (Issuer × Layer) Unit := do
  let (_, l) ← get
  Edit.ofExcept l.base.checkAlive
  let fill ← Edit.onFirst (sliceOutlines l.base.origin l.base.derived.directory)
  Edit.onSecond (onBase (VoxelSet.setFill (Voxel.distinct fill)))

def absoluteVertices (l : Layer) : Except Fault (List Voxel) := do
  l.base.checkAlive
  return l.vertices.map (· + l.base.origin)

def absoluteEdges (l : Layer) : Except Fault (List (String × List Voxel)) := do
  l.base.checkAlive
  return l.edges.map fun (name, path) => (name, path.map (· + l.base.origin))

def edgeVoxels (l : Layer) : Except Fault (List Voxel) := do
  return (← l.absoluteEdges).flatMap Prod.snd

/-- Deletes a layer; it has no edges any more. -/
def release (l : Layer) : Edit Issuer Layer := do
  return { l with base := ← l.base.release, edges := [] }

end Layer
end VoxelAlgebra
