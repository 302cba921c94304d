import VoxelAlgebra.Solid.Profile

/-!
# Sweeps

A sweep is a profile, such as a layer, moved along a vector. The solid form joins every voxel of
the profile to its moved twin; the shell form joins only the edges, and keeps the profile and the
end cap as the two lids. The end cap is a filled layer through the moved vertices that belongs to
the sweep.

## Main definitions

* `Sweep`, `Sweep.create` — sweeps and their beginning.
* `Sweep.extrude` — joins the profile to its moved twin.
* `Sweep.reset` — goes back to the voxels of the swept set.
-/

namespace VoxelAlgebra

/-- A sweep. What is swept belongs to the caller, the end cap to the sweep. -/
structure Sweep where
  base : VoxelSet
  vector : Voxel
  cap : Option Layer := none
  isShell : Bool := false
  deriving Repr

namespace Sweep

/-- A new sweep along a vector has the voxels of the swept set. -/
def create (origin vector : List Number) (swept : Option VoxelSet) : Edit Issuer Sweep := do
  match swept with
  | none => throw (.report (.emptyInput "LayerVectorExtrude layer" 1))
  | some swept =>
    let vector ← Edit.ofExcept (Voxel.ofNumbers vector)
    let voxels ← Edit.ofExcept swept.absolute
    let relative ← Edit.ofExcept (unshiftNumbers origin voxels)
    return { base := ← VoxelSet.createFrom origin relative, vector }

def setAbsolute (voxels : List Voxel) : Edit (Issuer × Sweep) Unit :=
  Edit.onSecond <| Edit.onPart Sweep.base (fun base s => { s with base }) do
    let origin := (← get).origin
    VoxelSet.setFill (voxels.map (· - origin))

/-- Deletes the end cap; the sweep refers to it until it is replaced or dropped. -/
def releaseCap : Edit (Issuer × Sweep) Unit := do
  match (← get).2.cap with
  | none => return
  | some cap =>
    let cap ← Edit.onFirst cap.release
    Edit.onSecond (modify ({ · with cap := some cap }))

/-- Drops the end cap and goes back to the voxels of the swept set. -/
def reset (swept : VoxelSet) : Edit (Issuer × Sweep) Unit := do
  releaseCap
  Edit.onSecond (modify ({ · with cap := none, isShell := false }))
  setAbsolute (← Edit.ofExcept swept.absolute)

def changeVector (vector : List Number) (swept : VoxelSet) : Edit (Issuer × Sweep) Unit := do
  Edit.ofExcept (← get).2.base.checkAlive
  let vector ← Edit.ofExcept (Voxel.ofNumbers vector)
  Edit.onSecond (modify ({ · with vector }))
  reset swept

/-- Makes the filled layer through absolute vertices the end cap, and gives its voxels. -/
def buildCap (vertices : List Voxel) : Edit (Issuer × Sweep) (List Voxel) := do
  releaseCap
  let cap ← Edit.onFirst (Layer.create vertices)
  Edit.onSecond (modify ({ · with cap := some cap }))
  let onCap {α : Type} (edit : Edit (Issuer × Layer) α) : Edit (Issuer × Sweep) α :=
    Edit.onPart (fun p => (p.1, p.2.cap.getD cap)) (fun q p => (q.1, { p.2 with cap := some q.2 }))
      edit
  onCap (Edit.onSecond Layer.generateEdges)
  onCap Layer.fillPolygon
  onCap do Edit.ofExcept (← get).2.base.absolute

/-- The voxels of the segments from each voxel to its moved twin. -/
def tracks (vector : Voxel) (voxels : List Voxel) : List Voxel :=
  voxels.flatMap fun v => segment v (v + vector)

/-- The same without the voxels and their moved twins. -/
def innerTracks (vector : Voxel) (voxels : List Voxel) : List Voxel :=
  voxels.flatMap fun v => (segment v (v + vector)).tail.dropLast

/-- Sweeps the profile. Along the zero vector this is the profile itself, filled. A shell needs a
profile whose outline was traced. -/
def extrude (shell : Bool) (profile : Profile) : Edit (Issuer × Sweep) Unit := do
  Edit.ofExcept (← get).2.base.checkAlive
  Edit.onSecond (modify ({ · with isShell := shell }))
  let vector := (← get).2.vector
  let vertices ← Edit.ofExcept profile.vertices
  if vector = .zero then
    let cap ← buildCap vertices
    let fill ← Edit.ofExcept profile.base.absolute
    setAbsolute (Voxel.distinct (fill ++ cap))
  else
    let cap ← buildCap (vertices.map (· + vector))
    if shell then
      let edges ← Edit.ofExcept profile.edgeVoxels
      if edges.isEmpty then
        throw (.report
          (.emptyInput ("shell extrusion of layer " ++ profile.base.id ++ " edge directory") 1))
      let fill ← Edit.ofExcept profile.base.absolute
      setAbsolute (Voxel.distinct (innerTracks vector edges ++ cap ++ fill))
    else
      let fill ← Edit.ofExcept profile.base.absolute
      setAbsolute (Voxel.distinct (tracks vector fill ++ cap))

def release : Edit (Issuer × Sweep) Unit := do
  Edit.ofExcept (← get).2.base.checkAlive
  releaseCap
  Edit.onSecond (modify ({ · with cap := none }))
  let (_, s) ← get
  let base ← Edit.onFirst s.base.release
  Edit.onSecond (modify ({ · with base }))

end Sweep
end VoxelAlgebra
