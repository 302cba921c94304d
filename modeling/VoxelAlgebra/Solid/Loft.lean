import VoxelAlgebra.Solid.Composite
import VoxelAlgebra.Grid.Hull
import VoxelAlgebra.Solid.Profile

/-!
# Lofts

A loft runs through a list of profiles, such as layers. Every two consecutive profiles form a
section. A section begins as all lines from a vertex of the first profile to a vertex of the second;
it is then sliced along its dominant axis, and each slice is replaced by the outline of its convex
hull, or by the filled hull. The voxels of the loft are the union of its sections.

Lines are added to a section, and sections joined, by evaluating equations over the identifiers of
the sets.

## Main definitions

* `hullVertices` — the convex hull of a slice, as voxels.
* `Loft`, `Loft.create` — lofts and their beginning.
* `Loft.generateEdges` — builds all sections and their union.
* `Loft.resetSections` — gives all sections back.
* `EdgeMode` — the ways to show the sections.
-/

namespace VoxelAlgebra

/-! ## Hulls of slices -/

def projectAlong (a : Axis) (v : Voxel) : PlanePoint :=
  match a with
  | .x => ⟨v.y, v.z⟩
  | .y => ⟨v.x, v.z⟩
  | .z => ⟨v.x, v.y⟩

def liftAlong (a : Axis) (k : Int) (p : PlanePoint) : Voxel :=
  match a with
  | .x => ⟨k, p.u, p.v⟩
  | .y => ⟨p.u, k, p.v⟩
  | .z => ⟨p.u, p.v, k⟩

def hullVertices (a : Axis) (k : Int) (bucket : List Voxel) : List Voxel :=
  (hull (bucket.map (projectAlong a))).map (liftAlong a k)

/-- The voxels of a closed outline, or of the filled polygon, traced by a layer that is given back
at once. -/
def traceOutline (vertices : List Voxel) (filled : Bool) : Edit Issuer (List Voxel) := do
  let layer ← Layer.create vertices
  let (voxels, layer) ← Edit.withSecond layer do
    Edit.onSecond Layer.generateEdges
    if filled then Layer.fillPolygon
    Edit.ofExcept (← get).2.base.absolute
  let _ ← layer.release
  return voxels

/-- The outlines or fillings of the hulls of all slices that are not empty. -/
def hullSlices (a : Axis) (filled : Bool) : Directory Voxel → Edit Issuer (List Voxel)
  | [] => pure []
  | (_, []) :: rest => hullSlices a filled rest
  | (k, bucket) :: rest => do
    let voxels ← traceOutline (hullVertices a k bucket) filled
    return voxels ++ (← hullSlices a filled rest)

/-! ## Lofts -/

/-- A loft with its sections by number. The sections belong to the loft, the profiles do not. -/
structure Loft where
  base : VoxelSet
  sections : List (Nat × VoxelSet) := []
  isShell : Bool := false
  deriving Repr

namespace Loft

def create (origin : List Number) : Edit Issuer Loft := do
  return { base := ← VoxelSet.createFrom origin [] }

def onBase {α : Type} (edit : Edit VoxelSet α) : Edit (Issuer × Loft) α :=
  Edit.onSecond (Edit.onPart Loft.base (fun base l => { l with base }) edit)

/-- Gives all sections back and empties the loft. -/
def resetSections : Edit (Issuer × Loft) Unit := do
  let (_, l) ← get
  Edit.ofExcept l.base.checkAlive
  Edit.onFirst (Composite.releaseSets (l.sections.map Prod.snd))
  Edit.onSecond (modify ({ · with sections := [], isShell := false }))
  onBase (VoxelSet.setFill [])

/-! ## Building a section -/

/-- The sets with which sections are built: a line, and the composite that evaluates equations. -/
structure Workshop where
  line : VoxelSet
  composite : Composite

def Workshop.onComposite {α : Type} (edit : Edit (Issuer × Composite) α) :
    Edit (Issuer × Workshop) α :=
  Edit.onPart (fun p => (p.1, p.2.composite)) (fun q p => (q.1, { p.2 with composite := q.2 })) edit

/-- A workshop and the section that is being built in it. -/
abbrev Draft := (Issuer × Workshop) × VoxelSet

namespace Draft

def bound (d : Draft) : Bound := [(d.2.id, d.2), (d.1.2.line.id, d.1.2.line)]

def onComposite {α : Type} (edit : Edit (Issuer × Composite) α) : Edit Draft α :=
  Edit.onFirst (Workshop.onComposite edit)

def onLine {α : Type} (edit : Edit VoxelSet α) : Edit Draft α :=
  Edit.onFirst (Edit.onSecond (Edit.onPart Workshop.line (fun line w => { w with line }) edit))

def prepare : Edit Draft Unit := do
  let d ← get
  onComposite do
    Composite.resetCache d.bound
    Composite.setEquation (d.1.2.line.id ++ "-" ++ d.2.id)

/-- Adds the voxels of a segment that the section does not have yet. -/
def addSegment (start finish : Voxel) : Edit Draft Unit := do
  onLine (VoxelSet.setFill (segment start finish))
  let bound := (← get).bound
  onComposite (Composite.interpret bound)
  let new ← Edit.ofExcept (← get).1.2.composite.base.absolute
  Edit.onSecond (VoxelSet.addFill new)

def addSegments : List (Voxel × Voxel) → Edit Draft Unit
  | [] => pure ()
  | (start, finish) :: rest => do
    addSegment start finish
    addSegments rest

def joinProfiles (first second : Profile) : Edit Draft Unit := do
  prepare
  let starts ← Edit.ofExcept first.vertices
  let finishes ← Edit.ofExcept second.vertices
  addSegments (starts.flatMap fun s => finishes.map fun f => (s, f))

def hullSection (shell : Bool) : Edit Draft Unit := do
  let s := (← get).2
  let voxels ← Edit.onFirst
    (Edit.onFirst (hullSlices s.derived.axes.first (!shell) s.derived.directory))
  Edit.onSecond (VoxelSet.setFill (Voxel.distinct voxels))

end Draft

/-! ## Building all sections -/

def onWorkshop {α : Type} (edit : Edit (Issuer × Workshop) α) :
    Edit ((Issuer × Loft) × Workshop) α :=
  Edit.onPart (fun p => (p.1.1, p.2)) (fun q p => ((q.1, p.1.2), q.2)) edit

def addSection (shell : Bool) (number : Nat) (first second : Profile) :
    Edit ((Issuer × Loft) × Workshop) Unit := do
  let finished ← onWorkshop do
    let fresh ← Edit.onFirst (VoxelSet.create .zero [])
    let (_, finished) ← Edit.withSecond fresh do
      Draft.joinProfiles first second
      Draft.hullSection shell
    return finished
  Edit.onFirst <| Edit.onSecond <|
    modify fun l => { l with sections := l.sections ++ [(number, finished)] }

def addSections (shell : Bool) (number : Nat) :
    List Profile → Edit ((Issuer × Loft) × Workshop) Unit
  | first :: second :: rest => do
    addSection shell number first second
    addSections shell (number + 1) (second :: rest)
  | _ => pure ()

/-- The voxels of the union of sections, through an equation over their identifiers. -/
def unionVoxels (sections : List VoxelSet) : Edit (Issuer × Workshop) (List Voxel) :=
  if sections.isEmpty then pure []
  else
    let bound := sections.map fun s => (s.id, s)
    Workshop.onComposite do
      Composite.resetCache bound
      Composite.setEquation (String.intercalate "∪" (sections.map VoxelSet.id))
      Composite.interpret bound
      Edit.ofExcept (← get).2.base.absolute

/-- Builds every section anew and makes their union the voxels of the loft. -/
def generateEdges (shell : Bool) (profiles : List Profile) : Edit (Issuer × Loft) Unit := do
  Edit.ofExcept (← get).2.base.checkAlive
  resetSections
  Edit.onSecond (modify ({ · with isShell := shell }))
  let line ← Edit.onFirst (VoxelSet.create .zero [])
  let composite ← Edit.onFirst (Composite.create [0, 0, 0] [])
  let (voxels, _) ← Edit.withSecond { line, composite } do
    addSections shell 0 profiles
    let sections := (← get).1.2.sections.map Prod.snd
    let voxels ← onWorkshop (unionVoxels sections)
    onWorkshop (Workshop.onComposite Composite.release)
    let line := (← get).2.line
    let _ ← Edit.onFirst (Edit.onFirst line.release)
    return voxels
  let origin := (← get).2.base.origin
  onBase (VoxelSet.setFill (voxels.map (· - origin)))

/-! ## Views -/

inductive EdgeMode where
  | sections
  | voxels
  deriving DecidableEq, Repr

namespace EdgeMode

def all : List EdgeMode := [sections, voxels]

def name : EdgeMode → String
  | sections => "RETURN_MODE_FULL_DIRECTORY"
  | voxels => "RETURN_MODE_VOXELS"

def ofDatum (mode : Datum) : Except Fault EdgeMode := chooseNamed all name mode

end EdgeMode

def sectionVoxels (l : Loft) : Except Fault (List (Nat × List Voxel)) := do
  l.base.checkAlive
  l.sections.mapM fun (number, s) => do return (number, ← s.absolute)

def allVoxels (l : Loft) : Except Fault (List Voxel) := do
  return Voxel.distinct ((← l.sectionVoxels).flatMap Prod.snd)

def release : Edit (Issuer × Loft) Unit := do
  resetSections
  let (_, l) ← get
  let base ← Edit.onFirst l.base.release
  Edit.onSecond (modify ({ · with base }))

end Loft
end VoxelAlgebra
