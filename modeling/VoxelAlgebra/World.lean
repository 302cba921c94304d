import VoxelAlgebra.Solid.Loft
import VoxelAlgebra.Solid.Sweep
import VoxelAlgebra.Solid.Line

/-!
# Objects that share a registry

A world holds the objects that a user has made, each under a handle, and the registry that their
identifiers come from. Objects refer to each other by handles; what belongs to an object is part of
it. A composite can be bound to itself.

## Main definitions

* `Solid` — the kinds of objects.
* `World` — the objects and the issuer of their identifiers.
* `World.createSet` and its siblings — new objects.
* `World.onSet` and its siblings — edits of an object of a kind.
* `World.delete` — the end of an object.
-/

namespace VoxelAlgebra

/-- The place of an object in its world. -/
abbrev Handle := Nat

/-- An object of any kind, with the handles of the objects that it refers to. -/
inductive Solid where
  | set (s : VoxelSet)
  | line (l : Line)
  | layer (l : Layer)
  | composite (c : Composite) (names : List (String × Handle))
  | sweep (s : Sweep) (swept : Handle)
  | loft (l : Loft) (profiles : List Handle)
  deriving Repr

namespace Solid

def base : Solid → VoxelSet
  | set s => s
  | line l => l.base
  | layer l => l.base
  | composite c _ => c.base
  | sweep s _ => s.base
  | loft l _ => l.base

def withBase (base : VoxelSet) : Solid → Solid
  | set _ => set base
  | line l => line { l with base }
  | layer l => layer { l with base }
  | composite c names => composite { c with base } names
  | sweep s swept => sweep { s with base } swept
  | loft l profiles => loft { l with base } profiles

@[simp] theorem base_withBase (s : VoxelSet) (o : Solid) : (o.withBase s).base = s := by
  cases o <;> rfl

def kindName : Solid → String
  | set _ => "VoxelSet"
  | line _ => "Line"
  | layer _ => "Layer"
  | composite .. => "CompositeVoxelCollection"
  | sweep .. => "LayerVectorExtrude"
  | loft .. => "LayerConvexExtrude"

def literal (o : Solid) : String := o.base.literal o.kindName

def profile : Solid → Profile
  | line l => l.profile
  | layer l => l.profile
  | o => o.base.profile

end Solid

/-- A repeated name keeps its first place with the last object. -/
def bindNames {α : Type} (pairs : List (String × α)) : List (String × α) :=
  pairs.foldl (fun names (name, a) =>
    if names.any fun e => e.1 = name then
      names.map fun e => if e.1 = name then (name, a) else e
    else names ++ [(name, a)]) []

structure World where
  issuer : Issuer
  solids : Array Solid := #[]

namespace World

def empty (source : IdSource) : World := { issuer := { source } }

/-! ## Access -/

def solid (h : Handle) : Edit World Solid := do
  match (← get).solids[h]? with
  | some o => return o
  | none => throw .noSuchObject

def put (h : Handle) (o : Solid) (w : World) : World :=
  { w with solids := w.solids.modify h fun _ => o }

def base (h : Handle) : Edit World VoxelSet := Solid.base <$> solid h

def add (o : Solid) : Edit World Handle := do
  let h := (← get).solids.size
  modify fun w => { w with solids := w.solids.push o }
  return h

def onIssuer {α : Type} (edit : Edit Issuer α) : Edit World α :=
  Edit.onPart World.issuer (fun issuer w => { w with issuer }) edit

def onPartOf {α τ : Type} (h : Handle) (part : τ) (write : τ → Solid)
    (edit : Edit (Issuer × τ) α) : Edit World α :=
  Edit.onPart (fun w => (w.issuer, part)) (fun p w => put h (write p.2) { w with issuer := p.1 })
    edit

def onSet {α : Type} (h : Handle) (edit : Edit VoxelSet α) : Edit World α := do
  let o ← solid h
  onPartOf h o.base (fun base => o.withBase base) (Edit.onSecond edit)

def onLine {α : Type} (h : Handle) (edit : Edit Line α) : Edit World α := do
  match ← solid h with
  | .line l => onPartOf h l .line (Edit.onSecond edit)
  | _ => throw .wrongKind

def onLayer {α : Type} (h : Handle) (edit : Edit (Issuer × Layer) α) : Edit World α := do
  match ← solid h with
  | .layer l => onPartOf h l .layer edit
  | _ => throw .wrongKind

def profile (h : Handle) : Edit World Profile := Solid.profile <$> solid h

def bound (names : List (String × Handle)) : Edit World Bound :=
  names.mapM fun (name, h) => do return (name, ← base h)

def onComposite {α : Type} (h : Handle) (edit : Bound → Edit (Issuer × Composite) α) :
    Edit World α := do
  match ← solid h with
  | .composite c names => do
    let bound ← bound names
    onPartOf h c (fun c => .composite c names) (edit bound)
  | _ => throw .wrongKind

def onLoft {α : Type} (h : Handle) (edit : List Profile → Edit (Issuer × Loft) α) :
    Edit World α := do
  match ← solid h with
  | .loft l profiles => do
    let values ← profiles.mapM profile
    onPartOf h l (fun l => .loft l profiles) (edit values)
  | _ => throw .wrongKind

/-! ## New objects -/

def createSet (origin : List Number) (fill : List (List Number)) : Edit World Handle := do
  add (.set (← onIssuer (VoxelSet.createFrom origin fill)))

def createLine (origin : List Number) (endpoints : List (List Number)) (doublePass : Bool) :
    Edit World Handle := do
  add (.line (← onIssuer (Line.create origin endpoints doublePass)))

def createLayer (origin : List Number) (vertices : List (List Number)) : Edit World Handle := do
  add (.layer (← onIssuer (Layer.createFrom origin vertices)))

def createComposite (origin : List Number) (names : List (String × Handle)) :
    Edit World Handle := do
  let names := bindNames names
  let bound ← bound names
  add (.composite (← onIssuer (Composite.create origin bound)) names)

def createSweep (origin vector : List Number) (swept : Option Handle) : Edit World Handle := do
  let set ← swept.mapM base
  let s ← onIssuer (Sweep.create origin vector set)
  add (.sweep s (swept.getD 0))

def createLoft (origin : List Number) (profiles : List Handle) : Edit World Handle := do
  add (.loft (← onIssuer (Loft.create origin)) profiles)

/-! ## Changes that follow handles -/

/-- Gives a composite other names. They are taken up even if its cache cannot be rebuilt. -/
def changeNames (h : Handle) (names : List (String × Handle)) : Edit World Unit := do
  match ← solid h with
  | .composite c _ => do
    Edit.ofExcept c.base.checkAlive
    modify (put h (.composite c (bindNames names)))
    onComposite h Composite.resetCache
  | _ => throw .wrongKind

def changeVector (h : Handle) (vector : List Number) : Edit World Unit := do
  match ← solid h with
  | .sweep s swept => do
    let set ← base swept
    onPartOf h s (fun s => .sweep s swept) (Sweep.changeVector vector set)
  | _ => throw .wrongKind

/-- Gives a sweep another object to sweep, and goes back to its voxels. -/
def changeSwept (h swept : Handle) : Edit World Unit := do
  match ← solid h with
  | .sweep s _ => do
    Edit.ofExcept s.base.checkAlive
    modify (put h (.sweep s swept))
    let set ← base swept
    onPartOf h s (fun s => .sweep s swept) (Sweep.reset set)
  | _ => throw .wrongKind

def extrude (h : Handle) (shell : Bool) : Edit World Unit := do
  match ← solid h with
  | .sweep s swept => do
    let p ← profile swept
    onPartOf h s (fun s => .sweep s swept) (Sweep.extrude shell p)
  | _ => throw .wrongKind

def delete (h : Handle) : Edit World Unit := do
  match ← solid h with
  | .set s => do modify (put h (.set (← onIssuer s.release)))
  | .line l => do modify (put h (.line { l with base := ← onIssuer l.base.release }))
  | .layer l => do modify (put h (.layer (← onIssuer l.release)))
  | .composite c names => do
    onPartOf h c (fun c => .composite c (if c.base.isDeleted then [] else names)) Composite.release
  | .sweep s swept => onPartOf h s (fun s => .sweep s swept) Sweep.release
  | .loft l profiles => onPartOf h l (fun l => .loft l profiles) Loft.release

end World
end VoxelAlgebra
