import VoxelAlgebra.Number
import VoxelAlgebra.Report
import VoxelAlgebra.Grid.Voxel

/-!
# Points as given

A caller gives a point as a row of numbers, which may be too short or too long. Rules about points
are written once for every way in which a coordinate is read: a voxel has all its coordinates,
while reading a given point fails at a coordinate that is not there. Only coordinates that are
looked at count, and numbers behind the third are ignored.

## Main definitions

* `Point`, `Coordinates` — points, and reading them with an effect.
* `GivenPoint` — a row of whole numbers.
* `Voxel.ofNumbers`, `Voxel.ofGiven` — the voxel of a row.
* `shiftGiven`, `unshiftGiven`, `unshiftNumbers` — rows moved by a given origin.
-/

namespace VoxelAlgebra

class Point (π : Type) where
  ofCoords : (Axis → Int) → π
  /-- The point at another place of one axis. -/
  moveTo : π → Axis → Int → π

/-- Points whose coordinates are read with the effect `m`. -/
class Coordinates (m : Type → Type) (π : Type) extends Point π where
  coord : π → Axis → m Int

instance : Point Voxel where
  ofCoords := Voxel.ofCoords
  moveTo v a n := Voxel.ofCoords fun b => if b = a then n else v.coord b

/-- A voxel has all its coordinates, so reading one needs no effect. -/
instance {m : Type → Type} [Monad m] : Coordinates m Voxel where
  coord v a := pure (v.coord a)

/-- A row of whole numbers, of any length. -/
structure GivenPoint where
  values : List Int
  deriving DecidableEq, Repr

namespace GivenPoint

def read (p : GivenPoint) (a : Axis) : Except Fault Int :=
  match p.values[a.index]? with
  | some n => .ok n
  | none => .error .missingCoordinate

def ofVoxel (v : Voxel) : GivenPoint := ⟨[v.x, v.y, v.z]⟩

instance : Point GivenPoint where
  ofCoords f := ofVoxel (Voxel.ofCoords f)
  moveTo p a n := ⟨p.values.set a.index n⟩

instance : Coordinates (Except Fault) GivenPoint := { coord := read }

end GivenPoint

/-- A number cut off toward zero. An infinite number is out of range, what is no number is
malformed. -/
def Number.toCoordinate (q : Number) : Except Fault Int :=
  match q.truncate, q with
  | some n, _ => .ok n
  | none, .binary .notANumber => .error .malformedRows
  | none, _ => .error .outOfRange

def GivenPoint.ofNumbers (row : List Number) : Except Fault GivenPoint :=
  GivenPoint.mk <$> row.mapM Number.toCoordinate

namespace Voxel

def ofGiven (p : GivenPoint) : Except Fault Voxel := do
  return ⟨← p.read .x, ← p.read .y, ← p.read .z⟩

def ofNumbers (row : List Number) : Except Fault Voxel := do
  let read (a : Axis) : Except Fault Int :=
    match row[a.index]? with
    | some q => q.toCoordinate
    | none => .error .missingCoordinate
  return ⟨← read .x, ← read .y, ← read .z⟩

@[simp] theorem ofNumbers_whole (x y z : Int) :
    ofNumbers [.whole x, .whole y, .whole z] = .ok ⟨x, y, z⟩ := rfl

def literal (v : Voxel) : String :=
  "(" ++ Datum.separated (Axis.all.map fun a => toString (v.coord a)) ++ ")"

end Voxel

/-- An origin has exactly three numbers. -/
def exactlyThree {α : Type} : List α → Except Fault (α × α × α)
  | [x, y, z] => .ok (x, y, z)
  | _ => .error .malformedRows

/-- The rows moved by an origin. The origin is looked at first, even if there are no rows. -/
def shiftGiven (origin : List Int) (rows : List GivenPoint) : Except Fault (List Voxel) := do
  let (x, y, z) ← exactlyThree origin
  rows.mapM fun row => do return (← Voxel.ofGiven row) + ⟨x, y, z⟩

def unshiftGiven (origin : List Int) (rows : List GivenPoint) : Except Fault (List Voxel) := do
  let (x, y, z) ← exactlyThree origin
  rows.mapM fun row => do return (← Voxel.ofGiven row) - ⟨x, y, z⟩

def unshiftCoordinate (origin : Number) (n : Int) : Except Fault Number :=
  match origin.subtractFrom n with
  | some q => .ok q
  | none => .error .outOfRange

/-- Voxels moved back by an origin as given, which makes rows of numbers of them. -/
def unshiftNumbers (origin : List Number) (voxels : List Voxel) :
    Except Fault (List (List Number)) := do
  let (x, y, z) ← exactlyThree origin
  voxels.mapM fun v => do
    return [← unshiftCoordinate x v.x, ← unshiftCoordinate y v.y, ← unshiftCoordinate z v.z]

end VoxelAlgebra
