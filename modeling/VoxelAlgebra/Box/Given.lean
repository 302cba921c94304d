import VoxelAlgebra.Box.Nested
import VoxelAlgebra.Box.Basic
import VoxelAlgebra.Edit

/-!
# Boxes as given

A caller can describe a box by corners of any number and length. They are kept exactly as they were
given; the extents are worked out from their numbers taken in threes, and a corner that is not there
fails only when it is read.

## Main definitions

* `GivenBox` — a box with corners as given.
* `Payload`, `GivenBox.ofPayload` — what a box is made from.
* `GivenBox.contains`, `GivenBox.overlap?` — points in it, and overlaps.
* `correctGiven` — inferring the missing ones of given corners.
-/

namespace VoxelAlgebra

structure GivenBox where
  corners : List GivenPoint
  extents : Extents
  deriving DecidableEq, Repr

/-- Corners that are given one by one have to be there when they are read. -/
def givenCorner (corners : List GivenPoint) (c : Corner) : Except Fault GivenPoint :=
  match corners[c.index]? with
  | some p => .ok p
  | none => .error .missingCoordinate

def sameLength (rows : List GivenPoint) : Bool :=
  match rows with
  | [] => true
  | row :: rest => rest.all fun other => other.values.length = row.values.length

namespace GivenBox

def ofExtents (e : Extents) : GivenBox := ⟨e.corners.toList.map GivenPoint.ofVoxel, e⟩

/-- The box whose eight corners lie at these least and greatest coordinates, in this order on every
axis even if the least are not the smaller ones. -/
def cornersBetween (low high : GivenPoint) : Except Fault (List GivenPoint) := do
  let e : Extents := ⟨← Voxel.ofGiven low, ← Voxel.ofGiven high⟩
  return e.corners.toList.map GivenPoint.ofVoxel

/-- The least box around the points that nested numbers form. Each number is taken in as a whole
before the next one is looked at. -/
def ofPoints (points : List Nested) : Except Fault GivenBox := do
  if points.isEmpty then throw (.report (.emptyInput "BoundingBox" 1))
  unless (Nested.rows points).isRegular do throw .malformedRows
  let numbers ← (Nested.rows points).numbers.mapM fun q => q.toCoordinate >>= boxCoordinate
  return ofExtents (← Extents.ofNumbers numbers)

def extentsOfCorners (corners : List GivenPoint) : Except Fault Extents :=
  if sameLength corners then Extents.ofNumbers (corners.flatMap GivenPoint.values)
  else throw .malformedRows

/-- Takes up new corners. They are kept even if no extents can be worked out from them. -/
def setCorners (corners : List GivenPoint) : Edit GivenBox Unit := do
  modify ({ · with corners := corners })
  let e ← Edit.ofExcept (extentsOfCorners corners)
  modify ({ · with extents := e })

def ofCorners (corners : List GivenPoint) : Except Fault GivenBox := do
  return ⟨corners, ← extentsOfCorners corners⟩

def contains (b : GivenBox) (p : GivenPoint) : Except Fault Bool :=
  isInside p (givenCorner b.corners)

def overlap? (b₁ b₂ : GivenBox) : Except Fault (Option GivenBox) := do
  let (isFull, corners) ← intersect (givenCorner b₁.corners) (givenCorner b₂.corners)
  if isFull then return some (← ofCorners (corners.toList.filterMap id)) else return none

def copy (b : GivenBox) : Except Fault GivenBox := ofCorners b.corners

/-- Boxes are compared by their corners only. -/
def sameCorners (b₁ b₂ : GivenBox) : Bool := b₁.corners = b₂.corners

def axisOrder (b : GivenBox) : AxisOrder := b.extents.axisOrder

/-- The coordinate on a numbered axis; negative numbers count from the last axis. -/
def onAxis (v : Voxel) (number : Int) : Except Fault Int :=
  match Axis.all.find? fun a => (a.index : Int) = number ∨ (a.index : Int) - 3 = number with
  | some a => .ok (v.coord a)
  | none => .error .missingCoordinate

def labels (b : GivenBox) (suffix : String) : List String :=
  b.axisOrder.toList.map fun a => a.name ++ suffix

/-- The written form of a box shows its extents. -/
def literal (b : GivenBox) : String :=
  "BoundingBox(" ++ b.extents.low.literal ++ ", " ++ b.extents.high.literal ++ ")"

end GivenBox

/-- What a box is made from: points, corners, or something in a mode that does not exist. -/
inductive Payload where
  | points (points : List Nested)
  | corners (corners : List GivenPoint)
  | unknown (mode : Datum)
  deriving Repr

def GivenBox.ofPayload : Payload → Except Fault GivenBox
  | .points points => ofPoints points
  | .corners corners => ofCorners corners
  | .unknown mode =>
    throw (.report (.invalidMode mode
      [.text "BoundingBoxPayload.CORNERS", .text "BoundingBoxPayload.POINTS"]))

/-! ## Corners with gaps -/

/-- Infers the missing ones of given corners. Corners behind the eighth count as known, but nothing
is inferred from them. -/
def correctGiven (corners : List (Option GivenPoint)) :
    Except Fault (Bool × List (Option GivenPoint)) := do
  if corners.length < 8 then throw .missingCoordinate
  let known : Cube (Option GivenPoint) := Cube.ofFn fun c => (corners[c.index]?).join
  let spare := corners.drop 8
  let (isFull, full) ← correct (8 - spare.countP Option.isSome) known
  return (isFull, full.toList ++ spare)

def isCorrectableGiven (corners : List (Option GivenPoint)) : Except Fault Bool :=
  if corners.length < 8 then throw .missingCoordinate
  else pure (IsCorrectable (Cube.ofFn fun c => (corners[c.index]?).join))

/-! ## Several boxes -/

/-- Whether one of the boxes contains the point; the search ends at the first that does. -/
def anyContains (boxes : List GivenBox) (p : GivenPoint) : Except Fault Bool :=
  boxes.anyM fun b => b.contains p

end VoxelAlgebra
