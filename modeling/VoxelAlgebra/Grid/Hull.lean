import VoxelAlgebra.Grid.Point

/-!
# Convex hulls in the plane

The hull of plane points is built as a lower and an upper chain over the points in lexicographic
order. A point of a chain is dropped as soon as the path through it does not turn to the left.

## Main definitions

* `PlanePoint` — a point of the plane, ordered by its coordinates.
* `orientation` — the turn of a path through three points.
* `hull` — the corners of the convex hull, counter-clockwise from the least point.
-/

namespace VoxelAlgebra

structure PlanePoint where
  u : Int
  v : Int
  deriving DecidableEq, Repr, Inhabited

namespace PlanePoint

def le (p q : PlanePoint) : Bool := p.u < q.u || (p.u = q.u && p.v ≤ q.v)

def ofGiven (p : GivenPoint) : Except Fault PlanePoint := do
  return ⟨← p.read .x, ← p.read .y⟩

end PlanePoint

/-- The turn of the path through three points: negative to the left, positive to the right, zero if
the points are on one line. -/
def orientation (p q r : PlanePoint) : Int :=
  (q.v - p.v) * (r.u - q.u) - (r.v - q.v) * (q.u - p.u)

/-- Drops points from the end of a chain until the path to `p` turns to the left. The chain has its
last point first. -/
def dropRightTurns (p : PlanePoint) : List PlanePoint → List PlanePoint
  | q :: o :: chain =>
    if 0 ≤ orientation o q p then dropRightTurns p (o :: chain) else q :: o :: chain
  | chain => chain

/-- The left-turning chain over points in order, with its last point first. -/
def leftChain (points : List PlanePoint) : List PlanePoint :=
  points.foldl (fun chain p => p :: dropRightTurns p chain) []

def dropRepeats : List PlanePoint → List PlanePoint
  | p :: q :: rest => if p = q then dropRepeats (q :: rest) else p :: dropRepeats (q :: rest)
  | points => points

def sortedPoints (points : List PlanePoint) : List PlanePoint :=
  dropRepeats (points.mergeSort PlanePoint.le)

/-- The corners of the convex hull, counter-clockwise from the least point. Points within an edge
are no corners; one or two different points are their own hull. -/
def hull (points : List PlanePoint) : List PlanePoint :=
  let sorted := sortedPoints points
  if sorted.length ≤ 2 then sorted
  else (leftChain sorted).tail.reverse ++ (leftChain sorted.reverse).tail.reverse

end VoxelAlgebra
