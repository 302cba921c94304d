import VoxelAlgebra.Box.Corner
import VoxelAlgebra.Grid.Point

/-!
# Overlap of two boxes

Two boxes are intersected by clipping the edges of each against the faces of the other, which finds
some corners of the overlap. The others are inferred from the shape of a box: two corners that
differ on two or three axes determine every corner of the box that they span.

Boxes are read corner by corner and coordinate by coordinate with an effect, so the same rules serve
complete boxes and boxes that a caller gave with parts missing.

## Main definitions

* `isInside` — whether a point lies in a box, the faces included.
* `clip` — the corners of the overlap that are on edges of the two boxes.
* `IsCorrectable`, `correct` — inferring the missing corners.
* `intersect` — the corners of the overlap, and whether they are complete.
-/

namespace VoxelAlgebra

open Coordinates

variable {m : Type → Type} {π : Type} [Monad m] [Coordinates m π]

/-! ## Points in a box -/

/-- Whether `p` lies between `low` and `high` on an axis; `high` is read only if `low` allows it. -/
@[specialize] def isBetween (low p high : π) (a : Axis) : m Bool := do
  let l ← coord low a
  let n ← coord p a
  if l ≤ n then
    let h ← coord high a
    return n ≤ h
  else return false

@[specialize] def isInside (p : π) (box : Corner → m π) : m Bool := do
  let low ← box .flb
  let high ← box .brt
  Axis.all.allM fun a => isBetween low p high a

/-! ## Clipping -/

/-- Whether the edge from `low` to `high` along `a` passes through a face of `other` at `plane`. -/
@[specialize] def crosses (low high : π) (a : Axis) (plane : Int) (other : Corner → m π) :
    m Bool := do
  let l ← coord low a
  if l ≤ plane then
    let h ← coord high a
    if plane ≤ h then
      let otherLow ← other .flb
      let otherHigh ← other .brt
      a.others.allM fun b => isBetween otherLow low otherHigh b
    else return false
  else return false

/-- Records where one edge of a box passes through a face of the other: at the low face the low end
of the edge moves there, at the high face the high end. -/
@[specialize] def clipEdge (box other : Corner → m π) (a : Axis) (lowPlane highPlane : Int)
    (found : Cube (Option π)) (edge : Corner × Corner) : m (Cube (Option π)) := do
  let low ← box edge.1
  let high ← box edge.2
  let atLow ← crosses low high a lowPlane other
  let found := if atLow then found.set edge.1 (some (Point.moveTo low a lowPlane)) else found
  let atHigh ← crosses low high a highPlane other
  return if atHigh then found.set edge.2 (some (Point.moveTo high a highPlane)) else found

@[specialize] def clipEdges (box other : Corner → m π) (a : Axis) (found : Cube (Option π)) :
    m (Cube (Option π)) := do
  let lowPlane ← coord (← other .flb) a
  let highPlane ← coord (← other .brt) a
  (Corner.edges a).foldlM (clipEdge box other a lowPlane highPlane) found

@[specialize] def keepInside (box other : Corner → m π) (found : Cube (Option π)) (c : Corner) :
    m (Cube (Option π)) := do
  let p ← box c
  if ← isInside p other then return found.set c (some p) else return found

@[specialize] def keepEnds (box other : Corner → m π) (a : Axis) (found : Cube (Option π)) :
    m (Cube (Option π)) :=
  ((Corner.edges a).flatMap fun edge => [edge.1, edge.2]).foldlM (keepInside box other) found

@[specialize] def clipAxis (b₁ b₂ : Corner → m π) (found : Cube (Option π)) (a : Axis) :
    m (Cube (Option π)) := do
  let found ← clipEdges b₁ b₂ a found
  let found ← clipEdges b₂ b₁ a found
  let found ← keepEnds b₁ b₂ a found
  keepEnds b₂ b₁ a found

@[specialize] def clip (b₁ b₂ : Corner → m π) : m (Cube (Option π)) :=
  Axis.all.foldlM (clipAxis b₁ b₂) (Cube.fill none)

/-! ## Inferring corners -/

/-- Whether the known corners determine the box: on every axis one of them is on the low side and
one on the high side. -/
def IsCorrectable (known : Cube (Option π)) : Prop :=
  ∀ a ∈ Axis.all, ∀ side ∈ [false, true], ∃ c ∈ Corner.all,
    c.isHigh a = side ∧ (known.get c).isSome

instance (known : Cube (Option π)) : Decidable (IsCorrectable known) :=
  inferInstanceAs (Decidable (∀ a ∈ Axis.all, _))

/-- The corner `k` of a box with the corners `p` at `i` and `q` at `j`: it shares the coordinates of
`p` on the axes where it is on the side of `i`, the others with `q`. -/
@[specialize] def inferCorner (p q : π) (i k : Corner) : m π := do
  let along (a : Axis) : m Int := coord (if k.isHigh a = i.isHigh a then p else q) a
  let x ← along .x
  let y ← along .y
  let z ← along .z
  return Point.ofCoords fun
    | .x => x
    | .y => y
    | .z => z

@[specialize] def inferMissing (p q : π) (i : Corner) (known : Cube (Option π)) (k : Corner) :
    m (Cube (Option π)) :=
  match known.get k with
  | some _ => pure known
  | none => do return known.set k (some (← inferCorner p q i k))

/-- Applies one rule if both its corners are known. -/
@[specialize] def applyRule (known : Cube (Option π)) (rule : Corner × Corner × List Corner) :
    m (Cube (Option π)) :=
  match known.get rule.1, known.get rule.2.1 with
  | some p, some q => rule.2.2.foldlM (inferMissing p q rule.1) known
  | _, _ => pure known

/-- Applies the rules in turn until `goal` corners are known or a round finds nothing new. -/
@[specialize] def infer (goal : Nat) (known : Cube (Option π)) : m (Cube (Option π)) := do
  if goal ≤ known.known then return known
  let next ← Corner.rules.foldlM applyRule known
  if next.toList.countP Option.isNone < known.toList.countP Option.isNone then infer goal next
  else return next
termination_by known.toList.countP Option.isNone

/-- Fills in missing corners until `goal` are known, and tells whether that many are known in the
end. Corners that do not determine a box are left as they are. -/
@[specialize] def correct (goal : Nat) (known : Cube (Option π)) : m (Bool × Cube (Option π)) := do
  if IsCorrectable known then
    let full ← infer goal known
    return (goal ≤ full.known, full)
  else return (false, known)

/-- The corners of the overlap of two boxes, and whether they overlap. Boxes that touch overlap in a
flat box; without an overlap the corners are those that were found. -/
@[specialize] def intersect (b₁ b₂ : Corner → m π) : m (Bool × Cube (Option π)) := do
  correct 8 (← clip b₁ b₂)

end VoxelAlgebra
