import VoxelAlgebra.Grid.Voxel

/-!
# Segments

A segment is traced voxel by voxel. The walk moves one unit at a time along the axis of the largest
change. On the other axes the change accumulates, and the walk moves by one whenever the accumulated
change has reached the largest change; this is checked before the change of a step is added.

Tracing a segment backward does not always give the reverse of tracing it forward.

## Main definitions

* `dominantAxis` — the axis of the largest change.
* `Walk`, `Walk.next` — the state of a walk and its step.
* `segmentAlong`, `segment` — the voxels of a segment, both ends included.
-/

namespace VoxelAlgebra

/-- The axis of the largest change. Of equal changes that on y is taken first, then that on x. -/
def dominantAxis (change : Voxel) : Axis :=
  let size (a : Axis) : Nat := (change.coord a).natAbs
  if size .z ≤ size .y ∧ size .x ≤ size .y then .y
  else if size .y ≤ size .x ∧ size .z ≤ size .x then .x
  else .z

/-- Where a walk is, and how much change each axis has accumulated. -/
structure Walk where
  position : Voxel
  pending : Axis → Nat

namespace Walk

/-- The state at step `i` of a walk from `start`, from the state one step before. -/
def next (start change : Voxel) (major : Axis) (i : Nat) (w : Walk) : Walk :=
  let span := (change.coord major).natAbs
  let moves (a : Axis) : Bool := span ≤ w.pending a
  let position (a : Axis) : Int :=
    if a = major then start.coord a + i * (change.coord a).sign
    else if moves a then w.position.coord a + (change.coord a).sign
    else w.position.coord a
  let pending (a : Axis) : Nat :=
    (if moves a then w.pending a - span else w.pending a) + (change.coord a).natAbs
  let x := pending .x
  let y := pending .y
  let z := pending .z
  { position := Voxel.ofCoords position
    pending := fun
      | .x => x
      | .y => y
      | .z => z }

def positions (start change : Voxel) (major : Axis) : (count i : Nat) → Walk → List Voxel
  | 0, _, _ => []
  | count + 1, i, w =>
    let w := next start change major i w
    w.position :: positions start change major count (i + 1) w

end Walk

def segmentAlong (major : Axis) (start finish : Voxel) : List Voxel :=
  let change := finish - start
  if change.coord major = 0 then [finish]
  else Walk.positions start change major ((change.coord major).natAbs + 1) 0 ⟨start, fun _ => 0⟩

/-- The voxels of the segment from `start` to `finish`, both included. -/
def segment (start finish : Voxel) : List Voxel :=
  segmentAlong (dominantAxis (finish - start)) start finish

end VoxelAlgebra
