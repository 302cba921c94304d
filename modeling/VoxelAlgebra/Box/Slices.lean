import VoxelAlgebra.Box.Given

/-!
# Slices

Voxels are sliced along the axis of the largest range of a box. Every integer of that range has a
slice, which may be empty. The voxels of a slice are sorted by the other two axes, so a point is
found by binary search in its slice.

## Main definitions

* `Directory` — the slices by their coordinate.
* `slices` — the slices of voxels and a box for each that is not empty.
* `Directory.indexOf?` — the place of a point in its slice.
-/

namespace VoxelAlgebra

open Coordinates

/-- Slices by their coordinate, in ascending order. -/
abbrev Directory (π : Type) := List (Int × List π)

def coordinatesBetween (low high : Int) : List Int :=
  (List.range (high - low + 1).toNat).map fun (i : Nat) => low + i

def pairLe (p q : Int × Int) : Bool := p.1 < q.1 || (p.1 = q.1 && p.2 ≤ q.2)

variable {π β : Type} [Coordinates (Except Fault) π]

/-- The coordinate of a voxel on the slicing axis, which has to be in the range that is sliced. -/
def sliceOf (a : Axis) (low high : Int) (v : π) : Except Fault (Int × π) := do
  let k ← coord v a
  if low ≤ k ∧ k ≤ high then return (k, v) else throw .noEntry

/-- The voxels sorted by two axes; voxels that agree on both keep their order. -/
def sortedBy (a b : Axis) (voxels : List π) : Except Fault (List π) := do
  let keyed ← voxels.mapM fun v => do
    let key : Int × Int := (← coord v a, ← coord v b)
    return (key, v)
  return (keyed.mergeSort fun p q => pairLe p.1 q.1).map Prod.snd

def slice (o : AxisOrder) (boxOf : List π → Except Fault β) (k : Int) (voxels : List π) :
    Except Fault ((Int × List π) × Option β) := do
  if voxels.isEmpty then return ((k, []), none)
  let sorted ← sortedBy o.second o.third voxels
  return ((k, sorted), some (← boxOf sorted))

/-- The slices of voxels along the first axis of `o` between two coordinates, and the box of every
slice that is not empty. -/
def slices (o : AxisOrder) (low high : Int) (boxOf : List π → Except Fault β) (voxels : List π) :
    Except Fault (Directory π × List β) := do
  let placed ← voxels.mapM (sliceOf o.first low high)
  let cut ← (coordinatesBetween low high).mapM fun k =>
    slice o boxOf k ((placed.filter fun p => p.1 = k).map Prod.snd)
  return (cut.map Prod.fst, cut.filterMap Prod.snd)

def GivenPoint.toNested (p : GivenPoint) : Nested :=
  .rows (p.values.map fun n => .number (.whole n))

def slicesOfGiven (box : GivenBox) (points : List GivenPoint) :
    Except Fault (Directory GivenPoint × List GivenBox) :=
  let o := box.axisOrder
  slices o (box.extents.low.coord o.first) (box.extents.high.coord o.first)
    (fun bucket => GivenBox.ofPoints (bucket.map GivenPoint.toNested)) points

/-! ## Search -/

namespace Directory

/-- The place of a key in sorted voxels, looked for between two places. -/
def search (o : AxisOrder) (key : Int × Int) (voxels : List Voxel) (low high : Nat) : Option Nat :=
  if low < high then
    let middle := (low + high - 1) / 2
    match voxels[middle]? with
    | none => none
    | some v =>
      let here : Int × Int := (v.coord o.second, v.coord o.third)
      if here = key then some middle
      else if pairLe here key then search o key voxels (middle + 1) high
      else search o key voxels low middle
  else none
termination_by high - low

/-- The place of a point in its slice. Further coordinates are read only if the slice of the first
one holds voxels. -/
def indexOf? {m : Type → Type} {ρ : Type} [Monad m] [Coordinates m ρ] (d : Directory Voxel)
    (o : AxisOrder) (p : ρ) : m (Option Nat) := do
  let k ← coord p o.first
  match d.lookup k with
  | none | some [] => return none
  | some voxels =>
    let key : Int × Int := (← coord p o.second, ← coord p o.third)
    return search o key voxels 0 voxels.length

end Directory
end VoxelAlgebra
