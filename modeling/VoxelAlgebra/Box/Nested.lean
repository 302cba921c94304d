import VoxelAlgebra.Box.Extents
import VoxelAlgebra.Number

/-!
# Nested numbers

The points of a box can be given as nested numbers, as long as all lists of a level have one length
and there are at most 64 levels. The numbers are read in order and taken in threes.

## Main definitions

* `Nested`, `Nested.shape?`, `Nested.numbers` — nested numbers, their shape, and the flat list.
* `Nested.isRegular` — whether nested numbers can be the points of a box.
* `boxCoordinate` — a number in the range of the coordinates of boxes.
* `threes`, `Extents.ofNumbers` — the voxels that numbers form, and the extents around them.
-/

namespace VoxelAlgebra

inductive Nested where
  | number (q : Number)
  | rows (items : List Nested)
  deriving Repr, Inhabited

namespace Nested

mutual

/-- The lengths of the lists on each level, if all lists of a level have one length. -/
def shape? : Nested → Option (List Nat)
  | number _ => some []
  | rows items => shapeOfRows? items

def shapeOfRows? : List Nested → Option (List Nat)
  | [] => some [0]
  | item :: rest => do
    let inner ← shape? item
    match ← shapeOfRows? rest with
    | 0 :: _ => return 1 :: inner
    | n :: shape => if shape = inner then return (n + 1) :: inner else none
    | [] => none

end

mutual

def numbers : Nested → List Number
  | number q => [q]
  | rows items => numbersOfRows items

def numbersOfRows : List Nested → List Number
  | [] => []
  | item :: rest => numbers item ++ numbersOfRows rest

end

def maxLevels : Nat := 64

/-- Whether all lists of a level have one length and there are not too many levels. -/
def isRegular (points : Nested) : Bool := points.shape?.any fun shape => shape.length ≤ maxLevels

end Nested

def boxCoordinate (n : Int) : Except Fault Int :=
  if InInt64 n then .ok n else .error .outOfRange

/-- Numbers taken in threes; none may be left over. -/
def threes : List Int → Option (List Voxel)
  | [] => some []
  | x :: y :: z :: rest => (threes rest).map (⟨x, y, z⟩ :: ·)
  | _ => none

/-- The extents of numbers taken in threes. All numbers have to be in range. -/
def Extents.ofNumbers (numbers : List Int) : Except Fault Extents := do
  match threes (← numbers.mapM boxCoordinate) with
  | some (v :: rest) => return Extents.around v rest
  | _ => throw .malformedRows

end VoxelAlgebra
