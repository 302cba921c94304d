/-!
# Binary numbers

A binary number has a sign, at most 53 significant bits and an exponent within fixed bounds. A
number that is no binary number is rounded to the nearest one, and a tie goes to the one whose last
bit is zero; beyond the greatest binary number it becomes infinite. Where two infinite numbers would
cancel, the difference is no number at all.

## Main definitions

* `Binary` — finite and infinite binary numbers, and what is no number.
* `Binary.nearest` — the binary number nearest to a quotient.
* `Binary.ofInt`, `Binary.ofDecimal`, `Binary.sub` — numbers that are rounded once.
* `Binary.truncate` — the whole part, toward zero.
-/

namespace VoxelAlgebra

/-- The number `magnitude / 2 ^ places` with a sign, an infinite number, or no number. -/
inductive Binary where
  | finite (isNegative : Bool) (magnitude places : Nat)
  | infinite (isNegative : Bool)
  | notANumber
  deriving Repr, DecidableEq, Inhabited

namespace Binary

/-- The whole number nearest to `num / den`; a half goes to the even neighbour. -/
def roundEven (num den : Nat) : Nat :=
  let q := num / den
  let twice := 2 * (num % den)
  if twice < den then q
  else if den < twice then q + 1
  else if q % 2 = 0 then q else q + 1

/-- How many binary places leave 53 significant bits of `num / den`, and no more than the 1074
places of the least binary number. -/
def significantPlaces (num den : Nat) : Int :=
  let k : Int := 52 - (num.log2 : Int) + den.log2
  let reaches : Bool :=
    if 0 ≤ k then Nat.pow 2 52 * den ≤ num * Nat.pow 2 k.toNat
    else Nat.pow 2 52 * den * Nat.pow 2 (-k).toNat ≤ num
  min 1074 (if reaches then k else k + 1)

def nearest (isNegative : Bool) (num den : Nat) : Binary :=
  if num = 0 then finite isNegative 0 0
  else
    let k := significantPlaces num den
    if 0 ≤ k then finite isNegative (roundEven (num * Nat.pow 2 k.toNat) den) k.toNat
    else
      let magnitude := roundEven num (den * Nat.pow 2 (-k).toNat) * Nat.pow 2 (-k).toNat
      if magnitude < Nat.pow 2 1024 then finite isNegative magnitude 0 else infinite isNegative

def ofInt (n : Int) : Binary := nearest (n < 0) n.natAbs 1

/-- The binary number nearest to `digits * 10 ^ exponent` with a sign. Exponents that lead beyond
the greatest or below the least binary number need no calculation. -/
def ofDecimal (isNegative : Bool) (digits : Nat) (exponent : Int) : Binary :=
  let leading := exponent + (Nat.toDigits 10 digits).length
  if digits = 0 ∨ leading < -330 then finite isNegative 0 0
  else if 330 < leading then infinite isNegative
  else if 0 ≤ exponent then nearest isNegative (digits * Nat.pow 10 exponent.toNat) 1
  else nearest isNegative digits (Nat.pow 10 (-exponent).toNat)

def signed (isNegative : Bool) (magnitude : Nat) : Int :=
  if isNegative then -magnitude else magnitude

/-- The difference of two binary numbers. Two infinite numbers of one sign have none, and neither
has what is no number. -/
def sub : Binary → Binary → Binary
  | finite s₁ m₁ p₁, finite s₂ m₂ p₂ =>
    let difference := signed s₁ m₁ * Int.pow 2 p₂ - signed s₂ m₂ * Int.pow 2 p₁
    nearest (difference < 0) difference.natAbs (Nat.pow 2 (p₁ + p₂))
  | finite .., infinite s => infinite (!s)
  | infinite s, finite .. => infinite s
  | infinite s, infinite t => if s = t then notANumber else infinite s
  | notANumber, _ | _, notANumber => notANumber

def truncate : Binary → Option Int
  | finite s m p => some (signed s (m / Nat.pow 2 p))
  | infinite _ | notANumber => none

end Binary
end VoxelAlgebra
