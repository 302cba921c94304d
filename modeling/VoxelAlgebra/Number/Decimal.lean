import VoxelAlgebra.Number.Binary

/-!
# Decimal notation of binary numbers

A binary number is written with the fewest decimal digits from which it can be read back. Numbers of
moderate size are written positionally and always show a point; the others have an exponent of two
digits or more with its sign.

## Main definitions

* `Decimal` — digits and a power of ten.
* `Binary.shortest` — the fewest digits that read back.
* `Binary.literal` — the written form.
-/

namespace VoxelAlgebra

/-- The number `digits * 10 ^ exponent`. -/
structure Decimal where
  digits : Nat
  exponent : Int
  deriving Repr, DecidableEq, Inhabited

namespace Decimal

/-- The exponent of the leading digit of `num / den`, which is not zero. -/
def leadingExponent (num den : Nat) : Int :=
  if den ≤ num then (Nat.toDigits 10 (num / den)).length - 1
  else
    match (List.range 400).find? fun j => den ≤ num * Nat.pow 10 j with
    | some j => -j
    | none => 0

/-- The two neighbours of `num / den` on the decimal grid of an exponent, the nearer one first; of
two equally near ones the even one comes first. -/
def neighbours (num den : Nat) (exponent : Int) : List Decimal :=
  let n := num * Nat.pow 10 (-exponent).toNat
  let d := den * Nat.pow 10 exponent.toNat
  let below := n / d
  if Binary.roundEven n d = below then [⟨below, exponent⟩, ⟨below + 1, exponent⟩]
  else [⟨below + 1, exponent⟩, ⟨below, exponent⟩]

def dropZeros (d : Decimal) : Decimal :=
  let zeros := ((Nat.toDigits 10 d.digits).reverse.takeWhile (· = '0')).length
  if d.digits = 0 then d else ⟨d.digits / Nat.pow 10 zeros, d.exponent + zeros⟩

/-- Whether the binary number nearest to a decimal is `magnitude / 2 ^ places`. -/
def readsAs (magnitude places : Nat) (d : Decimal) : Bool :=
  match Binary.ofDecimal false d.digits d.exponent with
  | .finite _ m p => m * Nat.pow 2 places = magnitude * Nat.pow 2 p
  | .infinite _ | .notANumber => false

end Decimal

namespace Binary

/-- The fewest digits that read back as a positive number. If 17 digits did not suffice, the number
would be written in full. -/
def shortest (magnitude places : Nat) : Decimal :=
  let den := Nat.pow 2 places
  let leading := Decimal.leadingExponent magnitude den
  let full : Decimal := ⟨magnitude * Nat.pow 5 places, -places⟩
  let candidates := (List.range 17).flatMap fun (n : Nat) =>
    Decimal.neighbours magnitude den (leading - n)
  ((candidates.find? (Decimal.readsAs magnitude places)).getD full).dropZeros

/-- Digits with a point behind the first `places` of them, or with zeros up to the point. -/
def positional (digits : List Char) (places : Int) : List Char :=
  if places ≤ 0 then '0' :: '.' :: List.replicate (-places).toNat '0' ++ digits
  else
    let behind := digits.drop places.toNat
    digits.take places.toNat ++ List.replicate (places.toNat - digits.length) '0' ++
      '.' :: if behind.isEmpty then ['0'] else behind

/-- Digits with a point behind the first one, and a power of ten. -/
def scientific (digits : List Char) (exponent : Int) : List Char :=
  let power := Nat.toDigits 10 exponent.natAbs
  let behind := digits.drop 1
  digits.take 1 ++ (if behind.isEmpty then [] else '.' :: behind) ++
    ['e', if exponent < 0 then '-' else '+'] ++ List.replicate (2 - power.length) '0' ++ power

/-- The written form without a sign. Positional notation is for numbers from `0.0001` to below
`10 ^ 16`. -/
def unsigned (magnitude places : Nat) : List Char :=
  if magnitude = 0 then ['0', '.', '0']
  else
    let d := shortest magnitude places
    let digits := Nat.toDigits 10 d.digits
    let point := digits.length + d.exponent
    if -4 < point ∧ point ≤ 16 then positional digits point else scientific digits (point - 1)

def literal (b : Binary) : String :=
  match b with
  | finite s m p => (if s then "-" else "") ++ String.ofList (unsigned m p)
  | infinite s => if s then "-inf" else "inf"
  | notANumber => "nan"

end Binary
end VoxelAlgebra
