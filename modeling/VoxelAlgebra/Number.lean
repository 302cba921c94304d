import VoxelAlgebra.Number.Binary

/-!
# Numbers as given

Coordinates may be given with decimals. Such a number stands for the nearest binary number, and a
coordinate is its whole part. Where an origin is taken away from whole coordinates, a binary origin
makes the calculation a binary one, which rounds both the coordinate and the difference.

## Main definitions

* `Number` — a whole number, or a binary number.
* `Number.truncate` — the whole part, toward zero.
* `Number.subtractFrom` — a whole number less a given one.
-/

namespace VoxelAlgebra

/-- A number as given: without decimals, or the binary number that its decimals stand for. -/
inductive Number where
  | whole (n : Int)
  | binary (b : Binary)
  deriving Repr, DecidableEq, Inhabited

namespace Number

instance (n : Nat) : OfNat Number n := ⟨whole n⟩

/-- The whole part, toward zero; only a finite number has one. -/
def truncate : Number → Option Int
  | whole n => some n
  | binary b => b.truncate

/-- A whole number less `q`. A whole number beyond the binary numbers has no binary difference. -/
def subtractFrom (q : Number) (n : Int) : Option Number :=
  match q with
  | whole k => some (whole (n - k))
  | binary b =>
    match Binary.ofInt n with
    | .finite s m p => some (binary ((Binary.finite s m p).sub b))
    | .infinite _ | .notANumber => none

end Number
end VoxelAlgebra
