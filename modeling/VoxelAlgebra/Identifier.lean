import VoxelAlgebra.Edit
import VoxelAlgebra.Registry
import VoxelAlgebra.Equation.Symbol
import VoxelAlgebra.Text.Quoted

/-!
# Issuing identifiers

Every object gets an identifier of its own. An identifier is also a name in equations, so it is
written with ASCII letters and digits.

## Main definitions

* `IdSource` — an endless supply of different names.
* `IdSource.hexadecimal` — numbers in hexadecimal notation.
* `Issuer`, `Issuer.issue` — a registry with a supply, and the issue of a new identifier.
-/

namespace VoxelAlgebra

/-- An endless supply of different names. -/
structure IdSource where
  text : Nat → String
  injective : ∀ i j, text i = text j → i = j
  isName : ∀ i, text i ≠ "" ∧ (text i).toList.all Equation.isNameChar

namespace Text

@[simp] theorem length_hexDigits (width n : Nat) : (hexDigits width n).length = width := by
  induction width generalizing n with
  | zero => rfl
  | succ width ih => simp [hexDigits, ih]

theorem digitChar_inj {i j : Nat} (hi : i < 16) (hj : j < 16)
    (h : Nat.digitChar i = Nat.digitChar j) : i = j := by
  have : ∀ i < 16, ∀ j < 16, Nat.digitChar i = Nat.digitChar j → i = j := by decide
  exact this i hi j hj h

/-- Numbers with the same last digits agree up to multiples of the next power. -/
theorem mod_eq_of_hexDigits_eq {width n k : Nat} (h : hexDigits width n = hexDigits width k) :
    n % Nat.pow 16 width = k % Nat.pow 16 width := by
  induction width generalizing n k with
  | zero => simp [Nat.mod_one]
  | succ width ih =>
    simp only [hexDigits] at h
    have hlen : (hexDigits width (n / 16)).length = (hexDigits width (k / 16)).length := by simp
    obtain ⟨hinit, hlast⟩ := List.append_inj h hlen
    have hdigit := digitChar_inj (Nat.mod_lt n (by decide)) (Nat.mod_lt k (by decide))
      (by simpa using hlast)
    have hrest := ih hinit
    have hpow : Nat.pow 16 (width + 1) = 16 * Nat.pow 16 width := Nat.pow_add_one'
    rw [hpow, Nat.mod_mul, Nat.mod_mul, hdigit, hrest]

theorem isNameChar_of_mem_hexDigits {width n : Nat} {c : Char} (h : c ∈ hexDigits width n) :
    Equation.isNameChar c := by
  induction width generalizing n with
  | zero => simp [hexDigits] at h
  | succ width ih =>
    rcases List.mem_append.1 h with h | h
    · exact ih h
    · have : ∀ d < 16, Equation.isNameChar (Nat.digitChar d) := by decide
      rw [List.mem_singleton.1 h]
      exact this _ (Nat.mod_lt n (by decide))

end Text

namespace IdSource

/-- The number of digits: 32 as long as they suffice, then more. -/
def hexWidth (n : Nat) : Nat := 32 + (n >>> 128 * 2).log2

theorem lt_pow_hexWidth (n : Nat) : n < Nat.pow 16 (hexWidth n) := by
  unfold hexWidth
  generalize hL : (n >>> 128 * 2).log2 = L
  have h₁ : n >>> 128 * 2 < 2 ^ (L + 1) := hL ▸ Nat.lt_log2_self
  have h₂ : n >>> 128 < 2 ^ L := by rw [Nat.pow_succ] at h₁; omega
  have h₃ : 2 ^ L ≤ 16 ^ L := Nat.pow_le_pow_left (by decide) L
  have hshift : n >>> 128 = n / Nat.pow 16 32 := Nat.shiftRight_eq_div_pow n 128
  have hpow : Nat.pow 16 (32 + L) = Nat.pow 16 L * Nat.pow 16 32 := by
    rw [Nat.add_comm]
    exact Nat.pow_add 16 L 32
  rw [hpow]
  exact (Nat.div_lt_iff_lt_mul (by decide)).1 (hshift ▸ Nat.lt_of_lt_of_le h₂ h₃)

/-- The numbers in hexadecimal notation, with leading zeros up to 32 digits. -/
def hexadecimal : IdSource where
  text n := String.ofList (Text.hexDigits (hexWidth n) n)
  injective i j h := by
    have h := String.ofList_injective h
    have hw : hexWidth i = hexWidth j := by simpa using congrArg List.length h
    rw [hw] at h
    have hmod := Text.mod_eq_of_hexDigits_eq h
    rwa [Nat.mod_eq_of_lt (hw ▸ lt_pow_hexWidth i), Nat.mod_eq_of_lt (lt_pow_hexWidth j)] at hmod
  isName n := by
    constructor
    · intro h
      have hlen := congrArg (fun s : String => s.toList.length) h
      simp only [String.toList_ofList, Text.length_hexDigits] at hlen
      unfold hexWidth at hlen
      simp at hlen
    · simp only [String.toList_ofList, List.all_eq_true]
      exact fun c hc => Text.isNameChar_of_mem_hexDigits hc

end IdSource

/-- A registry, the supply of its identifiers, and how many were drawn from it. -/
structure Issuer where
  registry : Registry Unit := {}
  source : IdSource
  drawn : Nat := 0

namespace Issuer

/-- So many of the next names that one of them is new. -/
def candidates (s : Issuer) : List String :=
  (List.range (s.registry.size + 1)).map fun i => s.source.text (s.drawn + i)

/-- Issues a new identifier and notes that the registry refers to its object. -/
def issue : Edit Issuer String := do
  let s ← get
  match s.registry.issue? s.candidates with
  | some (id, rest, registry) =>
    set { s with
      registry := registry.register id ()
      drawn := s.drawn + (s.candidates.length - rest.length) }
    return id
  | none => throw .identifiersExhausted

def release (id : String) : Edit Issuer Unit :=
  modify fun s => { s with registry := s.registry.remove id }

end Issuer
end VoxelAlgebra
