/-!
# Symbols of the equation language

    a∪b        union
    a∩b        intersection
    a-b        subtraction
    a⊕b        symmetric difference
    !a         negation, the complement in Ω
    Ω, ∅       the universal and the null set
    ( )        grouping

Names are runs of ASCII letters and digits.

## Main definitions

* `Symbol` — the characters with a meaning.
* `Operator` — the four set operations, and signs that are kept without a meaning.
* `TokenClass`, `classify` — what a token is to its neighbours.
* `symbolTable`, `precedenceTable` — the tables shown to callers.
-/

namespace VoxelAlgebra.Equation

namespace Symbol

@[match_pattern] abbrev universal : Char := 'Ω'
@[match_pattern] abbrev null : Char := '∅'
@[match_pattern] abbrev union : Char := '∪'
@[match_pattern] abbrev inter : Char := '∩'
@[match_pattern] abbrev diff : Char := '-'
@[match_pattern] abbrev symmDiff : Char := '⊕'
@[match_pattern] abbrev negation : Char := '!'
@[match_pattern] abbrev opening : Char := '('
@[match_pattern] abbrev closing : Char := ')'

end Symbol

/-- A token is the run of characters that it was written with. -/
abbrev Token := List Char

/-- The set operations. A tree can also hold a sign without a meaning, which is kept as written. -/
inductive Operator where
  | union
  | inter
  | diff
  | symmDiff
  | unknown (sign : List Char)
  deriving DecidableEq, Repr

namespace Operator

def sign : Operator → List Char
  | union => [Symbol.union]
  | inter => [Symbol.inter]
  | diff => [Symbol.diff]
  | symmDiff => [Symbol.symmDiff]
  | unknown sign => sign

def ofSign? (text : List Char) : Option Operator :=
  if text = [Symbol.union] then some union
  else if text = [Symbol.inter] then some inter
  else if text = [Symbol.diff] then some diff
  else if text = [Symbol.symmDiff] then some symmDiff
  else none

def ofSign (text : List Char) : Operator := (ofSign? text).getD (unknown text)

/-- Symmetric difference binds tighter than the other operations, which are on one level. -/
def precedence : Operator → Nat
  | symmDiff => 1
  | _ => 0

/-- The operations for which the order of the operands does not matter to a stored result. -/
def isCommutative : Operator → Bool
  | union | inter => true
  | _ => false

def IsSetOperation : Operator → Prop
  | unknown _ => False
  | _ => True

instance : DecidablePred IsSetOperation := fun op => by
  cases op <;> unfold IsSetOperation <;> infer_instance

theorem ofSign?_sign {op : Operator} (h : op.IsSetOperation) : ofSign? op.sign = some op := by
  cases op <;> first | rfl | exact h.elim

theorem sign_of_ofSign? {text : List Char} {op : Operator} (h : ofSign? text = some op) :
    op.sign = text ∧ op.IsSetOperation := by
  unfold ofSign? at h
  split at h
  · cases h; simp_all [sign, IsSetOperation]
  split at h
  · cases h; simp_all [sign, IsSetOperation]
  split at h
  · cases h; simp_all [sign, IsSetOperation]
  split at h
  · cases h; simp_all [sign, IsSetOperation]
  · cases h

end Operator

def isNameChar (c : Char) : Bool :=
  ('A' ≤ c && c ≤ 'Z') || ('a' ≤ c && c ≤ 'z') || ('0' ≤ c && c ≤ '9')

def isConstantChar (c : Char) : Bool := c = Symbol.universal || c = Symbol.null

def isOperatorChar (c : Char) : Bool :=
  c = Symbol.union || c = Symbol.inter || c = Symbol.diff || c = Symbol.symmDiff

def isEquationChar (c : Char) : Bool :=
  isNameChar c || isConstantChar c || isOperatorChar c || c = Symbol.negation ||
    c = Symbol.opening || c = Symbol.closing

inductive TokenClass where
  | operand
  | operator
  | negation
  | opening
  | closing
  deriving DecidableEq, Repr

/-- The class of a token without attached negations. Whatever is no symbol is an operand. -/
def classify (token : Token) : TokenClass :=
  if (Operator.ofSign? token).isSome then .operator
  else if token = [Symbol.negation] then .negation
  else if token = [Symbol.opening] then .opening
  else if token = [Symbol.closing] then .closing
  else .operand

def isConstant (token : Token) : Bool := token = [Symbol.universal] || token = [Symbol.null]

/-- The symbols by name; the last entry is the unit by which nested traces are indented. -/
def symbolTable : List (String × String) :=
  [("UNIVERSAL_SET", "Ω"), ("NULL_SET", "∅"), ("UNION_OP", "∪"), ("INTERSECTION_OP", "∩"),
    ("SUBTRACTION_OP", "-"), ("SYMM_DIFF_OP", "⊕"), ("NEGATION_OP", "!"), ("OPEN_PER", "("),
    ("CLOSE_PER", ")"), ("INDENTATION", "    ")]

/-- How tightly each symbol binds: groups, then negations, then the operators. -/
def precedenceTable : List (String × Nat) :=
  [("(", 3), (")", 3), ("!", 2)] ++
    [Operator.symmDiff, .diff, .inter, .union].map fun op => (String.ofList op.sign, op.precedence)

end VoxelAlgebra.Equation
