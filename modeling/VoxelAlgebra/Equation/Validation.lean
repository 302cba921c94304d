import VoxelAlgebra.Report
import VoxelAlgebra.Text.Blank
import VoxelAlgebra.Equation.Simplification
import VoxelAlgebra.Equation.Token

/-!
# Validation of equations

An equation is checked before it is simplified and cut into tokens. The checks run in a fixed
order, so a text with several mistakes is reported for the first kind in this list:

1. a character outside the alphabet;
2. a negation directly in front of a closing sign;
3. a group without its other sign;
4. an operator, negation or opening sign at the end;
5. a negation directly in front of `-` or `⊕`;
6. two neighbours that cannot stand next to each other.

## Main definitions

* `Piece`, `pieces` — a text cut into names and single signs with their columns.
* `mayFollow` — which neighbours are allowed.
* `check` — the checks in order.
* `validate` — blanks removed, checked, simplified and cut into tokens.
-/

namespace VoxelAlgebra.Equation

/-! ## Places in a text -/

/-- The first column at which `a` stands directly in front of `b`. -/
def columnOfPair? (a b : Char) : List Char → Option Nat
  | x :: y :: rest =>
    if x = a ∧ y = b then some 0 else (columnOfPair? a b (y :: rest)).map (· + 1)
  | _ => none

/-- The column of the first closing sign without an opening one, when `depth` groups are open. -/
def strayClosing? (depth : Nat) : List Char → Option Nat
  | [] => none
  | c :: rest =>
    if c = Symbol.opening then (strayClosing? (depth + 1) rest).map (· + 1)
    else if c = Symbol.closing then
      match depth with
      | 0 => some 0
      | d + 1 => (strayClosing? d rest).map (· + 1)
    else (strayClosing? depth rest).map (· + 1)

/-! ## Neighbours -/

/-- A name or a single sign, with the column at which it begins. -/
structure Piece where
  text : List Char
  kind : TokenClass
  column : Nat
  deriving DecidableEq, Repr

/-- Names in one piece, every other character on its own. -/
def rawPieces (column : Nat) : List Char → List Piece
  | [] => []
  | c :: rest =>
    if isNameChar c then
      let name := c :: rest.takeWhile isNameChar
      ⟨name, .operand, column⟩ :: rawPieces (column + name.length) (rest.dropWhile isNameChar)
    else ⟨[c], classify [c], column⟩ :: rawPieces (column + 1) rest
termination_by text => text.length
decreasing_by
  · have := (List.dropWhile_sublist (l := rest) isNameChar).length_le
    simp only [List.length_cons]; omega
  · simp

/-- A negation directly in front of an operator is part of the operator. -/
def attachNegations : List Piece → List Piece
  | p :: q :: rest =>
    if p.kind = .negation ∧ q.kind = .operator then
      ⟨p.text ++ q.text, .operator, p.column⟩ :: attachNegations rest
    else p :: attachNegations (q :: rest)
  | short => short

def pieces (text : List Char) : List Piece := attachNegations (rawPieces 0 text)

/-- Which classes may follow a class; nothing stands in front of the first piece. An operand or a
closed group is followed by an operator or a closing sign, everything else by the beginning of an
operand. -/
def mayFollow (before : Option TokenClass) (after : TokenClass) : Bool :=
  match before with
  | some .operand | some .closing => after = .operator || after = .closing
  | _ => after = .operand || after = .negation || after = .opening

/-- The first piece that cannot stand where it stands, with the text of the piece before it. -/
def badJunction? (before : Option Piece) : List Piece → Option (List Char × Piece)
  | [] => none
  | p :: rest =>
    if mayFollow (before.map Piece.kind) p.kind then badJunction? (some p) rest
    else some (before.elim [] Piece.text, p)

/-! ## Checks -/

def checkCharacters (text : List Char) : Except Fault Unit :=
  match text.findIdx? (!isEquationChar ·) with
  | some column =>
    throw (.report <| .invalidCharacter (String.ofList (text.drop column |>.take 1))
      (String.ofList text) column)
  | none => pure ()

def checkNegatedClosing (text : List Char) : Except Fault Unit :=
  match columnOfPair? Symbol.negation Symbol.closing text with
  | some column =>
    throw (.report <|
      .invalidNegation "cannot negate closing group ')'" (String.ofList text) column)
  | none => pure ()

def checkGrouping (text : List Char) : Except Fault Unit :=
  let opening := text.count Symbol.opening
  let closing := text.count Symbol.closing
  match strayClosing? 0 text with
  | some column =>
    throw (.report <| .unbalancedGrouping opening closing (String.ofList text) (some column))
  | none =>
    if opening = closing then pure ()
    else throw (.report <| .unbalancedGrouping opening closing (String.ofList text) none)

def isEndingChar (c : Char) : Bool :=
  !(c = Symbol.opening || c = Symbol.negation || isOperatorChar c)

def checkEnding (text : List Char) : Except Fault Unit :=
  match text.getLast? with
  | some c =>
    if isEndingChar c then pure ()
    else throw (.report <| .invalidEnding (String.singleton c) (String.ofList text))
  | none => pure ()

def checkNegatedOperator (op : Char) (text : List Char) : Except Fault Unit :=
  match columnOfPair? Symbol.negation op text with
  | some column =>
    throw (.report <| .invalidNegation
      ("cannot directly negate '" ++ String.singleton op ++ "', negate an enclosing group instead")
      (String.ofList text) column)
  | none => pure ()

def checkJunctions (text : List Char) : Except Fault Unit :=
  match badJunction? none (pieces text) with
  | some (before, p) =>
    throw (.report <| .invalidJunction (String.ofList before) (String.ofList p.text)
      (String.ofList text) p.column)
  | none => pure ()

def check (text : List Char) : Except Fault Unit := do
  checkCharacters text
  checkNegatedClosing text
  checkGrouping text
  checkEnding text
  checkNegatedOperator Symbol.diff text
  checkNegatedOperator Symbol.symmDiff text
  checkJunctions text

/-- The tokens of an equation, or the first mistake in it. -/
def validate (equation : List Char) : Except Fault (List Token) := do
  let text := Text.dropBlanks equation
  check text
  return tokenize (simplify text)

end VoxelAlgebra.Equation
