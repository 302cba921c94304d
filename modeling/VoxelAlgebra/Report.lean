import VoxelAlgebra.Datum
import VoxelAlgebra.Equation.Node

/-!
# Reports and faults

A caller who makes a mistake gets a report with a code. Codes `V0..` concern geometry and the life
of objects, `E0..` the form of equations, `E1..` their evaluation. A fault is a report, or one of
the plain failures of reading coordinates and trees that carry no report.

## Main definitions

* `Diagnostic`, `Diagnostic.format` — code, message and place, and how they are laid out.
* `Report` — the causes that are reported.
* `Report.diagnostic` — code and wording of each cause.
* `Fault` — everything that can go wrong in an operation.
* `chooseNamed` — a choice that is given by its name.
-/

namespace VoxelAlgebra

/-- One report as shown: `column` counts the characters of `source` from zero. -/
structure Diagnostic where
  code : String
  message : String
  source : Option String := none
  column : Option Int := none
  deriving Repr, DecidableEq

namespace Diagnostic

/-- The place of a report: the source, and a mark below the column. -/
def place (d : Diagnostic) : List String :=
  match d.source, d.column with
  | none, _ => []
  | some source, none => ["  | " ++ source]
  | some source, some column =>
    ["  | " ++ source, "  | " ++ String.ofList (List.replicate column.toNat ' ') ++ "^"]

/-- Code and message on the first line, the place on the next ones if it is wanted. -/
def format (d : Diagnostic) (showPlace : Bool) : String :=
  String.intercalate "\n"
    (("error[" ++ d.code ++ "]: " ++ d.message) :: if showPlace then d.place else [])

end Diagnostic

namespace Equation

inductive Item where
  | operand (node : Node)
  | operator (op : Operator)
  deriving DecidableEq, Repr

namespace Node

def literal : Node → String
  | leaf name => "Leaf(name=" ++ Datum.quoteText (String.ofList name) ++ ")"
  | binary op left right =>
    "BinOp(op=" ++ Datum.quoteText (String.ofList op.sign) ++ ", left=" ++ literal left ++
      ", right=" ++ literal right ++ ")"
  | waiting operand hasSymmDiff =>
    "Negated(operand=" ++ literal operand ++ ", has_symmetric_difference=" ++
      (Datum.bool hasSymmDiff).literal ++ ")"

end Node

def Item.literal : Item → String
  | operand node => node.literal
  | operator op => Datum.quoteText (String.ofList op.sign)

end Equation

/-- A level of a tree whose length or order is wrong: data handed over, or the members of a group
that is being built. -/
inductive Level where
  | datum (d : Datum)
  | group (members : List Equation.Item)
  deriving Repr

namespace Level

def length : Level → Nat
  | datum d => d.size
  | group members => members.length

def literal : Level → String
  | datum d => d.literal
  | group members => "[" ++ Datum.separated (members.map Equation.Item.literal) ++ "]"

end Level

inductive Report where
  | emptyInput (what : String) (needed : Int)
  | invalidMode (mode : Datum) (valid : List Datum)
  | deletedObject (id : String)
  | invalidCharacter (char source : String) (column : Int)
  | invalidNegation (detail source : String) (column : Int)
  | invalidEnding (token source : String)
  | invalidJunction (left right source : String) (column : Int)
  | unbalancedGrouping (opening closing : Int) (source : String) (column : Option Int)
  | unboundName (name : Datum)
  | malformedLevel (level : Level)
  | unknownOperation (token : Datum)
  deriving Repr

namespace Report

def code : Report → String
  | emptyInput .. => "V001"
  | invalidMode .. => "V002"
  | deletedObject .. => "V003"
  | invalidCharacter .. => "E001"
  | invalidNegation .. => "E002"
  | invalidEnding .. => "E003"
  | invalidJunction .. => "E004"
  | unbalancedGrouping .. => "E005"
  | unboundName .. => "E101"
  | malformedLevel .. => "E102"
  | unknownOperation .. => "E103"

def message : Report → String
  | emptyInput what needed =>
    what ++ " requires at least " ++ toString needed ++ if needed = 1 then " voxel" else " voxels"
  | invalidMode mode valid =>
    "invalid mode " ++ mode.literal ++ ", expected one of: " ++
      Datum.separated (valid.map Datum.display)
  | deletedObject id => "object " ++ (if id = "" then "<released>" else id) ++ " has been deleted"
  | invalidCharacter char _ _ => "invalid character '" ++ char ++ "'"
  | invalidNegation detail _ _ => "invalid negation: " ++ detail
  | invalidEnding token _ => "equation cannot end with '" ++ token ++ "'"
  | invalidJunction left right _ _ =>
    if left = "" then "equation cannot start with '" ++ right ++ "'"
    else "'" ++ right ++ "' cannot follow '" ++ left ++ "'"
  | unbalancedGrouping _ _ _ (some _) => "closing group ')' has no matching '('"
  | unbalancedGrouping opening closing _ none =>
    "unbalanced grouping: " ++ toString opening ++ " '(' against " ++ toString closing ++ " ')'"
  | unboundName name => "no voxel set is bound to '" ++ name.display ++ "'"
  | malformedLevel level =>
    "invalid sub-equation of length " ++ toString level.length ++ ": " ++ level.literal
  | unknownOperation token => "unknown set operation " ++ token.literal

/-- Reports on the form of an equation show the equation. -/
def source : Report → Option String
  | invalidCharacter _ source _ | invalidNegation _ source _ | invalidEnding _ source
  | invalidJunction _ _ source _ | unbalancedGrouping _ _ source _ => some source
  | _ => none

/-- A wrong ending is the last character of the equation. -/
def column : Report → Option Int
  | invalidCharacter _ _ column | invalidNegation _ _ column | invalidJunction _ _ _ column =>
    some column
  | invalidEnding _ source => some (source.length - 1)
  | unbalancedGrouping _ _ _ column => column
  | _ => none

def diagnostic (r : Report) : Diagnostic := ⟨r.code, r.message, r.source, r.column⟩

end Report

inductive Fault where
  /-- A mistake that is reported with a code. -/
  | report (r : Report)
  /-- A coordinate or corner was read that the caller did not give. -/
  | missingCoordinate
  /-- Numbers that do not form rows of three, or a coordinate that is no number. -/
  | malformedRows
  /-- A number outside the range of its kind: a coordinate of a box beyond the signed 64-bit range,
  an infinite coordinate, or a whole number that is beyond the binary numbers. -/
  | outOfRange
  /-- An entry was looked up that does not exist: a slice of a voxel, or a position in a record. -/
  | noEntry
  /-- Data of a shape that an operation cannot take: a waiting negation where a finished tree is
  needed, a tree that is no level, or a record in place of a name. -/
  | wrongShape
  /-- A negation met another one that waits to be distributed. -/
  | blockedNegation
  /-- No identifier was left to issue. -/
  | identifiersExhausted
  /-- An object was named that does not exist. -/
  | noSuchObject
  /-- An operation that this kind of object does not have. -/
  | wrongKind
  deriving Repr

def chooseNamed {α : Type} (choices : List α) (name : α → String) (mode : Datum) :
    Except Fault α :=
  match choices.find? fun a => mode.isText (name a) with
  | some a => pure a
  | none => throw (.report (.invalidMode mode (choices.map fun a => .text (name a))))

end VoxelAlgebra
