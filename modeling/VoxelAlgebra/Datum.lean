import VoxelAlgebra.Text.Quoted
import VoxelAlgebra.Number.Decimal

/-!
# Data without a fixed shape

Modes and syntax trees can be handed over as data of any shape. A `Datum` is such a value; reports
quote it in its `literal` form.

## Main definitions

* `Datum` — null, truth values, whole and binary numbers, texts, lists and records.
* `Datum.literal` — the written form with texts quoted.
* `Datum.display` — the written form in which a text on its own stands without quotes.
* `Datum.parts` — the members of a level: the items of a list or the characters of a text.
-/

namespace VoxelAlgebra

inductive Datum where
  | null
  | bool (b : Bool)
  | number (n : Int)
  | binary (b : Binary)
  | text (s : String)
  | list (items : List Datum)
  | record (fields : List (String × Datum))
  deriving Repr, Inhabited

namespace Datum

def separated (items : List String) : String := String.intercalate ", " items

def quoteText (s : String) : String := String.ofList (Text.quoted s.toList)

mutual

/-- The written form: texts are quoted, lists stand in brackets, records in braces. -/
def literal : Datum → String
  | null => "None"
  | bool true => "True"
  | bool false => "False"
  | number n => toString n
  | binary b => b.literal
  | text s => quoteText s
  | list items => "[" ++ separated (literals items) ++ "]"
  | record fields => "\x7b" ++ separated (fieldLiterals fields) ++ "\x7d"

def literals : List Datum → List String
  | [] => []
  | d :: rest => literal d :: literals rest

def fieldLiterals : List (String × Datum) → List String
  | [] => []
  | (key, d) :: rest => (quoteText key ++ ": " ++ literal d) :: fieldLiterals rest

end

/-- A text on its own is shown without quotes. -/
def display : Datum → String
  | text s => s
  | d => literal d

/-- The members of a level by position; nothing else than a list or a text has them. -/
def parts : Datum → Option (List Datum)
  | list items => some items
  | text s => some (s.toList.map fun c => text (String.singleton c))
  | _ => none

def size : Datum → Nat
  | list items => items.length
  | text s => s.length
  | record fields => fields.length
  | _ => 0

def isText (d : Datum) (s : String) : Bool :=
  match d with
  | text t => t = s
  | _ => false

end Datum
end VoxelAlgebra
