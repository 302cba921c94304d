import VoxelAlgebra.Text.Printable

/-!
# Quoted texts

A quoted text stands between two marks. The mark is the apostrophe, or the double quote for a text
that holds an apostrophe and no double quote. The mark and the backslash are preceded by a
backslash, line feed, carriage return and tab have letters of their own, and a character that
cannot be printed is spelled by its code point.

## Main definitions

* `quoteMark` — the mark that encloses a text.
* `quoted` — the text between its marks.
-/

namespace VoxelAlgebra.Text

def apostrophe : Char := '\x27'

def quoteMark (text : List Char) : Char :=
  if apostrophe ∈ text ∧ '"' ∉ text then '"' else apostrophe

/-- The last `width` hexadecimal digits of `n`. -/
def hexDigits : Nat → Nat → List Char
  | 0, _ => []
  | width + 1, n => hexDigits width (n / 16) ++ [Nat.digitChar (n % 16)]

/-- A code point is spelled with the shortest of the two, four and eight digit forms. -/
def spelled (c : Char) : List Char :=
  let n := c.toNat
  if n < 0x100 then '\\' :: 'x' :: hexDigits 2 n
  else if n < 0x10000 then '\\' :: 'u' :: hexDigits 4 n
  else '\\' :: 'U' :: hexDigits 8 n

def escaped (mark c : Char) : List Char :=
  if c = '\\' ∨ c = mark then ['\\', c]
  else if c = '\n' then ['\\', 'n']
  else if c = '\r' then ['\\', 'r']
  else if c = '\t' then ['\\', 't']
  else if isPrintable c then [c]
  else spelled c

def quoted (text : List Char) : List Char :=
  let mark := quoteMark text
  mark :: text.flatMap (escaped mark) ++ [mark]

end VoxelAlgebra.Text
