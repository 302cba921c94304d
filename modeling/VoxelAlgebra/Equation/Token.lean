import VoxelAlgebra.Equation.Symbol

/-!
# Tokens of an equation

A token is an operator, a closing sign, or an operand or opening sign together with the negations
in front of it. Characters that fit no token are passed over.

## Main definitions

* `firstToken?` — the token at the beginning of a text, with the rest of the text.
* `tokenize` — the tokens of a text from left to right.
-/

namespace VoxelAlgebra.Equation

/-- The token at the beginning of a text. Negations belong to the operand or opening sign behind
them; in front of anything else they are no token. -/
def firstToken? (text : List Char) : Option (Token × List Char) :=
  let negations := text.takeWhile (· = Symbol.negation)
  match text.dropWhile (· = Symbol.negation) with
  | [] => none
  | c :: rest =>
    if c = Symbol.opening || isConstantChar c then some (negations ++ [c], rest)
    else if isNameChar c then
      some (negations ++ c :: rest.takeWhile isNameChar, rest.dropWhile isNameChar)
    else if negations = [] ∧ (c = Symbol.closing ∨ isOperatorChar c) then some ([c], rest)
    else none

/-- A token leaves a shorter text. -/
theorem length_lt_of_firstToken? {text rest : List Char} {token : Token}
    (h : firstToken? text = some (token, rest)) : rest.length < text.length := by
  have hle := (List.dropWhile_sublist (l := text) (· = Symbol.negation)).length_le
  unfold firstToken? at h
  dsimp only at h
  split at h
  · simp at h
  · rename_i c behind heq
    rw [heq, List.length_cons] at hle
    have hname := (List.dropWhile_sublist (l := behind) isNameChar).length_le
    split at h
    · obtain ⟨-, rfl⟩ := by simpa using h
      omega
    split at h
    · obtain ⟨-, rfl⟩ := by simpa using h
      omega
    split at h
    · obtain ⟨-, rfl⟩ := by simpa using h
      omega
    · simp at h

/-- The tokens of a text from left to right; a character at which no token begins is passed over. -/
def tokenize (text : List Char) : List Token :=
  match h : firstToken? text with
  | some (token, rest) =>
    have := length_lt_of_firstToken? h
    token :: tokenize rest
  | none =>
    match text with
    | [] => []
    | _ :: rest => tokenize rest
termination_by text.length

end VoxelAlgebra.Equation
