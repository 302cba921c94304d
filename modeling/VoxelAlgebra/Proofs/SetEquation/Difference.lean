import VoxelAlgebra.Proofs.SetEquation.Current

/-!
# The difference of two names

A difference of two names is short enough for its tree to be known as it stands: there is nothing to
simplify, the tokens are the two names and the sign, and no identity of sets applies to two
different names.

## Main definitions

* `differenceTree` — the nested lists of a difference.
* `SetEquation.tree_of_assign` — an equation that took up a difference.
-/

namespace VoxelAlgebra

open Equation (IsName)

def differenceTree (s t : String) : Datum := .list [.text s, .text "-", .text t]

namespace Equation

variable {s t : String}

theorem IsName.ne_constant {c : Char} (h : IsName s) (hc : isConstantChar c) :
    s ≠ String.singleton c := by
  rintro rfl
  have hname := h.2 c (by simp)
  rw [not_isNameChar_of_isConstantChar hc] at hname
  cases hname

/-- Without a group and a negation there is nothing to simplify. -/
theorem simplify_of_notMem {text : List Char} (hnegation : Symbol.negation ∉ text)
    (hopening : Symbol.opening ∉ text) : simplify text = text := by
  have hcount : text.count Symbol.opening ≠ 1 := by
    rw [List.count_eq_zero_of_not_mem hopening]
    decide
  rw [simplify, resolveNegations_of_notMem hnegation, if_neg fun h => hcount h.1]

/-- The tokens of a difference are its two names and the sign. -/
theorem tokenize_difference (hs : IsName s) (ht : IsName t) :
    tokenize (simplify (s ++ "-" ++ t).toList) = [s.toList, [Symbol.diff], t.toList] := by
  have hnotMem : ∀ c, isNameChar c = false → c ≠ Symbol.diff → c ∉ (s ++ "-" ++ t).toList := by
    intro c hc hdiff hmem
    have hname : c ∈ s.toList ∨ c = Symbol.diff ∨ c ∈ t.toList := by
      simpa [String.toList_append, or_assoc] using hmem
    obtain hmem | hmem | hmem := hname
    · rw [hs.2 c hmem] at hc
      cases hc
    · exact hdiff hmem
    · rw [ht.2 c hmem] at hc
      cases hc
  have hrest : EndsName ([Symbol.diff] ++ t.toList) := fun c hc => by
    cases hc
    decide
  have hleft := tokenize_name (s := []) nofun hs.toList_ne_nil hs.2 hrest
  have hright : tokenize ([] ++ t.toList ++ []) = ([] ++ t.toList) :: tokenize [] :=
    tokenize_name (s := []) nofun ht.toList_ne_nil ht.2 nofun
  rw [simplify_of_notMem (hnotMem _ isNameChar_negation (by decide))
    (hnotMem _ isNameChar_opening (by decide)), String.toList_append, String.toList_append,
    List.append_assoc]
  simp only [List.nil_append, List.append_nil, tokenize_nil] at hleft hright
  rw [← hright, ← tokenize_sign t.toList (.inr (.inl (by decide)))]
  exact hleft

/-- The names of a difference become its leaves, as they are different and not constants. -/
theorem buildTree_difference (hs : IsName s) (ht : IsName t) (hne : s ≠ t) :
    buildTree [s.toList, [Symbol.diff], t.toList] = .ok (differenceTree s t) := by
  have hread : ∀ {name : String}, IsName name → IsRead [name.toList] ⟨.leaf name.toList, []⟩ :=
    fun h => .operand (isOperandToken_name [] h.toList_ne_nil h.2)
      (operand_name (s := []) nofun h.toList_ne_nil h.2)
  have hleaf : ∀ {name : String} {c : Char}, IsName name → isConstantChar c →
      Node.leaf name.toList ≠ .leaf [c] := by
    intro name c h hc heq
    have hlist : name.toList = (String.singleton c).toList := by
      rw [Node.leaf.inj heq, String.toList_singleton]
    exact h.ne_constant hc (String.toList_inj.1 hlist)
  have hcollapse : (Chain.mk (.leaf s.toList) [(.diff, .leaf t.toList)]).collapse =
      .binary .diff (.leaf s.toList) (.leaf t.toList) := by
    have hlist : Node.leaf s.toList ≠ .leaf t.toList := fun h =>
      hne (String.toList_inj.1 (Node.leaf.inj h))
    rw [Chain.collapse_eq]
    simp [Chain.joinRuns, Chain.foldLinks, Node.combine, hlist, hleaf hs, hleaf ht,
      isConstantChar]
  have hsign : String.ofList (Operator.sign .diff) = "-" := rfl
  have hdatum : (Node.binary .diff (.leaf s.toList) (.leaf t.toList)).toDatum? =
      some (differenceTree s t) := by
    simp [Node.toDatum?, Node.toInnerDatum?, hsign, differenceTree, String.ofList_toList]
  have hgroup := ((hread hs).join .diff trivial (hread ht)).buildGroup
  refine (buildTree_of_buildGroup hgroup).trans ?_
  rw [List.nil_append, hcollapse, flatten, hdatum]
  rfl

end Equation

namespace SetEquation

/-- An equation that took up a text has the tree of the tokens of the text. -/
theorem endsIn_assign (text : String) (e : SetEquation) : (assign text).EndsIn e
    (fun _ e' => ∃ tokens, Equation.validate text.toList = .ok tokens ∧
      Equation.buildTree tokens = .ok e'.tree) fun _ _ => True := by
  simp only [assign, Edit.endsIn_bind, Edit.endsIn_set]
  refine (endsIn_validate (ofText text)).imp ?_ fun _ _ _ => trivial
  rintro - e₁ ⟨tokens, htokens, rfl⟩
  have hcurrent : IsCurrent { ofText text with tokens := some tokens } :=
    ⟨.inr ⟨tokens, rfl, htokens⟩, .inl rfl⟩
  refine hcurrent.endsIn_generate.imp ?_ fun _ _ _ => trivial
  rintro - e₂ ⟨tokens', tree, htokens', htree, rfl⟩
  exact ⟨tokens', htokens', htree⟩

/-- The tree of the difference of two different names. -/
theorem tree_of_assign {s t : String} {e e' : SetEquation} {u : Unit} (hs : IsName s)
    (ht : IsName t) (hne : s ≠ t) (hrun : assign (s ++ "-" ++ t) e = .ok u e') :
    e'.tree = differenceTree s t := by
  obtain ⟨tokens, htokens, htree⟩ := (endsIn_assign (s ++ "-" ++ t) e).of_ok hrun
  obtain ⟨-, rfl⟩ := Equation.validate_eq_ok.1 htokens
  have hblanks := (denotes_diff (U := ∅) (σ := fun _ => some ∅) hs ht rfl rfl).derives.dropBlanks
  rw [hblanks, Equation.tokenize_difference hs ht, Equation.buildTree_difference hs ht hne] at htree
  exact (Except.ok.inj htree).symm

end SetEquation
end VoxelAlgebra
