import Mathlib.Data.List.Forall2
import VoxelAlgebra.Proofs.Edit
import VoxelAlgebra.Proofs.Equation.Meaning

/-!
# Negations in the text and in the tree

Negations are resolved twice: in the text of an equation, and again by the parity of those that a
token was cut with. The tokens of a text as it was given and those of the text with its negations
resolved are alike one by one: they open and close the same groups and make the same operands. So
they have the same tree. An outer group is an operand of its own, so its tree is that of its inside.

A negated union or intersection sign is resolved in the text only.

## Main definitions

* `Alike` — tokens that trees are built from in the same way.
* `buildTree_of_alike` — tokens that are alike have the same tree.
* `Derives.lexesAlike` — the tokens of a text before and after its negations are resolved.
* `buildTree_unsimplified` — simplification does not change the tree of an accepted equation.
-/

namespace VoxelAlgebra.Equation

/-! ## Tokens that are alike -/

/-- Tokens that trees are built from in the same way. Negations in front of a group count by their
parity, and those in front of an operand by what they make of it. -/
structure Alike (t u : Token) : Prop where
  opener : isOpener t = isOpener u
  closer : isCloser t = isCloser u
  operator : Operator.ofSign? t = Operator.ofSign? u
  operand : operand t = operand u
  parity : isOpener t → (t.length - 1) % 2 = (u.length - 1) % 2

namespace Alike

variable {t u : Token}

theorem refl (t : Token) : Alike t t := ⟨rfl, rfl, rfl, rfl, fun _ => rfl⟩

/-- Operand tokens are alike if they make the same operand. -/
theorem of_operand (ht : IsOperandToken t) (hu : IsOperandToken u)
    (h : Equation.operand t = Equation.operand u) : Alike t u where
  opener := ht.not_opener.trans hu.not_opener.symm
  closer := ht.not_closer.trans hu.not_closer.symm
  operator := ht.not_operator.trans hu.not_operator.symm
  operand := h
  parity hopener := by simp [ht.not_opener] at hopener

theorem eq_sign (h : Alike t u) {op : Operator} (ht : Operator.ofSign? t = some op) :
    u = t := by
  have hu : Operator.ofSign? u = some op := h.operator.symm.trans ht
  rw [← (Operator.sign_of_ofSign? ht).1, (Operator.sign_of_ofSign? hu).1]

end Alike

variable {ts us : List Token}

theorem symmDiff_mem_of_alike (h : List.Forall₂ Alike ts us) :
    [Symbol.symmDiff] ∈ ts ↔ [Symbol.symmDiff] ∈ us := by
  induction h with
  | nil => simp
  | @cons t u ts us htu _ ih =>
    have hhead : [Symbol.symmDiff] = t ↔ [Symbol.symmDiff] = u := by
      constructor
      · rintro rfl
        have ht : Operator.ofSign? [Symbol.symmDiff] = some .symmDiff := rfl
        exact (htu.eq_sign ht).symm
      · rintro rfl
        have ht : Operator.ofSign? t = some .symmDiff := htu.operator
        exact htu.eq_sign ht
    rw [List.mem_cons, List.mem_cons, hhead, ih]

/-- Groups of tokens that are alike close at the same place. -/
theorem closeGroup?_of_alike {depth : Nat} {inner after : List Token}
    (halike : List.Forall₂ Alike ts us) (h : closeGroup? depth ts = some (inner, after)) :
    ∃ inner' after', closeGroup? depth us = some (inner', after') ∧
      List.Forall₂ Alike inner inner' ∧ List.Forall₂ Alike after after' := by
  induction halike generalizing depth inner after with
  | nil => cases h
  | @cons t u ts us htu hrest ih =>
    -- The first token stays in the group unless it is the closing sign of the group.
    have keep {d : Nat}
        (h : (closeGroup? d ts).map (Prod.map (t :: ·) id) = some (inner, after)) :
        ∃ inner' after', (closeGroup? d us).map (Prod.map (u :: ·) id) = some (inner', after') ∧
          List.Forall₂ Alike inner inner' ∧ List.Forall₂ Alike after after' := by
      obtain ⟨⟨inner, after⟩, hclose, heq⟩ := Option.map_eq_some_iff.1 h
      cases heq
      obtain ⟨inner', after', hclose', hinner, hafter⟩ := ih hclose
      exact ⟨u :: inner', after', by rw [hclose']; rfl, .cons htu hinner, hafter⟩
    by_cases hopener : isOpener t
    · rw [closeGroup?_opener _ hopener] at h
      rw [closeGroup?_opener _ (htu.opener ▸ hopener)]
      exact keep h
    by_cases hcloser : isCloser t
    · have hu : isCloser u := htu.closer ▸ hcloser
      simp only [isCloser, decide_eq_true_eq] at hcloser hu
      subst hcloser hu
      cases depth with
      | zero =>
        cases h
        exact ⟨[], us, rfl, .nil, hrest⟩
      | succ depth => exact keep h
    · rw [Bool.not_eq_true] at hopener hcloser
      rw [closeGroup?_cons _ hopener hcloser] at h
      rw [closeGroup?_cons _ (htu.opener ▸ hopener) (htu.closer ▸ hcloser)]
      exact keep h

theorem enclose_of_alike {t u : Token} {inner inner' : List Token} (htu : Alike t u)
    (hopener : isOpener t) (hinner : List.Forall₂ Alike inner inner') (node : Node) :
    enclose u inner' node = enclose t inner node := by
  have hsymmDiff : inner'.contains [Symbol.symmDiff] = inner.contains [Symbol.symmDiff] := by
    rw [Bool.eq_iff_iff, List.contains_iff_mem, List.contains_iff_mem,
      symmDiff_mem_of_alike hinner]
  rw [enclose, enclose, htu.parity hopener, hsymmDiff]

/-- The members of a group are read alike. -/
theorem groupItems_of_alike {group group' : List Token} {items : List Item}
    (halike : List.Forall₂ Alike ts us) (h : groupItems group ts = .ok items) :
    groupItems group' us = .ok items := by
  induction group, ts using groupItems.induct generalizing group' us items with
  | case1 group =>
    cases halike
    rw [groupItems_nil] at h ⊢
    exact h
  | case2 group token behind hopener hclose =>
    rw [groupItems_unclosed hopener hclose] at h
    cases h
  | case3 group token behind hopener inner after hclose _ ihinner ihafter =>
    obtain ⟨u, us, htu, hbehind, rfl⟩ := List.forall₂_cons_left_iff.1 halike
    obtain ⟨inner', after', hclose', hinner, hafter⟩ := closeGroup?_of_alike hbehind hclose
    simp only [groupItems_opener hopener hclose, except_bind_eq_ok] at h
    obtain ⟨tree, htree, node, hnode, rest, hrest, h⟩ := h
    cases h
    obtain ⟨members, hmembers, hreduce⟩ := except_bind_eq_ok.1 htree
    have hbuild : buildGroup inner' = .ok tree :=
      except_bind_eq_ok.2 ⟨members, ihinner hinner hmembers, hreduce⟩
    have henclose : enclose u inner' tree = .ok node :=
      (enclose_of_alike htu hopener hinner tree).trans hnode
    rw [groupItems_group (htu.opener ▸ hopener) hclose' hbuild henclose, ihafter hafter hrest]
    rfl
  | case4 group token behind hopener hcloser =>
    rw [groupItems_closer hopener hcloser] at h
    cases h
  | case5 group token behind hopener hcloser op hop ih =>
    obtain ⟨u, us, htu, hbehind, rfl⟩ := List.forall₂_cons_left_iff.1 halike
    simp only [groupItems_sign hopener hcloser hop, except_bind_eq_ok] at h
    obtain ⟨rest, hrest, h⟩ := h
    cases h
    obtain ⟨hsign, hset⟩ := Operator.sign_of_ofSign? hop
    rw [htu.eq_sign hop, ← hsign, groupItems_operator _ hset, ih hbehind hrest]
    rfl
  | case6 group token behind hopener hcloser hop ih =>
    obtain ⟨u, us, htu, hbehind, rfl⟩ := List.forall₂_cons_left_iff.1 halike
    have htoken : IsOperandToken token := ⟨by simpa using hopener, by simpa using hcloser, hop⟩
    simp only [groupItems_token htoken, except_bind_eq_ok] at h
    obtain ⟨node, hnode, rest, hrest, h⟩ := h
    cases h
    have hu : IsOperandToken u :=
      ⟨htu.opener ▸ htoken.not_opener, htu.closer ▸ htoken.not_closer, htu.operator ▸ hop⟩
    rw [groupItems_operand hu (htu.operand ▸ hnode), ih hbehind hrest]
    rfl

theorem buildGroup_of_alike {node : Node} (halike : List.Forall₂ Alike ts us)
    (h : buildGroup ts = .ok node) : buildGroup us = .ok node := by
  obtain ⟨items, hitems, hreduce⟩ := except_bind_eq_ok.1 h
  exact except_bind_eq_ok.2 ⟨items, groupItems_of_alike halike hitems, hreduce⟩

/-- Tokens that are alike have the same tree. -/
theorem buildTree_of_alike {tree : Datum} (halike : List.Forall₂ Alike ts us)
    (h : buildTree ts = .ok tree) : buildTree us = .ok tree := by
  cases halike with
  | nil => exact h
  | cons htu hrest =>
    rw [buildTree, if_neg (List.cons_ne_nil _ _), except_bind_eq_ok] at h ⊢
    obtain ⟨node, hnode, hflat⟩ := h
    exact ⟨node, buildGroup_of_alike (.cons htu hrest) hnode, hflat⟩

/-! ## Tokens of a text and of its resolved text -/

/-- Before and after its negations are resolved a text has tokens that are alike, whatever comes
behind it. -/
def LexesAlike (s : List Char) : Prop :=
  ∃ ts us, List.Forall₂ Alike us ts ∧ ∀ rest, EndsName rest →
    tokenize (s ++ rest) = ts ++ tokenize rest ∧
    tokenize (resolveNegations s ++ rest) = us ++ tokenize rest

/-- Atoms have such tokens behind any number of negations. -/
def LexesAlikeAs (s : List Char) : Phrase → Prop
  | .atom => ∀ n, LexesAlike (List.replicate n Symbol.negation ++ s)
  | _ => LexesAlike s

/-- A text in which no union or intersection sign is negated. -/
def IsPlain (s : List Char) : Prop :=
  ¬ [Symbol.negation, Symbol.union] <:+: s ∧ ¬ [Symbol.negation, Symbol.inter] <:+: s

theorem IsPlain.of_infix {s t : List Char} (h : IsPlain t) (hst : s <:+: t) : IsPlain s :=
  ⟨fun hs => h.1 (hs.trans hst), fun hs => h.2 (hs.trans hst)⟩

/-- A connective of a plain text is the sign of its operator. -/
theorem text_eq_sign {c : Connective} {e u : List Char} (h : IsPlain (e ++ c.text ++ u)) :
    c.text = c.operator.sign := by
  cases c with
  | union | inter | diff | symmDiff => rfl
  | negatedUnion => exact absurd ⟨e, u, rfl⟩ h.1
  | negatedInter => exact absurd ⟨e, u, rfl⟩ h.2

theorem LexesAlike.join {s u : List Char} {c : Connective} (hends : EndsOperand s)
    (hc : c.text = c.operator.sign) (hs : LexesAlike s) (hu : LexesAlike u) :
    LexesAlike (s ++ c.text ++ u) := by
  obtain ⟨ts, ts', hts, htok⟩ := hs
  obtain ⟨us, us', hus, hutok⟩ := hu
  have hop := c.isSetOperation_operator
  refine ⟨ts ++ c.operator.sign :: us, ts' ++ c.operator.sign :: us',
    List.rel_append hts (.cons (.refl _) hus), fun rest hrest => ⟨?_, ?_⟩⟩
  · rw [hc, List.append_assoc, List.append_assoc, (htok _ (endsName_operator _ hop)).1,
      tokenize_operator _ hop, (hutok rest hrest).1, List.append_assoc, List.cons_append]
  · rw [List.append_assoc, resolveNegations_append _ hends, resolveNegations_connective,
      List.append_assoc, List.append_assoc, (htok _ (endsName_operator _ hop)).2,
      tokenize_operator _ hop, (hutok rest hrest).2, List.append_assoc, List.cons_append]

theorem length_signs (n : Nat) : (signs (n % 2 = 1)).length = n % 2 := by
  rcases Nat.mod_two_eq_zero_or_one n with h | h <;> simp [signs, h]

theorem lexesAlike_name {a : List Char} (n : Nat) (hne : a ≠ []) (hname : ∀ c ∈ a, isNameChar c) :
    LexesAlike (List.replicate n Symbol.negation ++ a) := by
  have hresolve : resolveNegations (List.replicate n Symbol.negation ++ a) =
      signs (n % 2 = 1) ++ a := by
    obtain ⟨c, a, rfl⟩ := List.exists_cons_of_ne_nil hne
    have ha := resolveNegations_name [] fun d hd => hname d (List.mem_cons_of_mem c hd)
    rw [List.append_nil] at ha
    rw [resolveNegations_replicate, resolveNegations_signs_cons _ _ (.inl (hname c (by simp))), ha]
    simp [resolveNegations, replacements, replacePair]
  refine ⟨[List.replicate n Symbol.negation ++ a], [signs (n % 2 = 1) ++ a],
    .cons (.of_operand (isOperandToken_name _ hne hname) (isOperandToken_name _ hne hname) ?_) .nil,
    fun rest hrest => ⟨tokenize_name (areNegations_replicate n) hne hname hrest, ?_⟩⟩
  · rw [operand_name (areNegations_signs _) hne hname,
      operand_name (areNegations_replicate n) hne hname, length_signs, List.length_replicate,
      Nat.mod_mod]
  · rw [hresolve]
    exact tokenize_name (areNegations_signs _) hne hname hrest

/-- The negations of a constant are resolved to another constant, and the token of all of them makes
that constant. -/
theorem lexesAlike_constant {c c' : Char} (n : Nat) (hc : isConstantChar c)
    (hc' : isConstantChar c') (hplain : resolveNegations [c] = [c])
    (hnegated : resolveNegations [Symbol.negation, c] = [c'])
    (hleaf : negated (.leaf [c]) = .ok (.leaf [c'])) :
    LexesAlike (List.replicate n Symbol.negation ++ [c]) := by
  have hneg (d : Char) (hd : isConstantChar d) : d ≠ Symbol.negation := by
    rintro rfl
    revert hd
    decide
  have hoperand (d : Char) (hd : isConstantChar d) : operand [d] = .ok (.leaf [d]) :=
    @operand_negations [] nofun d [] (hneg d hd)
  obtain ⟨d, hd, hresolve, hmake⟩ : ∃ d, isConstantChar d ∧
      resolveNegations (List.replicate n Symbol.negation ++ [c]) = [d] ∧
      operand [d] = operand (List.replicate n Symbol.negation ++ [c]) := by
    rw [resolveNegations_replicate,
      operand_negations (areNegations_replicate n) [] (hneg c hc), List.length_replicate]
    by_cases h : n % 2 = 1
    · refine ⟨c', hc', ?_, ?_⟩
      · simpa [signs, h] using hnegated
      · rw [if_pos h, hleaf, hoperand c' hc']
    · refine ⟨c, hc, ?_, ?_⟩
      · simpa [signs, h] using hplain
      · rw [if_neg h, hoperand c hc]
  refine ⟨[List.replicate n Symbol.negation ++ [c]], [[d]], .cons (.of_operand ?_ ?_ hmake) .nil,
    fun rest _ => ⟨?_, ?_⟩⟩
  · exact isOperandToken_of_getLast? rfl (.inr hd)
  · exact isOperandToken_of_getLast? List.getLast?_concat (.inr hc)
  · rw [List.append_assoc]
    exact tokenize_negations (areNegations_replicate n) rest (.inr hc)
  · rw [hresolve]
    exact tokenize_sign rest (.inl hd)

/-- Openers of groups are alike if their negations have the same parity. -/
theorem Alike.opening {s s' : List Char} (hs : AreNegations s) (hs' : AreNegations s')
    (h : s.length % 2 = s'.length % 2) :
    Alike (s ++ [Symbol.opening]) (s' ++ [Symbol.opening]) where
  opener := (isOpener_concat s).trans (isOpener_concat s').symm
  closer := by
    rw [isCloser_of_getLast? List.getLast?_concat (by decide),
      isCloser_of_getLast? List.getLast?_concat (by decide)]
  operator := by
    rw [ofSign?_of_getLast? List.getLast?_concat (by decide),
      ofSign?_of_getLast? List.getLast?_concat (by decide)]
  operand := by
    rw [operand_negations hs [] (by decide), operand_negations hs' [] (by decide), h]
  parity _ := by simpa using h

theorem lexesAlike_group {e : List Char} (n : Nat) (hends : EndsOperand e) (he : LexesAlike e) :
    LexesAlike (List.replicate n Symbol.negation ++ Symbol.opening :: (e ++ [Symbol.closing])) := by
  obtain ⟨ts, us, halike, htok⟩ := he
  have hopener : Alike (signs (n % 2 = 1) ++ [Symbol.opening])
      (List.replicate n Symbol.negation ++ [Symbol.opening]) :=
    .opening (areNegations_signs _) (areNegations_replicate n) (by simp [length_signs])
  refine ⟨(List.replicate n Symbol.negation ++ [Symbol.opening]) :: (ts ++ [[Symbol.closing]]),
    (signs (n % 2 = 1) ++ [Symbol.opening]) :: (us ++ [[Symbol.closing]]),
    .cons hopener (List.rel_append halike (.cons (.refl _) .nil)), fun rest _ => ?_⟩
  have hends' : EndsName (Symbol.closing :: rest) := fun c hc => by
    cases hc
    decide
  have hclosing := tokenize_sign rest (.inr (.inr rfl) : _ ∨ _ ∨ Symbol.closing = Symbol.closing)
  obtain ⟨hraw, hresolved⟩ := htok _ hends'
  constructor
  · rw [List.append_assoc, List.cons_append, List.append_assoc, List.singleton_append,
      tokenize_negations (areNegations_replicate n) _ (.inl rfl), hraw, hclosing]
    simp
  · have hsign : resolveNegations [Symbol.closing] = [Symbol.closing] := rfl
    rw [resolveNegations_replicate, resolveNegations_signs_cons _ _ (.inr rfl),
      resolveNegations_append _ hends, hsign, List.append_assoc, List.cons_append,
      List.append_assoc, List.singleton_append,
      tokenize_negations (areNegations_signs _) _ (.inl rfl), hresolved, hclosing]
    simp

/-- Before and after its negations are resolved a plain text of the grammar has tokens that are
alike. -/
theorem Derives.lexesAlike {p : Phrase} {s : List Char} (h : Derives p s) (hplain : IsPlain s) :
    LexesAlikeAs s p := by
  induction h with
  | signed _ ih => exact ih hplain
  | @join e u c he hu ihe ihu =>
    refine LexesAlike.join he.endsOperand (text_eq_sign hplain) (ihe ?_) (ihu ?_)
    · exact hplain.of_infix ⟨[], c.text ++ u, by simp⟩
    · exact hplain.of_infix ⟨e ++ c.text, [], by simp⟩
  | @negations a n _ ih =>
    exact ih (hplain.of_infix ⟨List.replicate n Symbol.negation, [], by simp⟩) n
  | name hne hname => exact fun n => lexesAlike_name n hne hname
  | universal => exact fun n => lexesAlike_constant n (by decide) (by decide) rfl rfl rfl
  | null => exact fun n => lexesAlike_constant n (by decide) (by decide) rfl rfl rfl
  | @group e he ih =>
    intro n
    refine lexesAlike_group n he.endsOperand (ih ?_)
    exact hplain.of_infix ⟨[Symbol.opening], [Symbol.closing], by simp⟩

theorem Derives.tokens_alike {s : List Char} (h : Derives .expression s)
    (hplain : IsPlain s) :
    List.Forall₂ Alike (tokenize (resolveNegations s)) (tokenize s) := by
  obtain ⟨ts, us, halike, htok⟩ := h.lexesAlike hplain
  obtain ⟨hraw, hresolved⟩ := htok [] nofun
  simp only [List.append_nil, tokenize_nil] at hraw hresolved
  rwa [hraw, hresolved]

/-! ## The outer group -/

variable {α : Type*} {U : Set α} {σ : String → Option (Set α)}

/-- Brackets around the tokens of an expression are an operand, whose tree is that of the
expression. -/
theorem Denotes.buildTree_enclosed (hσ : ∀ name A, σ name = some A → A ⊆ U) {e : List Char}
    {A : Set α} (h : Denotes U σ .expression e A) :
    buildTree (tokenize (Symbol.opening :: (resolveNegations e ++ [Symbol.closing]))) =
      buildTree (tokenize (resolveNegations e)) := by
  obtain ⟨ts, hts, htok⟩ := h.lexesAs hσ
  obtain ⟨chain, hread, -, -⟩ := hts.exists_isRead hσ
  have hinner : tokenize (resolveNegations e) = ts := by simpa using htok [] nofun
  have hends : EndsName [Symbol.closing] := fun c hc => by
    cases hc
    decide
  have houter : tokenize (Symbol.opening :: (resolveNegations e ++ [Symbol.closing])) =
      [Symbol.opening] :: (ts ++ [[Symbol.closing]]) := by
    have hclosing : tokenize [Symbol.closing] = [[Symbol.closing]] := by
      simpa using tokenize_sign [] (.inr (.inr rfl) : _ ∨ _ ∨ Symbol.closing = Symbol.closing)
    have hopening := @tokenize_negations [] Symbol.opening nofun
      (resolveNegations e ++ [Symbol.closing]) (.inl rfl)
    rw [List.nil_append, List.nil_append] at hopening
    rw [hopening, htok _ hends, hclosing]
  have hgroup : IsRead ([Symbol.opening] :: (ts ++ [[Symbol.closing]])) ⟨chain.collapse, []⟩ :=
    hread.group rfl rfl
  rw [houter, hinner, buildTree_of_buildGroup hgroup.buildGroup,
    buildTree_of_buildGroup hread.buildGroup, Chain.collapse_single]

/-- Without its outer group a text has the same tree. -/
theorem Denotes.buildTree_simplify (hσ : ∀ name A, σ name = some A → A ⊆ U) {s : List Char}
    {A : Set α} (h : Denotes U σ .expression s A) :
    buildTree (tokenize (simplify s)) = buildTree (tokenize (resolveNegations s)) := by
  unfold simplify
  dsimp only
  split_ifs with hstrip
  · obtain ⟨hone, -, henclosed⟩ := hstrip
    rcases h.lone_or_joined with hs | ⟨e, c, u, rfl, he, hu⟩
    · obtain ⟨e, he, heq⟩ := hs.exists_group hσ henclosed
      rw [heq, List.tail_cons, List.dropLast_concat, he.buildTree_enclosed hσ]
    · have := two_le_count_opening c he hu henclosed
      omega
  · rfl

/-- The outer group goes under any choice of sets for the names. -/
theorem Derives.buildTree_simplify {s : List Char} (h : Derives .expression s) :
    buildTree (tokenize (simplify s)) = buildTree (tokenize (resolveNegations s)) := by
  obtain ⟨A, hA⟩ := h.exists_denotes (U := Set.univ)
    (σ := fun _ => some (Set.univ : Set Unit)) fun _ => ⟨_, rfl⟩
  exact hA.buildTree_simplify fun _ B _ => Set.subset_univ B

/-! ## Accepted equations -/

/-- The tree of an accepted equation can be built from the tokens of its text as well as from those
of its simplified text, and is the same one, unless a union or intersection sign is negated. -/
theorem buildTree_unsimplified {equation : List Char} {tokens : List Token}
    (hvalid : validate equation = .ok tokens)
    (hplain : ¬ [Symbol.negation, Symbol.union] <:+: Text.dropBlanks equation ∧
      ¬ [Symbol.negation, Symbol.inter] <:+: Text.dropBlanks equation) :
    ∃ tree, buildTree (tokenize (simplify (Text.dropBlanks equation))) = .ok tree ∧
      buildTree (tokenize (Text.dropBlanks equation)) = .ok tree := by
  obtain ⟨hderives, -⟩ := validate_eq_ok.1 hvalid
  generalize Text.dropBlanks equation = s at hplain hderives ⊢
  rcases hderives with hempty | hderives
  · subst hempty
    have hsimplify : simplify [] = [] := rfl
    exact ⟨.list [], by rw [hsimplify, tokenize_nil]; rfl, by rw [tokenize_nil]; rfl⟩
  · obtain ⟨tree, htree⟩ := hderives.exists_buildTree
    refine ⟨tree, htree, buildTree_of_alike (hderives.tokens_alike hplain) ?_⟩
    rwa [← hderives.buildTree_simplify]

/-- Three negations of a group with `⊕`, two of one that is negated by its operands, and negated
constants. -/
theorem buildTree_unsimplified_nested :
    validate "!!!(a⊕!Ω) - !!(!(b∪!!c))∩!!!∅".toList = .ok [['!', '('], ['a'], ['⊕'], ['∅'], [')'],
      ['-'], ['('], ['!', '('], ['b'], ['∪'], ['c'], [')'], [')'], ['∩'], ['Ω']] ∧
    (¬ [Symbol.negation, Symbol.union] <:+:
        Text.dropBlanks "!!!(a⊕!Ω) - !!(!(b∪!!c))∩!!!∅".toList ∧
      ¬ [Symbol.negation, Symbol.inter] <:+:
        Text.dropBlanks "!!!(a⊕!Ω) - !!(!(b∪!!c))∩!!!∅".toList) ∧
    ∃ tree, buildTree (tokenize (simplify
        (Text.dropBlanks "!!!(a⊕!Ω) - !!(!(b∪!!c))∩!!!∅".toList))) = .ok tree ∧
      buildTree (tokenize (Text.dropBlanks "!!!(a⊕!Ω) - !!(!(b∪!!c))∩!!!∅".toList)) =
        .ok tree := by
  have hvalid : validate "!!!(a⊕!Ω) - !!(!(b∪!!c))∩!!!∅".toList = .ok [['!', '('], ['a'], ['⊕'],
      ['∅'], [')'], ['-'], ['('], ['!', '('], ['b'], ['∪'], ['c'], [')'], [')'], ['∩'],
      ['Ω']] := by with_unfolding_all rfl
  have htext : Text.dropBlanks "!!!(a⊕!Ω) - !!(!(b∪!!c))∩!!!∅".toList = ['!', '!', '!', '(', 'a',
      '⊕', '!', 'Ω', ')', '-', '!', '!', '(', '!', '(', 'b', '∪', '!', '!', 'c', ')', ')', '∩', '!',
      '!', '!', '∅'] := by with_unfolding_all rfl
  have hplain : ¬ [Symbol.negation, Symbol.union] <:+:
        Text.dropBlanks "!!!(a⊕!Ω) - !!(!(b∪!!c))∩!!!∅".toList ∧
      ¬ [Symbol.negation, Symbol.inter] <:+:
        Text.dropBlanks "!!!(a⊕!Ω) - !!(!(b∪!!c))∩!!!∅".toList := by
    rw [htext]
    exact ⟨by decide, by decide⟩
  exact ⟨hvalid, hplain, buildTree_unsimplified hvalid hplain⟩

end VoxelAlgebra.Equation
