import VoxelAlgebra.Proofs.Equation.Lexing

/-!
# Simplified texts

The replacements run once each, but one pass is enough. A run of negations and the character behind
it are resolved together, whatever comes next, and what they become ends with no negation that could
be resolved with its neighbour. In the simplified text of an accepted equation a negation therefore
stands in front of a name or an opening sign only, where it begins a token, so no character is
passed over when the text is cut.

## Main definitions

* `negations_induction` — induction along the runs of negations of a text.
* `isChain_resolveNegations` — the neighbours of negations in a resolved text.
* `simplify_idem` — simplified texts stay as they are.
* `IsLexable`, `IsSimpleToken` — texts without a gap between their tokens, and these tokens.
* `simplify_and_tokenize` — one pass of simplification, and no loss in the tokens.
-/

namespace VoxelAlgebra.Equation

/-! ## Runs of negations -/

/-- Every text is a run of negations, or begins with one that another character ends. -/
theorem negations_induction {motive : List Char → Prop}
    (negations : ∀ n, motive (List.replicate n Symbol.negation))
    (cons : ∀ n c t, c ≠ Symbol.negation → motive t →
      motive (List.replicate n Symbol.negation ++ c :: t)) (s : List Char) : motive s := by
  -- the run that is being read is kept in front
  suffices h : ∀ n, motive (List.replicate n Symbol.negation ++ s) from h 0
  induction s with
  | nil => exact fun n => by simpa using negations n
  | cons c s ih =>
    intro n
    by_cases hc : c = Symbol.negation
    · subst hc
      have h := ih (n + 1)
      rwa [List.replicate_succ', List.append_assoc] at h
    · exact cons n c s hc (ih 0)

def resolvable : List Char :=
  [Symbol.negation, Symbol.inter, Symbol.union, Symbol.universal, Symbol.null]

theorem resolveNegations_negations (n : Nat) :
    resolveNegations (List.replicate n Symbol.negation) = signs (n % 2 = 1) := by
  have h := resolveNegations_replicate n []
  rw [List.append_nil, List.append_nil] at h
  rw [h]
  cases decide (n % 2 = 1) <;> rfl

/-- A run of negations is resolved together with the character behind it. -/
theorem resolveNegations_run (n : Nat) {c : Char} (t : List Char) (hc : c ≠ Symbol.negation) :
    resolveNegations (List.replicate n Symbol.negation ++ c :: t) =
      resolveNegations (signs (n % 2 = 1) ++ [c]) ++ resolveNegations t := by
  rw [resolveNegations_replicate, ← resolveNegations_append t (endsOperand_concat _ hc),
    List.append_assoc, List.singleton_append]

/-- What a run of negations and the character behind it become. -/
theorem resolveNegations_signs_concat (negated : Bool) {c : Char} (hc : c ≠ Symbol.negation) :
    (∃ d, d ≠ Symbol.negation ∧ resolveNegations (signs negated ++ [c]) = [d]) ∨
    (negated ∧ c ∉ resolvable ∧
      resolveNegations (signs negated ++ [c]) = [Symbol.negation, c]) := by
  cases negated with
  | false => exact .inl ⟨c, hc, resolveNegations_cons [] hc⟩
  | true =>
    by_cases hres : c ∈ resolvable
    · simp only [resolvable, List.mem_cons, List.not_mem_nil, or_false] at hres
      obtain rfl | rfl | rfl | rfl | rfl := hres
      · exact absurd rfl hc
      all_goals exact .inl ⟨_, by decide, rfl⟩
    · refine .inr ⟨rfl, hres, ?_⟩
      simp only [resolvable, List.mem_cons, List.not_mem_nil, or_false, not_or] at hres
      simp [signs, resolveNegations, replacements, replacePair, hres]

/-- In a resolved text no negation stands in front of a character with which it is resolved, and
its neighbour is one that a negation had before. -/
theorem isChain_resolveNegations {P : Char → Prop} {s : List Char}
    (hs : s.IsChain fun a b => a = Symbol.negation → P b) :
    (resolveNegations s).IsChain fun a b => a = Symbol.negation → P b ∧ b ∉ resolvable := by
  induction s using negations_induction with
  | negations n =>
    rw [resolveNegations_negations]
    cases decide (n % 2 = 1)
    · exact .nil
    · exact .singleton _
  | cons n c t hc ih =>
    have ht := ih hs.right_of_append.tail
    rw [resolveNegations_run n t hc]
    obtain ⟨d, hd, heq⟩ | ⟨hodd, hres, heq⟩ := resolveNegations_signs_concat (n % 2 = 1) hc
    · rw [heq]
      exact List.isChain_cons.2 ⟨fun _ _ h => absurd h hd, ht⟩
    · rw [heq]
      have hP : P c := by
        obtain ⟨m, rfl⟩ : ∃ m, n = m + 1 := Nat.exists_eq_add_one.2 (by simp at hodd; omega)
        rw [List.replicate_succ', List.append_assoc] at hs
        exact (List.isChain_cons_cons.1 hs.right_of_append).1 rfl
      exact List.isChain_cons_cons.2 ⟨fun _ => ⟨hP, hres⟩,
        List.isChain_cons.2 ⟨fun _ _ h => absurd h hc, ht⟩⟩

/-! ## One pass -/

theorem replacePair_eq_self {a b : Char} (new : List Char) {s : List Char}
    (h : s.IsChain fun x y => x = a → y ≠ b) : replacePair a b new s = s := by
  fun_induction replacePair a b new s with
  | case1 x y rest hxy => exact absurd hxy.2 ((List.isChain_cons_cons.1 h).1 hxy.1)
  | case2 x y rest hxy ih => rw [ih h.tail]
  | case3 text hshort => rfl

theorem resolveNegations_eq_self {s : List Char}
    (h : s.IsChain fun a b => a = Symbol.negation → b ∉ resolvable) : resolveNegations s = s := by
  have hself : ∀ c ∈ resolvable, ∀ new, replacePair Symbol.negation c new s = s :=
    fun c hc new => replacePair_eq_self new (h.imp fun a b hab ha hb => hab ha (hb ▸ hc))
  simp only [resolveNegations, replacements, List.foldl_cons, List.foldl_nil]
  repeat rw [hself _ (by decide)]

theorem count_replacePair {a b c : Char} {new : List Char} (text : List Char) (ha : c ≠ a)
    (hb : c ≠ b) (hnew : c ∉ new) : (replacePair a b new text).count c = text.count c := by
  fun_induction replacePair a b new text with
  | case1 x y rest h ih =>
    rw [List.count_append, ih, List.count_eq_zero.2 hnew, List.count_cons_of_ne (h.1 ▸ ha.symm),
      List.count_cons_of_ne (h.2 ▸ hb.symm), Nat.zero_add]
  | case2 x y rest h ih => rw [List.count_cons, ih, ← List.count_cons]
  | case3 text hshort => rfl

/-- Resolving negations leaves all brackets. -/
theorem count_resolveNegations {c : Char} (hc : c = Symbol.opening ∨ c = Symbol.closing)
    (s : List Char) : (resolveNegations s).count c = s.count c := by
  simp only [resolveNegations, replacements, List.foldl_cons, List.foldl_nil]
  obtain rfl | rfl := hc
  all_goals repeat rw [count_replacePair _ (by decide) (by decide) (by decide)]

theorem isEnclosed_iff {s : List Char} :
    isEnclosed s ↔ ∃ inner, s = Symbol.opening :: (inner ++ [Symbol.closing]) := by
  simp only [isEnclosed, Bool.and_eq_true, decide_eq_true_eq]
  constructor
  · rintro ⟨hhead, hlast⟩
    obtain ⟨t, rfl⟩ := List.head?_eq_some_iff.1 hhead
    obtain rfl | ⟨inner, c, rfl⟩ := List.eq_nil_or_concat' t
    · exact absurd hlast (by decide)
    · rw [← List.cons_append, List.getLast?_concat] at hlast
      cases hlast
      exact ⟨inner, rfl⟩
  · rintro ⟨inner, rfl⟩
    rw [← List.cons_append, List.getLast?_concat]
    exact ⟨rfl, rfl⟩

/-- The outer group that a simplified text has lost was the only group. -/
theorem simplify_cases (s : List Char) :
    (simplify s = resolveNegations s ∧ ¬ (s.count Symbol.opening = 1 ∧
      s.count Symbol.closing = 1 ∧ isEnclosed (resolveNegations s))) ∨
    (s.count Symbol.opening = 1 ∧
      resolveNegations s = Symbol.opening :: (simplify s ++ [Symbol.closing])) := by
  unfold simplify
  dsimp only
  split_ifs with hstrip
  · obtain ⟨inner, hinner⟩ := isEnclosed_iff.1 hstrip.2.2
    refine .inr ⟨hstrip.1, ?_⟩
    rw [hinner, List.tail_cons, List.dropLast_concat]
  · exact .inl ⟨rfl, hstrip⟩

theorem simplify_isInfix (s : List Char) : simplify s <:+: resolveNegations s := by
  obtain ⟨heq, -⟩ | ⟨-, heq⟩ := simplify_cases s
  · exact heq.symm ▸ List.infix_rfl
  · rw [heq]
    exact ⟨[Symbol.opening], [Symbol.closing], by simp⟩

/-- No negation of a simplified text can be resolved. -/
theorem isChain_simplify (s : List Char) :
    (simplify s).IsChain fun a b => a = Symbol.negation → b ∉ resolvable := by
  have htrivial : s.IsChain fun a _ => a = Symbol.negation → True :=
    List.isChain_iff_forall_rel_of_append_cons_cons.2 fun _ _ _ _ _ _ => trivial
  have hresolved := (isChain_resolveNegations htrivial).imp fun _ _ h ha => (h ha).2
  exact List.IsChain.infix hresolved (simplify_isInfix s)

theorem simplify_idem (s : List Char) : simplify (simplify s) = simplify s := by
  have hself := resolveNegations_eq_self (isChain_simplify s)
  obtain ⟨heq, hkept⟩ | ⟨hone, heq⟩ := simplify_cases s
  · rw [heq] at hself ⊢
    rw [simplify, hself, count_resolveNegations (.inl rfl), count_resolveNegations (.inr rfl)]
    exact if_neg hkept
  · have hnone : (simplify s).count Symbol.opening = 0 := by
      have hcount := count_resolveNegations (.inl rfl) s
      rw [heq, hone, List.count_cons_self, List.count_append] at hcount
      omega
    rw [simplify, hself]
    exact if_neg fun h => by omega

/-! ## Texts without gaps -/

/-- An operator, a closing sign or a constant, or an opening sign or a name behind one negation or
none. -/
inductive IsSimpleToken : Token → Prop
  | operator {c : Char} : isOperatorChar c → IsSimpleToken [c]
  | closing : IsSimpleToken [Symbol.closing]
  | constant {c : Char} : isConstantChar c → IsSimpleToken [c]
  | opening (negated : Bool) : IsSimpleToken (signs negated ++ [Symbol.opening])
  | name (negated : Bool) {a : List Char} : a ≠ [] → (∀ c ∈ a, isNameChar c) →
    IsSimpleToken (signs negated ++ a)

/-- A text of the alphabet in which every negation is in front of a character that it can neither
be resolved with nor be refused for. -/
structure IsLexable (t : List Char) : Prop where
  characters : ∀ c ∈ t, isEquationChar c
  negations : t.IsChain fun a b =>
    a = Symbol.negation → (b ≠ Symbol.closing ∧ b ≠ Symbol.diff ∧ b ≠ Symbol.symmDiff) ∧
      b ∉ resolvable
  ending : ∀ c ∈ t.getLast?, c ≠ Symbol.negation

/-- The first token of a text is simple, and nothing is passed over in front of it. -/
def BeginsSimply (t : List Char) : Prop :=
  ∃ token rest, t = token ++ rest ∧ token ≠ [] ∧ IsSimpleToken token ∧
    tokenize t = token :: tokenize rest

theorem beginsSimply_signs (negated : Bool) {c : Char} (t : List Char)
    (hc : isNameChar c ∨ c = Symbol.opening) : BeginsSimply (signs negated ++ c :: t) := by
  obtain hc | rfl := hc
  · have hname : ∀ d ∈ c :: t.takeWhile isNameChar, isNameChar d :=
      List.forall_mem_cons.2 ⟨hc, fun d hd => List.mem_takeWhile_imp hd⟩
    have hrest : EndsName (t.dropWhile isNameChar) := fun d hd => by
      have hnot := List.head?_dropWhile_not isNameChar t
      rwa [Option.mem_def.1 hd] at hnot
    have heq : signs negated ++ c :: t =
        signs negated ++ c :: t.takeWhile isNameChar ++ t.dropWhile isNameChar := by
      simp
    refine ⟨_, _, heq, by simp, .name negated (List.cons_ne_nil _ _) hname, ?_⟩
    rw [heq]
    exact tokenize_name (areNegations_signs negated) (List.cons_ne_nil _ _) hname hrest
  · refine ⟨_, t, by simp, by simp, .opening negated, ?_⟩
    exact tokenize_negations (areNegations_signs negated) t (.inl rfl)

namespace IsLexable

variable {s t : List Char}

theorem of_append (h : IsLexable (s ++ t)) : IsLexable t where
  characters c hc := h.characters c (List.mem_append_right s hc)
  negations := h.negations.right_of_append
  ending c hc := h.ending c (by simp [List.getLast?_append, Option.mem_def.1 hc])

theorem beginsSimply (h : IsLexable t) (hne : t ≠ []) : BeginsSimply t := by
  obtain ⟨c, t, rfl⟩ := List.exists_cons_of_ne_nil hne
  obtain hc | hc | hc | rfl | rfl | rfl := isEquationChar_cases (h.characters c (by simp))
  · exact beginsSimply_signs false t (.inl hc)
  · exact ⟨[c], t, rfl, by simp, .constant hc, tokenize_sign t (.inl hc)⟩
  · exact ⟨[c], t, rfl, by simp, .operator hc, tokenize_sign t (.inr (.inl hc))⟩
  · cases t with
    | nil => exact absurd rfl (h.ending Symbol.negation rfl)
    | cons d t =>
      obtain ⟨hrefused, hres⟩ := (List.isChain_cons_cons.1 h.negations).1 rfl
      have hd := isEquationChar_cases (h.characters d (by simp))
      simp only [resolvable, List.mem_cons, List.not_mem_nil, or_false, not_or] at hres
      simp only [isConstantChar, isOperatorChar, Bool.or_eq_true, decide_eq_true_eq] at hd
      exact beginsSimply_signs true t (by tauto)
  · exact beginsSimply_signs false t (.inr rfl)
  · exact ⟨[Symbol.closing], t, rfl, by simp, .closing, tokenize_sign t (.inr (.inr rfl))⟩

/-- The tokens of a text without gaps are simple and together make up the text. -/
theorem tokenize (h : IsLexable t) :
    (tokenize t).flatten = t ∧ ∀ token ∈ tokenize t, IsSimpleToken token := by
  induction hlen : t.length using Nat.strong_induction_on generalizing t with
  | h n ih =>
    by_cases hne : t = []
    · subst hne
      simp
    · obtain ⟨token, rest, rfl, htoken, hsimple, htok⟩ := h.beginsSimply hne
      have hlt : rest.length < n := by
        have := List.length_pos_of_ne_nil htoken
        simp only [List.length_append] at hlen
        omega
      obtain ⟨hflatten, htokens⟩ := ih _ hlt h.of_append rfl
      rw [htok, List.flatten_cons, hflatten]
      exact ⟨rfl, List.forall_mem_cons.2 ⟨hsimple, htokens⟩⟩

/-- The inside of a group has no gap either, because no negation is in front of its closing sign. -/
theorem of_group (h : IsLexable (Symbol.opening :: (t ++ [Symbol.closing]))) : IsLexable t where
  characters c hc := h.characters c (by simp [hc])
  negations := h.negations.tail.left_of_append
  ending c hc hneg := by
    subst hneg
    obtain ⟨init, rfl⟩ := List.getLast?_eq_some_iff.1 hc
    have hchain := h.negations.tail
    rw [List.tail_cons, List.append_assoc] at hchain
    exact ((List.isChain_cons_cons.1 hchain.right_of_append).1 rfl).1.1 rfl

end IsLexable

/-- Resolving negations brings in no characters but operators and constants. -/
theorem isEquationChar_of_mem_resolveNegations {c : Char} {s : List Char}
    (hs : ∀ d ∈ s, isEquationChar d) (hc : c ∈ resolveNegations s) : isEquationChar c := by
  have hrules : replacements.all fun rule => rule.2.2.all isEquationChar := by decide
  unfold resolveNegations at hc
  generalize replacements = rules at hc hrules
  induction rules generalizing s with
  | nil => exact hs c hc
  | cons rule rules ih =>
    obtain ⟨hrule, hrest⟩ := Bool.and_eq_true_iff.1 hrules
    refine ih (fun d hd => ?_) hc hrest
    obtain hnew | hold := mem_of_mem_replacePair hd
    · exact List.all_eq_true.1 hrule d hnew
    · exact hs d hold

theorem IsWellFormed.isLexable_resolveNegations {s : List Char} (h : IsWellFormed s) :
    IsLexable (resolveNegations s) where
  characters c hc := isEquationChar_of_mem_resolveNegations h.characters hc
  negations := isChain_resolveNegations h.attachable
  ending c hc := by
    obtain ⟨e, he⟩ : ∃ e, s.getLast? = some e := by
      refine Option.isSome_iff_exists.1 (List.getLast?_isSome.2 ?_)
      rintro rfl
      cases hc
    have hends : EndsOperand s := ⟨e, he, ne_negation_of_isEndingChar (h.ending e he)⟩
    obtain ⟨d, hd, hne⟩ := hends.resolveNegations
    obtain rfl : d = c := Option.mem_unique hd hc
    exact hne

theorem IsWellFormed.isLexable_simplify {s : List Char} (h : IsWellFormed s) :
    IsLexable (simplify s) := by
  have hresolved := h.isLexable_resolveNegations
  obtain ⟨heq, -⟩ | ⟨-, heq⟩ := simplify_cases s
  · rwa [heq]
  · rw [heq] at hresolved
    exact hresolved.of_group

/-! ## Simplifying and cutting -/

/-- No simplified text has a negation left that could be resolved with the character behind it, and
simplifying it again changes nothing. The tokens of an accepted equation are simple and together
make up its simplified text. -/
theorem simplify_and_tokenize :
    (∀ s, (∀ c ∈ ['!', '∩', '∪', 'Ω', '∅'], ¬ ['!', c] <:+: simplify s) ∧
      simplify (simplify s) = simplify s) ∧
    ∀ (equation : List Char) (tokens : List Token), validate equation = .ok tokens →
      tokens.flatten = simplify (Text.dropBlanks equation) ∧
        ∀ token ∈ tokens, IsSimpleToken token := by
  refine ⟨fun s => ⟨fun c hc hpair => ?_, simplify_idem s⟩, fun equation tokens hvalid => ?_⟩
  · have hchain := List.IsChain.infix (isChain_simplify s) hpair
    exact List.isChain_pair.1 hchain rfl hc
  · obtain ⟨hderives, rfl⟩ := validate_eq_ok.1 hvalid
    exact ((isWellFormed_iff _).2 hderives).isLexable_simplify.tokenize

/-- Negations of a sign, a group and a constant, one of them resolved for good and none lost. -/
theorem simplify_and_tokenize_negations :
    ¬ ['!', '!'] <:+: simplify "(!!!a !∩ !Ω)".toList ∧
    simplify (simplify "(!!!a !∩ !Ω)".toList) = simplify "(!!!a !∩ !Ω)".toList ∧
    validate "(!!!a !∩ !Ω)".toList = .ok [['!', 'a'], ['∪'], ['∅']] ∧
    [['!', 'a'], ['∪'], ['∅']].flatten = simplify (Text.dropBlanks "(!!!a !∩ !Ω)".toList) ∧
    ∀ token ∈ [['!', 'a'], ['∪'], ['∅']], IsSimpleToken token := by
  have hvalid : validate "(!!!a !∩ !Ω)".toList = .ok [['!', 'a'], ['∪'], ['∅']] := by
    with_unfolding_all rfl
  obtain ⟨hpairs, hidem⟩ := simplify_and_tokenize.1 "(!!!a !∩ !Ω)".toList
  obtain ⟨hflatten, hsimple⟩ := simplify_and_tokenize.2 _ _ hvalid
  exact ⟨hpairs '!' (by decide), hidem, hvalid, hflatten, hsimple⟩

end VoxelAlgebra.Equation
