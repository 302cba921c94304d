import VoxelAlgebra.Equation.Simplification
import VoxelAlgebra.Proofs.Equation.Acceptance

/-!
# Tokens of denoting texts

The negations in front of an operand are resolved in the text until at most one is left, and that
one becomes part of the token behind it. So the tokens of a text have a grammar of their own, in
which an operand has a sign or none, and they stand for the set of the text.

## Main definitions

* `resolveNegations_append`, `resolveNegations_replicate` — resolving goes along with concatenation.
* `Spells` — the sets that lists of tokens stand for.
* `Denotes.spells` — the tokens of a simplified text stand for the set of the text.
-/

namespace VoxelAlgebra.Equation

/-! ## Resolving negations -/

/-- A text whose last character is no negation. -/
def EndsOperand (text : List Char) : Prop := ∃ c ∈ text.getLast?, c ≠ Symbol.negation

theorem endsOperand_concat {c : Char} (text : List Char) (hc : c ≠ Symbol.negation) :
    EndsOperand (text ++ [c]) :=
  ⟨c, by simp, hc⟩

theorem replacePair_append (b : Char) (new : List Char) {s : List Char} (t : List Char)
    (hs : EndsOperand s) : replacePair Symbol.negation b new (s ++ t) =
      replacePair Symbol.negation b new s ++ replacePair Symbol.negation b new t := by
  obtain ⟨c, hlast, hc⟩ := hs
  fun_induction replacePair Symbol.negation b new s with
  | case1 x y rest h ih =>
    cases rest with
    | nil => simp [replacePair, h]
    | cons z rest =>
      have hrest := ih (by simpa using hlast)
      simpa [replacePair, h] using hrest
  | case2 x y rest h ih =>
    have hrest := ih (by simpa using hlast)
    simp only [List.cons_append] at hrest ⊢
    rw [replacePair, if_neg h, hrest]
  | case3 text h =>
    match text, h with
    | [], _ => cases hlast
    | [x], _ =>
      obtain rfl : x = c := by simpa using hlast
      cases t with
      | nil => rfl
      | cons y t => simp [replacePair, hc]
    | x :: y :: rest, h => exact absurd rfl (h x y rest)

/-- A replacement of a negation and its neighbour that leaves no negation at the end. -/
def ResolvesNegation (rule : Char × Char × List Char) : Prop :=
  rule.1 = Symbol.negation ∧ (rule.2.1 = Symbol.negation ∨ EndsOperand rule.2.2)

theorem resolvesNegation_of_mem {rule : Char × Char × List Char} (h : rule ∈ replacements) :
    ResolvesNegation rule := by
  simp only [replacements, List.mem_cons, List.not_mem_nil, or_false] at h
  obtain rfl | rfl | rfl | rfl | rfl := h
  · exact ⟨rfl, .inl rfl⟩
  all_goals exact ⟨rfl, .inr ⟨_, rfl, by decide⟩⟩

theorem EndsOperand.replacePair {b : Char} {new s : List Char}
    (hrule : b = Symbol.negation ∨ EndsOperand new) (hs : EndsOperand s) :
    EndsOperand (replacePair Symbol.negation b new s) := by
  obtain ⟨c, hlast, hc⟩ := hs
  fun_induction Equation.replacePair Symbol.negation b new s with
  | case1 x y rest h ih =>
    cases rest with
    | nil =>
      obtain rfl : y = c := by simpa using hlast
      obtain hb | hnew := hrule
      · exact absurd (h.2.trans hb) hc
      · simpa [Equation.replacePair] using hnew
    | cons z rest =>
      obtain ⟨d, hd, hne⟩ := ih (by simpa using hlast)
      exact ⟨d, by simp [List.getLast?_append, Option.mem_def.1 hd], hne⟩
  | case2 x y rest h ih =>
    obtain ⟨d, hd, hne⟩ := ih (by simpa using hlast)
    exact ⟨d, by simp [List.getLast?_cons, Option.mem_def.1 hd], hne⟩
  | case3 text h => exact ⟨c, hlast, hc⟩

/-- Behind a text that ends with no negation every replacement begins anew. -/
theorem foldl_replacePair_append {rules : List (Char × Char × List Char)}
    (hrules : ∀ rule ∈ rules, ResolvesNegation rule) {s : List Char} (t : List Char)
    (hs : EndsOperand s) :
    rules.foldl (fun t r => replacePair r.1 r.2.1 r.2.2 t) (s ++ t) =
      rules.foldl (fun t r => replacePair r.1 r.2.1 r.2.2 t) s ++
        rules.foldl (fun t r => replacePair r.1 r.2.1 r.2.2 t) t := by
  induction rules generalizing s t with
  | nil => rfl
  | cons rule rules ih =>
    obtain ⟨hneg, hrule⟩ := hrules rule List.mem_cons_self
    simp only [List.foldl_cons, hneg]
    rw [replacePair_append _ _ t hs]
    exact ih (fun r hr => hrules r (List.mem_cons_of_mem rule hr)) _ (hs.replacePair hrule)

theorem resolveNegations_append {s : List Char} (t : List Char) (hs : EndsOperand s) :
    resolveNegations (s ++ t) = resolveNegations s ++ resolveNegations t :=
  foldl_replacePair_append (fun _ => resolvesNegation_of_mem) t hs

theorem resolveNegations_cons {c : Char} (t : List Char) (hc : c ≠ Symbol.negation) :
    resolveNegations (c :: t) = c :: resolveNegations t :=
  resolveNegations_append t (endsOperand_concat [] hc)

theorem resolveNegations_double (t : List Char) :
    resolveNegations (Symbol.negation :: Symbol.negation :: t) = resolveNegations t := by
  simp [resolveNegations, replacements, replacePair]

def AreNegations (s : List Char) : Prop := ∀ c ∈ s, c = Symbol.negation

theorem areNegations_replicate (n : Nat) : AreNegations (List.replicate n Symbol.negation) :=
  fun _ => List.eq_of_mem_replicate

/-- The signs in front of an operand when its negations are resolved. -/
def signs (negated : Bool) : List Char := if negated then [Symbol.negation] else []

theorem areNegations_signs (negated : Bool) : AreNegations (signs negated) := by
  cases negated <;> simp [AreNegations, signs]

/-- Only the parity of negations matters. -/
theorem resolveNegations_replicate (n : Nat) (t : List Char) :
    resolveNegations (List.replicate n Symbol.negation ++ t) =
      resolveNegations (signs (n % 2 = 1) ++ t) := by
  induction n using Nat.twoStepInduction with
  | zero => rfl
  | one => rfl
  | more n ih _ =>
    have hmod : (n + 1 + 1) % 2 = n % 2 := Nat.add_mod_right n 2
    rw [List.replicate_succ, List.replicate_succ, List.cons_append, List.cons_append,
      resolveNegations_double, ih, hmod]

/-- A negation in front of a name or group stays. -/
theorem resolveNegations_signs_cons (negated : Bool) {c : Char} (t : List Char)
    (hc : isNameChar c ∨ c = Symbol.opening) :
    resolveNegations (signs negated ++ c :: t) = signs negated ++ c :: resolveNegations t := by
  have hne : ∀ d : Char, isNameChar d = false → d ≠ Symbol.opening → c ≠ d := by
    rintro d hd ho rfl
    simp [hd, ho] at hc
  have hneg : c ≠ Symbol.negation := hne _ (by decide) (by decide)
  cases negated with
  | false => exact resolveNegations_cons t hneg
  | true =>
    have hpair : resolveNegations [Symbol.negation, c] = [Symbol.negation, c] := by
      simp [resolveNegations, replacements, replacePair, hneg,
        hne Symbol.inter (by decide) (by decide), hne Symbol.union (by decide) (by decide),
        hne Symbol.universal (by decide) (by decide), hne Symbol.null (by decide) (by decide)]
    have happend := resolveNegations_append t (endsOperand_concat [Symbol.negation] hneg)
    simpa [signs, hpair] using happend

theorem resolveNegations_name {name : List Char} (t : List Char)
    (hname : ∀ c ∈ name, isNameChar c) :
    resolveNegations (name ++ t) = name ++ resolveNegations t := by
  induction name with
  | nil => rfl
  | cons c name ih =>
    have hc := ne_of_isNameChar (hname c (by simp)) isNameChar_negation
    rw [List.cons_append, resolveNegations_cons _ hc, ih fun d hd => hname d (by simp [hd]),
      List.cons_append]

/-- Without negations there is nothing to resolve. -/
theorem resolveNegations_of_notMem {s : List Char} (h : Symbol.negation ∉ s) :
    resolveNegations s = s := by
  induction s with
  | nil => rfl
  | cons c s ih =>
    rw [List.mem_cons, not_or] at h
    rw [resolveNegations_cons s (Ne.symm h.1), ih h.2]

/-- A negated union or intersection sign turns into the other one. -/
theorem resolveNegations_connective (c : Connective) (t : List Char) :
    resolveNegations (c.text ++ t) = c.operator.sign ++ resolveNegations t := by
  have hc : EndsOperand c.text := by cases c <;> exact ⟨_, rfl, by decide⟩
  rw [resolveNegations_append t hc]
  cases c <;> rfl

/-! ## Cutting into tokens -/

theorem tokenize_of_firstToken? {text rest : List Char} {token : Token}
    (h : firstToken? text = some (token, rest)) : tokenize text = token :: tokenize rest := by
  rw [tokenize]
  split
  · rename_i heq
    rw [h] at heq
    cases heq
    rfl
  · rename_i heq
    rw [h] at heq
    cases heq

@[simp] theorem tokenize_nil : tokenize [] = [] := by
  rw [tokenize]
  split
  · rename_i heq
    cases heq
  · rfl

section

variable {s : List Char} {c : Char}

theorem takeWhile_negations (hs : AreNegations s) (t : List Char) (hc : c ≠ Symbol.negation) :
    (s ++ c :: t).takeWhile (· = Symbol.negation) = s := by
  rw [List.takeWhile_append_of_pos fun c hc => decide_eq_true (hs c hc)]
  simp [hc]

theorem dropWhile_negations (hs : AreNegations s) (t : List Char) (hc : c ≠ Symbol.negation) :
    (s ++ c :: t).dropWhile (· = Symbol.negation) = c :: t := by
  rw [List.dropWhile_append_of_pos fun c hc => decide_eq_true (hs c hc)]
  simp [hc]

theorem tokenize_name (hs : AreNegations s) {name rest : List Char} (hne : name ≠ [])
    (hname : ∀ c ∈ name, isNameChar c) (hrest : EndsName rest) :
    tokenize (s ++ name ++ rest) = (s ++ name) :: tokenize rest := by
  obtain ⟨c, name, rfl⟩ := List.exists_cons_of_ne_nil hne
  have hc : isNameChar c := hname c List.mem_cons_self
  have hname : ∀ d ∈ name, isNameChar d := fun d hd => hname d (List.mem_cons_of_mem c hd)
  have hneg := ne_of_isNameChar hc isNameChar_negation
  have hopen := ne_of_isNameChar hc isNameChar_opening
  have hconst : isConstantChar c = false := by
    by_contra h
    rw [not_isNameChar_of_isConstantChar (by simpa using h)] at hc
    cases hc
  refine tokenize_of_firstToken? ?_
  rw [List.append_assoc, List.cons_append]
  simp only [firstToken?, takeWhile_negations hs _ hneg, dropWhile_negations hs _ hneg, hopen,
    hconst, hc, takeWhile_name hname hrest, dropWhile_name hname hrest]
  simp

/-- Negations also belong to an opening sign or a constant behind them. -/
theorem tokenize_negations (hs : AreNegations s) (rest : List Char)
    (hc : c = Symbol.opening ∨ isConstantChar c) :
    tokenize (s ++ c :: rest) = (s ++ [c]) :: tokenize rest := by
  have hneg : c ≠ Symbol.negation := by
    rintro rfl
    revert hc
    decide
  refine tokenize_of_firstToken? ?_
  simp only [firstToken?, takeWhile_negations hs _ hneg, dropWhile_negations hs _ hneg]
  rw [if_pos (by simpa using hc)]

end

/-- Constants, operators and closing signs are tokens of their own. -/
theorem tokenize_sign {c : Char} (rest : List Char)
    (hc : isConstantChar c ∨ isOperatorChar c ∨ c = Symbol.closing) :
    tokenize (c :: rest) = [c] :: tokenize rest := by
  refine tokenize_of_firstToken? ?_
  simp only [isConstantChar, isOperatorChar, Bool.or_eq_true, decide_eq_true_eq] at hc
  obtain (rfl | rfl) | (((rfl | rfl) | rfl) | rfl) | rfl := hc <;> rfl

theorem tokenize_operator {op : Operator} (rest : List Char) (hop : op.IsSetOperation) :
    tokenize (op.sign ++ rest) = op.sign :: tokenize rest := by
  cases op with
  | union | inter | diff | symmDiff => exact tokenize_sign rest (.inr (.inl (by decide)))
  | unknown => exact hop.elim

/-! ## The grammar of tokens -/

variable {α : Type*}

def withSign (U : Set α) (negated : Bool) (A : Set α) : Set α := if negated then U \ A else A

theorem withSign_diff {U A : Set α} (hA : A ⊆ U) (n : Nat) :
    withSign U (n % 2 = 1) (U \ A) = withSign U ((n + 1) % 2 = 1) A := by
  obtain h | h := Nat.mod_two_eq_zero_or_one n
  · have hsucc : (n + 1) % 2 = 1 := by omega
    simp [withSign, h, hsucc]
  · have hsucc : (n + 1) % 2 ≠ 1 := by omega
    simp [withSign, h, hsucc, Set.inter_eq_right.2 hA]

/-- The sets that lists of tokens stand for. Operands carry their negation, so no phrase is an
atom. -/
inductive Spells (U : Set α) (σ : String → Option (Set α)) : Phrase → List Token → Set α → Prop
  | run {ts : List Token} {A : Set α} : Spells U σ .run ts A → Spells U σ .expression ts A
  | join {ts us : List Token} {A B : Set α} {op : Operator} : op.IsSetOperation →
    op ≠ .symmDiff → Spells U σ .expression ts A → Spells U σ .run us B →
    Spells U σ .expression (ts ++ op.sign :: us) (op.onSets A B)
  | signed {ts : List Token} {A : Set α} : Spells U σ .signed ts A → Spells U σ .run ts A
  | symmDiff {ts us : List Token} {A B : Set α} : Spells U σ .run ts A → Spells U σ .signed us B →
    Spells U σ .run (ts ++ Operator.symmDiff.sign :: us) (Operator.symmDiff.onSets A B)
  | name {a : List Char} {A : Set α} (negated : Bool) : a ≠ [] → (∀ c ∈ a, isNameChar c) →
    σ (String.ofList a) = some A → Spells U σ .signed [signs negated ++ a] (withSign U negated A)
  | universal : Spells U σ .signed [[Symbol.universal]] U
  | null : Spells U σ .signed [[Symbol.null]] ∅
  | group {ts : List Token} {A : Set α} (negated : Bool) : Spells U σ .expression ts A →
    Spells U σ .signed ((signs negated ++ [Symbol.opening]) :: (ts ++ [[Symbol.closing]]))
      (withSign U negated A)

variable {U : Set α} {σ : String → Option (Set α)}

/-- The tokens of a text stand for a set, whatever comes behind the text. -/
def Lexes (U : Set α) (σ : String → Option (Set α)) (p : Phrase) (s : List Char) (A : Set α) :
    Prop :=
  ∃ ts, Spells U σ p ts A ∧ ∀ rest, EndsName rest →
    tokenize (resolveNegations s ++ rest) = ts ++ tokenize rest

/-- Signed operands and atoms also have tokens behind further negations. -/
def LexesAs (U : Set α) (σ : String → Option (Set α)) (s : List Char) (A : Set α) : Phrase → Prop
  | .expression => Lexes U σ .expression s A
  | .run => Lexes U σ .run s A
  | .signed | .atom => ∀ n, Lexes U σ .signed (List.replicate n Symbol.negation ++ s)
      (withSign U (n % 2 = 1) A)

theorem Derives.endsOperand {p : Phrase} {s : List Char} (h : Derives p s) : EndsOperand s := by
  have ht := h.isOperandText
  obtain ⟨c, hc⟩ := Option.isSome_iff_exists.1 (List.getLast?_isSome.2 ht.ne_nil)
  exact ⟨c, hc, ne_negation_of_isEndingChar (ht.last c hc)⟩

theorem endsName_operator {op : Operator} (rest : List Char) (hop : op.IsSetOperation) :
    EndsName (op.sign ++ rest) := by
  cases op with
  | union | inter | diff | symmDiff =>
    intro c hc
    cases hc
    decide
  | unknown => exact hop.elim

theorem Lexes.join {p q r : Phrase} {s u : List Char} {A B : Set α} (c : Connective)
    (hends : EndsOperand s)
    (hspells : ∀ ts us, Spells U σ p ts A → Spells U σ q us B →
      Spells U σ r (ts ++ c.operator.sign :: us) (c.operator.onSets A B))
    (hs : Lexes U σ p s A) (hu : Lexes U σ q u B) :
    Lexes U σ r (s ++ c.text ++ u) (c.operator.onSets A B) := by
  obtain ⟨ts, hts, htok⟩ := hs
  obtain ⟨us, hus, hutok⟩ := hu
  refine ⟨_, hspells ts us hts hus, fun rest hrest => ?_⟩
  have hop := c.isSetOperation_operator
  rw [List.append_assoc, resolveNegations_append _ hends, resolveNegations_connective,
    List.append_assoc, List.append_assoc, htok _ (endsName_operator _ hop),
    tokenize_operator _ hop, hutok rest hrest, List.append_assoc, List.cons_append]

theorem lexes_name {a : List Char} {A : Set α} (n : Nat) (hne : a ≠ [])
    (hname : ∀ c ∈ a, isNameChar c) (hσ : σ (String.ofList a) = some A) :
    Lexes U σ .signed (List.replicate n Symbol.negation ++ a) (withSign U (n % 2 = 1) A) := by
  refine ⟨_, .name _ hne hname hσ, fun rest hrest => ?_⟩
  obtain ⟨c, a, rfl⟩ := List.exists_cons_of_ne_nil hne
  have hrest' : resolveNegations a = a := by
    simpa [resolveNegations, replacements, replacePair] using
      resolveNegations_name [] fun d hd => hname d (List.mem_cons_of_mem c hd)
  rw [resolveNegations_replicate, resolveNegations_signs_cons _ _ (.inl (hname c (by simp))),
    hrest', tokenize_name (areNegations_signs _) hne hname hrest]
  rfl

/-- A negated constant is resolved in the text. -/
theorem lexes_constant {c c' : Char} {A : Set α} (n : Nat) (hc : isConstantChar c)
    (hc' : isConstantChar c') (hplain : resolveNegations [c] = [c])
    (hnegated : resolveNegations [Symbol.negation, c] = [c']) (hA : Spells U σ .signed [[c]] A)
    (hA' : Spells U σ .signed [[c']] (U \ A)) :
    Lexes U σ .signed (List.replicate n Symbol.negation ++ [c]) (withSign U (n % 2 = 1) A) := by
  rw [Lexes, resolveNegations_replicate]
  by_cases h : n % 2 = 1
  · refine ⟨[[c']], by simpa [withSign, h] using hA', fun rest _ => ?_⟩
    simpa [h, signs, hnegated] using tokenize_sign rest (.inl hc')
  · refine ⟨[[c]], by simpa [withSign, h] using hA, fun rest _ => ?_⟩
    simpa [h, signs, hplain] using tokenize_sign rest (.inl hc)

theorem lexes_group {e : List Char} {A : Set α} (n : Nat) (hends : EndsOperand e)
    (he : Lexes U σ .expression e A) : Lexes U σ .signed
      (List.replicate n Symbol.negation ++ Symbol.opening :: (e ++ [Symbol.closing]))
      (withSign U (n % 2 = 1) A) := by
  obtain ⟨ts, hts, htok⟩ := he
  refine ⟨_, .group _ hts, fun rest hrest => ?_⟩
  have hclosing : resolveNegations [Symbol.closing] = [Symbol.closing] := rfl
  have hends' : EndsName ([Symbol.closing] ++ rest) := fun c hc => by
    cases hc
    decide
  rw [resolveNegations_replicate, resolveNegations_signs_cons _ _ (.inr rfl),
    resolveNegations_append _ hends, hclosing, List.append_assoc, List.cons_append,
    tokenize_negations (areNegations_signs _) _ (.inl rfl), List.append_assoc, htok _ hends',
    List.singleton_append,
    tokenize_sign rest (.inr (.inr rfl))]
  simp

theorem Denotes.lexesAs (hσ : ∀ name A, σ name = some A → A ⊆ U) {p : Phrase} {s : List Char}
    {A : Set α} (h : Denotes U σ p s A) : LexesAs U σ s A p := by
  induction h with
  | run _ ih =>
    obtain ⟨ts, hts, htok⟩ := ih
    exact ⟨ts, .run hts, htok⟩
  | join c hc he _ ihe ihr =>
    have hop : c.operator ≠ .symmDiff := by
      cases c <;> simp [Connective.operator] at hc ⊢
    exact Lexes.join c he.derives.endsOperand
      (fun _ _ => .join c.isSetOperation_operator hop) ihe ihr
  | signed _ ih =>
    obtain ⟨ts, hts, htok⟩ := ih 0
    exact ⟨ts, .signed hts, htok⟩
  | symmDiff hr _ ihr ihu =>
    exact Lexes.join .symmDiff hr.derives.endsOperand (fun _ _ => .symmDiff) ihr (ihu 0)
  | atom _ ih => exact ih
  | negation hu ih =>
    intro n
    have h := ih (n + 1)
    rw [List.replicate_succ', List.append_assoc] at h
    rwa [withSign_diff (hu.subset hσ)]
  | name hne hname hA => exact fun n => lexes_name n hne hname hA
  | universal =>
    exact fun n =>
      lexes_constant n (by decide) (by decide) rfl rfl .universal (by simpa using .null)
  | null =>
    exact fun n =>
      lexes_constant n (by decide) (by decide) rfl rfl .null (by simpa using .universal)
  | group he ih => exact fun n => lexes_group n he.derives.endsOperand ih

/-! ## The outer group -/

theorem mem_of_mem_replacePair {a b c : Char} {new text : List Char}
    (h : c ∈ replacePair a b new text) : c ∈ new ∨ c ∈ text := by
  fun_induction replacePair a b new text with
  | case1 x y rest hxy ih =>
    obtain h | h := List.mem_append.1 h
    · exact .inl h
    · exact (ih h).imp_right fun h => by simp [h]
  | case2 x y rest hxy ih =>
    obtain rfl | h := List.mem_cons.1 h
    · exact .inr List.mem_cons_self
    · exact (ih h).imp_right (List.mem_cons_of_mem x)
  | case3 text hshort => exact .inr h

/-- Resolving negations makes no brackets. -/
theorem mem_of_mem_resolveNegations {c : Char} {text : List Char}
    (hc : c = Symbol.opening ∨ c = Symbol.closing) (h : c ∈ resolveNegations text) : c ∈ text := by
  have hrules : ∀ rule ∈ replacements, c ∉ rule.2.2 := by obtain rfl | rfl := hc <;> decide
  unfold resolveNegations at h
  generalize replacements = rules at h hrules
  induction rules generalizing text with
  | nil => exact h
  | cons rule rules ih =>
    have hmem := ih h fun r hr => hrules r (List.mem_cons_of_mem rule hr)
    exact (mem_of_mem_replacePair hmem).resolve_left (hrules rule List.mem_cons_self)

theorem EndsOperand.resolveNegations {text : List Char} (h : EndsOperand text) :
    EndsOperand (resolveNegations text) := by
  have hrules : ∀ rule ∈ replacements, ResolvesNegation rule := fun _ => resolvesNegation_of_mem
  unfold Equation.resolveNegations
  generalize replacements = rules at hrules
  induction rules generalizing text with
  | nil => exact h
  | cons rule rules ih =>
    obtain ⟨hneg, hrule⟩ := hrules rule List.mem_cons_self
    rw [List.foldl_cons, hneg]
    exact ih (h.replacePair hrule) fun r hr => hrules r (List.mem_cons_of_mem rule hr)

theorem EndsOperand.ne_nil {text : List Char} (h : EndsOperand text) : text ≠ [] := by
  rintro rfl
  obtain ⟨c, hc, -⟩ := h
  cases hc

theorem Derives.opening_mem {s : List Char} (h : Derives .expression s)
    (hs : Symbol.closing ∈ s) : Symbol.opening ∈ s := by
  have hcount := ((closes_iff 0 s).1 h.isWellFormed.closes).2
  have hpos := List.count_pos_iff.2 hs
  exact List.count_pos_iff.1 (by omega)

/-- Two operands that begin and end with brackets have two groups. -/
theorem two_le_count_opening {e u : List Char} (c : Connective) (he : Derives .expression e)
    (hu : Derives .expression u) (h : isEnclosed (resolveNegations (e ++ c.text ++ u))) :
    2 ≤ (e ++ c.text ++ u).count Symbol.opening := by
  have hre := he.endsOperand.resolveNegations.ne_nil
  have hru := hu.endsOperand.resolveNegations.ne_nil
  rw [List.append_assoc, resolveNegations_append _ he.endsOperand, resolveNegations_connective,
    isEnclosed, List.head?_append_of_ne_nil _ hre, ← List.append_assoc,
    List.getLast?_append_of_ne_nil _ hru] at h
  simp only [Bool.and_eq_true, decide_eq_true_eq] at h
  have hopen := mem_of_mem_resolveNegations (.inl rfl) (List.mem_of_mem_head? h.1)
  have hclose := mem_of_mem_resolveNegations (.inr rfl) (List.mem_of_mem_getLast? h.2)
  have hfirst := List.count_pos_iff.2 hopen
  have hlast := List.count_pos_iff.2 (hu.opening_mem hclose)
  simp only [List.count_append]
  omega

/-- An expression is a lone operand or has an operator outside of all groups. -/
theorem Denotes.lone_or_joined {s : List Char} {A : Set α} (h : Denotes U σ .expression s A) :
    Denotes U σ .signed s A ∨ ∃ e c u, s = e ++ Connective.text c ++ u ∧
      Derives .expression e ∧ Derives .expression u := by
  cases h with
  | run h =>
    cases h with
    | signed h => exact .inl h
    | symmDiff hr hu => exact .inr ⟨_, .symmDiff, _, rfl, hr.derives, .signed hu.derives⟩
  | join c hc he hr => exact .inr ⟨_, c, _, rfl, he.derives, hr.derives⟩

theorem Denotes.exists_atom (hσ : ∀ name A, σ name = some A → A ⊆ U) {p : Phrase} {s : List Char}
    {A : Set α} (h : Denotes U σ p s A) (hp : p = .signed) :
    ∃ n a B, s = List.replicate n Symbol.negation ++ a ∧ Denotes U σ .atom a B ∧
      A = withSign U (n % 2 = 1) B := by
  induction h with
  | atom ha _ => exact ⟨0, _, _, rfl, ha, rfl⟩
  | negation _ ih =>
    obtain ⟨n, a, B, rfl, ha, rfl⟩ := ih rfl
    refine ⟨n + 1, a, B, rfl, ha, ?_⟩
    rw [← withSign_diff (ha.subset hσ)]
    obtain h | h := Nat.mod_two_eq_zero_or_one n <;> simp [withSign, h]
  | run | join | signed | symmDiff | name | universal | null | group => cases hp

/-- A lone operand that begins and ends with brackets is a group with the set of its inside. -/
theorem Denotes.exists_group (hσ : ∀ name A, σ name = some A → A ⊆ U) {s : List Char} {A : Set α}
    (h : Denotes U σ .signed s A) (hs : isEnclosed (resolveNegations s)) :
    ∃ e, Denotes U σ .expression e A ∧
      resolveNegations s = Symbol.opening :: (resolveNegations e ++ [Symbol.closing]) := by
  obtain ⟨n, a, B, rfl, ha, rfl⟩ := h.exists_atom hσ rfl
  rw [resolveNegations_replicate] at hs ⊢
  simp only [isEnclosed, Bool.and_eq_true, decide_eq_true_eq] at hs
  have hne' : Symbol.negation ≠ Symbol.opening := by decide
  cases ha with
  | name hne hname =>
    obtain ⟨c, a, rfl⟩ := List.exists_cons_of_ne_nil hne
    have hc : isNameChar c := hname c List.mem_cons_self
    rw [resolveNegations_signs_cons _ _ (.inl hc)] at hs
    obtain h | h := Nat.mod_two_eq_zero_or_one n
    · exact absurd hs.1 (by simpa [h, signs] using ne_of_isNameChar hc isNameChar_opening)
    · exact absurd hs.1 (by simp [h, signs, hne'])
  | universal | null =>
    exfalso
    revert hs
    obtain h | h := Nat.mod_two_eq_zero_or_one n <;> rw [h] <;> decide
  | group he =>
    rw [resolveNegations_signs_cons _ _ (.inr rfl)] at hs ⊢
    obtain h | h := Nat.mod_two_eq_zero_or_one n
    · refine ⟨_, by simpa [withSign, h] using he, ?_⟩
      rw [resolveNegations_append _ he.derives.endsOperand]
      simp [h, signs, resolveNegations, replacements, replacePair]
    · exact absurd hs.1 (by simp [h, signs, hne'])

/-- The tokens of a simplified text stand for the set of the text. -/
theorem Denotes.spells (hσ : ∀ name A, σ name = some A → A ⊆ U) {s : List Char} {A : Set α}
    (h : Denotes U σ .expression s A) : Spells U σ .expression (tokenize (simplify s)) A := by
  have of_resolved : ∀ {e}, Denotes U σ .expression e A →
      Spells U σ .expression (tokenize (resolveNegations e)) A := fun he => by
    obtain ⟨ts, hts, htok⟩ := he.lexesAs hσ
    have hall := htok [] nofun
    rw [List.append_nil, tokenize_nil, List.append_nil] at hall
    rwa [hall]
  unfold simplify
  dsimp only
  split_ifs with hstrip
  · obtain ⟨hone, -, henclosed⟩ := hstrip
    obtain hs | ⟨e, c, u, rfl, he, hu⟩ := h.lone_or_joined
    · obtain ⟨e, he, heq⟩ := hs.exists_group hσ henclosed
      rw [heq, List.tail_cons, List.dropLast_concat]
      exact of_resolved he
    · have := two_le_count_opening c he hu henclosed
      omega
  · exact of_resolved h

end VoxelAlgebra.Equation
