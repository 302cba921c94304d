import Mathlib.Data.List.TakeWhile
import VoxelAlgebra.Proofs.Equation.Checks
import VoxelAlgebra.Proofs.Equation.Grammar

/-!
# The accepted equations

The checks look at characters, pairs of neighbours and the depth of brackets, one after the other.
Together they accept exactly the texts of the grammar. A well-formed text is read from the left: in
front of an operand it begins with a signed operand, and behind one it continues with an operator,
closes a group, or ends.

## Main definitions

* `Remains` — what the checks leave to be said of the rest of a text.
* `Continues` — the rest of a text behind an operand, by the grammar.
* `IsOperandText` — what the checks can say of the text of an operand.
* `validate_ok_iff_derives` — the accepted equations are the texts of the grammar.
-/

namespace VoxelAlgebra.Equation

/-! ## Rests of a text -/

/-- What the checks say of the rest of a text behind a piece of class `before`, when `depth` groups
are open. -/
structure Remains (before : Option TokenClass) (depth : Nat) (text : List Char) : Prop where
  characters : ∀ c ∈ text, isEquationChar c
  attachable : text.IsChain Attachable
  closes : Closes depth text
  ending : ∀ c ∈ text.getLast?, isEndingChar c
  fits : Fits before (kinds text)

def IsBehindOperand (before : Option TokenClass) : Prop :=
  before = some .operand ∨ before = some .closing

theorem mayFollow_behindOperand {before : Option TokenClass} {k : TokenClass}
    (hb : IsBehindOperand before) : mayFollow before k ↔ k = .operator ∨ k = .closing := by
  obtain rfl | rfl := hb <;> simp [mayFollow]

theorem mayFollow_inFrontOfOperand {before : Option TokenClass} {k : TokenClass}
    (hb : ¬ IsBehindOperand before) :
    mayFollow before k ↔ k = .operand ∨ k = .negation ∨ k = .opening := by
  unfold mayFollow
  split
  · exact absurd (.inl rfl) hb
  · exact absurd (.inr rfl) hb
  · simp [or_assoc]

theorem ending_tail {c : Char} {text : List Char}
    (h : ∀ d ∈ (c :: text).getLast?, isEndingChar d) : ∀ d ∈ text.getLast?, isEndingChar d := by
  cases text with
  | nil => nofun
  | cons d rest => simpa using h

/-- Behind a character that cannot end a text there is more of it. -/
theorem ne_nil_of_ending {c : Char} {text : List Char}
    (h : ∀ d ∈ (c :: text).getLast?, isEndingChar d) (hc : isEndingChar c = false) : text ≠ [] := by
  rintro rfl
  have := h c rfl
  rw [hc] at this
  cases this

namespace Remains

variable {before : Option TokenClass} {depth : Nat} {text : List Char}

/-- One character less, if depth and class are carried along. -/
theorem tail {c : Char} {k : TokenClass} {depth' : Nat} (h : Remains before depth (c :: text))
    (hcloses : Closes depth' text) (hkinds : kinds (c :: text) = k :: kinds text) :
    mayFollow before k ∧ Remains (some k) depth' text := by
  have hfits := h.fits
  rw [hkinds] at hfits
  exact ⟨hfits.1, fun d hd => h.characters d (List.mem_cons_of_mem c hd), h.attachable.tail,
    hcloses, ending_tail h.ending, hfits.2⟩

/-- A sign that is neither a bracket nor a negation leaves the depth as it is. -/
theorem tail_sign {c : Char} {k : TokenClass} (h : Remains before depth (c :: text))
    (hname : isNameChar c = false) (hk : classify [c] = k) (hne : k = .operand ∨ k = .operator) :
    mayFollow before k ∧ Remains (some k) depth text := by
  have ho : c ≠ Symbol.opening := by
    rintro rfl
    obtain rfl | rfl := hne <;> exact absurd hk (by decide)
  have hc : c ≠ Symbol.closing := by
    rintro rfl
    obtain rfl | rfl := hne <;> exact absurd hk (by decide)
  refine h.tail ((closes_cons depth text ho hc).1 h.closes) (kinds_sign text hname hk ?_)
  obtain rfl | rfl := hne <;> exact nofun

theorem tail_opening (h : Remains before depth (Symbol.opening :: text)) :
    mayFollow before .opening ∧ Remains (some .opening) (depth + 1) text :=
  h.tail h.closes (kinds_sign text (by decide) (by decide) nofun)

theorem tail_closing (h : Remains before depth (Symbol.closing :: text)) :
    mayFollow before .closing ∧ ∃ d, depth = d + 1 ∧ Remains (some .closing) d text := by
  cases depth with
  | zero => exact (closes_zero_closing text h.closes).elim
  | succ d =>
    have hkinds : kinds (Symbol.closing :: text) = .closing :: kinds text :=
      kinds_sign text (by decide) (by decide) nofun
    obtain ⟨hfollow, hrest⟩ := h.tail ((closes_succ_closing d text).1 h.closes) hkinds
    exact ⟨hfollow, d, rfl, hrest⟩

/-- A negation either belongs to the operator behind it or stands for itself. -/
theorem tail_negation (h : Remains before depth (Symbol.negation :: text)) :
    (∃ c rest, text = c :: rest ∧ (c = Symbol.union ∨ c = Symbol.inter) ∧
      mayFollow before .operator ∧ Remains (some .operator) depth rest) ∨
    (mayFollow before .negation ∧ Remains (some .negation) depth text) := by
  have hcloses : Closes depth text := (closes_cons depth text (by decide) (by decide)).1 h.closes
  by_cases hop : ∀ c ∈ text.head?, isOperatorChar c = false
  · exact .inr (h.tail hcloses (kinds_negation hop))
  · push Not at hop
    obtain ⟨c, hc, hop⟩ := hop
    obtain ⟨rest, rfl⟩ : ∃ rest, text = c :: rest := by
      cases text with
      | nil => cases hc
      | cons d rest => exact ⟨rest, by simpa using hc⟩
    have hop : isOperatorChar c := by simpa using hop
    have hattach := (List.isChain_cons_cons.1 h.attachable).1 rfl
    have hc : c = Symbol.union ∨ c = Symbol.inter := by
      simp only [isOperatorChar, Bool.or_eq_true, decide_eq_true_eq] at hop
      tauto
    have hfits := h.fits
    rw [kinds_negatedOperator rest hop] at hfits
    refine .inl ⟨c, rest, rfl, hc, hfits.1, fun d hd => h.characters d (by simp [hd]),
      h.attachable.tail.tail, ?_, ending_tail (ending_tail h.ending), hfits.2⟩
    refine (closes_cons depth rest ?_ ?_).1 hcloses <;> rintro rfl <;> exact absurd hop (by decide)

/-- A name leaves the text behind its last character. -/
theorem tail_name {c : Char} (h : Remains before depth (c :: text)) (hc : isNameChar c) :
    ∃ name rest, c :: text = name ++ rest ∧ name ≠ [] ∧ (∀ d ∈ name, isNameChar d) ∧
      mayFollow before .operand ∧ Remains (some .operand) depth rest := by
  let name := c :: text.takeWhile isNameChar
  let rest := text.dropWhile isNameChar
  have hsplit : c :: text = name ++ rest := by simp [name, rest]
  have hname : ∀ d ∈ name, isNameChar d := by
    intro d hd
    obtain rfl | hd := List.mem_cons.1 hd
    · exact hc
    · exact List.mem_takeWhile_imp hd
  have hend : EndsName rest := fun d hd => by
    have hnot := List.head?_dropWhile_not isNameChar text
    rwa [show (text.dropWhile isNameChar).head? = some d from hd] at hnot
  have hfits := h.fits
  rw [hsplit, kinds_name (by simp [name]) hname hend] at hfits
  refine ⟨name, rest, hsplit, by simp [name], hname, hfits.1, ?_, ?_, ?_, ?_, hfits.2⟩
  · exact fun d hd => h.characters d (by rw [hsplit]; exact List.mem_append_right _ hd)
  · have hchain := h.attachable
    rw [hsplit] at hchain
    exact hchain.right_of_append
  · have hcloses := h.closes
    rw [hsplit] at hcloses
    exact (closes_name depth rest hname).1 hcloses
  · intro d hd
    refine h.ending d ?_
    rw [hsplit, List.getLast?_append]
    simpa using Or.inl hd

end Remains

/-! ## Reading a well-formed text -/

/-- The rest of a text behind an operand, when `depth` groups are open. -/
inductive Continues : Nat → List Char → Prop
  | done : Continues 0 []
  | close {depth : Nat} {rest : List Char} :
    Continues depth rest → Continues (depth + 1) (Symbol.closing :: rest)
  | operator {depth : Nat} {u rest : List Char} (c : Connective) :
    Derives .signed u → Continues depth rest → Continues depth (c.text ++ u ++ rest)

/-- A text that extends every expression in front of it to an expression. -/
def Extends (text : List Char) : Prop :=
  ∀ e, Derives .expression e → Derives .expression (e ++ text)

theorem Extends.operator {u text : List Char} (c : Connective) (hu : Derives .signed u)
    (h : Extends text) : Extends (c.text ++ u ++ text) := by
  intro e he
  have := h _ (.join c he hu)
  simpa only [List.append_assoc] using this

/-- The innermost open group ends with the first closing sign that is not part of it. -/
theorem Continues.split {depth : Nat} {text : List Char} (h : Continues depth text) :
    (depth = 0 ∧ Extends text) ∨ ∃ d before rest, depth = d + 1 ∧
      text = before ++ Symbol.closing :: rest ∧ Extends before ∧ Continues d rest := by
  induction h with
  | done => exact .inl ⟨rfl, fun e he => by simpa using he⟩
  | @close depth rest hrest _ =>
    exact .inr ⟨depth, [], rest, rfl, rfl, fun e he => by simpa using he, hrest⟩
  | operator c hu _ ih =>
    obtain ⟨rfl, hext⟩ | ⟨d, before, rest, rfl, rfl, hext, hrest⟩ := ih
    · exact .inl ⟨rfl, hext.operator c hu⟩
    · exact .inr ⟨d, _, rest, rfl, by simp only [List.append_assoc], hext.operator c hu, hrest⟩

/-- What is read next of the rest of a well-formed text of at most `n` characters. -/
def Reads (n : Nat) : Prop :=
  (∀ before depth text, text.length ≤ n → ¬ IsBehindOperand before → text ≠ [] →
    Remains before depth text →
    ∃ u rest, text = u ++ rest ∧ Derives .signed u ∧ Continues depth rest) ∧
  ∀ before depth text, text.length ≤ n → IsBehindOperand before → Remains before depth text →
    Continues depth text

theorem continues_operator {n depth : Nat} {text : List Char} (c : Connective) (ih : Reads n)
    (hlen : text.length ≤ n) (hne : text ≠ []) (h : Remains (some .operator) depth text) :
    Continues depth (c.text ++ text) := by
  obtain ⟨u, rest, rfl, hu, hrest⟩ := ih.1 _ depth text hlen (by simp [IsBehindOperand]) hne h
  simpa only [List.append_assoc] using Continues.operator c hu hrest

theorem exists_connective {c : Char} (h : isOperatorChar c) : ∃ k : Connective, k.text = [c] := by
  simp only [isOperatorChar, Bool.or_eq_true, decide_eq_true_eq] at h
  obtain ((rfl | rfl) | rfl) | rfl := h
  exacts [⟨.union, rfl⟩, ⟨.inter, rfl⟩, ⟨.diff, rfl⟩, ⟨.symmDiff, rfl⟩]

theorem exists_negatedConnective {c : Char} (h : c = Symbol.union ∨ c = Symbol.inter) :
    ∃ k : Connective, k.text = [Symbol.negation, c] := by
  obtain rfl | rfl := h
  exacts [⟨.negatedUnion, rfl⟩, ⟨.negatedInter, rfl⟩]

/-- A signed operand is read from the front, up to the end of its name or group. -/
theorem Reads.signed {n : Nat} (ih : Reads n) {before : Option TokenClass} {depth : Nat} {c : Char}
    {text : List Char} (hlen : text.length ≤ n) (hb : ¬ IsBehindOperand before)
    (h : Remains before depth (c :: text)) :
    ∃ u rest, c :: text = u ++ rest ∧ Derives .signed u ∧ Continues depth rest := by
  obtain hc | hc | hc | rfl | rfl | rfl := isEquationChar_cases (h.characters c (by simp))
  · obtain ⟨name, rest, hsplit, hne, hname, -, hrest⟩ := h.tail_name hc
    have hlen' : rest.length ≤ n := by
      have hpos := List.length_pos_of_ne_nil hne
      have := congrArg List.length hsplit
      simp only [List.length_cons, List.length_append] at this
      omega
    exact ⟨name, rest, hsplit, .negations 0 (.name hne hname),
      ih.2 _ depth rest hlen' (.inl rfl) hrest⟩
  · obtain ⟨-, hrest⟩ := h.tail_sign (not_isNameChar_of_isConstantChar hc)
      (classify_constant hc) (.inl rfl)
    refine ⟨[c], text, rfl, .negations 0 ?_, ih.2 _ depth text hlen (.inl rfl) hrest⟩
    simp only [isConstantChar, Bool.or_eq_true, decide_eq_true_eq] at hc
    obtain rfl | rfl := hc
    exacts [.universal, .null]
  · have hfollow := (h.tail_sign (not_isNameChar_of_isOperatorChar hc)
      (classify_eq_operator_iff.2 hc) (.inr rfl)).1
    simp [mayFollow_inFrontOfOperand hb] at hfollow
  · obtain ⟨_, _, _, _, hfollow, _⟩ | ⟨-, hrest⟩ := h.tail_negation
    · simp [mayFollow_inFrontOfOperand hb] at hfollow
    · have hne := ne_nil_of_ending h.ending (by decide)
      obtain ⟨u, rest, rfl, hu, hcont⟩ :=
        ih.1 _ depth text hlen (by simp [IsBehindOperand]) hne hrest
      exact ⟨_, rest, rfl, hu.negate, hcont⟩
  · obtain ⟨-, hrest⟩ := h.tail_opening
    have hne := ne_nil_of_ending h.ending (by decide)
    obtain ⟨u, rest, rfl, hu, hcont⟩ :=
      ih.1 _ (depth + 1) text hlen (by simp [IsBehindOperand]) hne hrest
    obtain ⟨hdepth, -⟩ | ⟨d, inner, behind, hdepth, rfl, hext, hcont⟩ := hcont.split
    · cases hdepth
    · cases hdepth
      have hgroup := Derives.group (hext _ (.signed hu))
      exact ⟨_, behind, by simp, .negations 0 hgroup, hcont⟩
  · have hfollow := h.tail_closing.1
    simp [mayFollow_inFrontOfOperand hb] at hfollow

/-- Behind an operand a text ends, closes a group, or goes on with an operator. -/
theorem Reads.behind {n : Nat} (ih : Reads n) {before : Option TokenClass} {depth : Nat} {c : Char}
    {text : List Char} (hlen : text.length ≤ n) (hb : IsBehindOperand before)
    (h : Remains before depth (c :: text)) : Continues depth (c :: text) := by
  obtain hc | hc | hc | rfl | rfl | rfl := isEquationChar_cases (h.characters c (by simp))
  · obtain ⟨_, _, _, _, _, hfollow, _⟩ := h.tail_name hc
    simp [mayFollow_behindOperand hb] at hfollow
  · have hfollow := (h.tail_sign (not_isNameChar_of_isConstantChar hc)
      (classify_constant hc) (.inl rfl)).1
    simp [mayFollow_behindOperand hb] at hfollow
  · obtain ⟨-, hrest⟩ := h.tail_sign (not_isNameChar_of_isOperatorChar hc)
      (classify_eq_operator_iff.2 hc) (.inr rfl)
    have hne : text ≠ [] := ne_nil_of_ending h.ending (by simp [isEndingChar, hc])
    obtain ⟨k, hk⟩ := exists_connective hc
    simpa [hk] using continues_operator k ih hlen hne hrest
  · obtain ⟨d, rest, rfl, hd, -, hrest⟩ | ⟨hfollow, -⟩ := h.tail_negation
    · have hne : rest ≠ [] := by
        refine ne_nil_of_ending (ending_tail h.ending) ?_
        obtain rfl | rfl := hd <;> decide
      obtain ⟨k, hk⟩ := exists_negatedConnective hd
      simpa [hk] using continues_operator k ih (Nat.le_of_succ_le hlen) hne hrest
    · simp [mayFollow_behindOperand hb] at hfollow
  · have hfollow := h.tail_opening.1
    simp [mayFollow_behindOperand hb] at hfollow
  · obtain ⟨-, d, rfl, hrest⟩ := h.tail_closing
    exact .close (ih.2 _ d text hlen (.inr rfl) hrest)

theorem reads (n : Nat) : Reads n := by
  induction n with
  | zero =>
    refine ⟨fun _ _ text hlen _ hne => ?_, fun _ depth text hlen _ h => ?_⟩
    · exact absurd (List.length_eq_zero_iff.1 (Nat.le_zero.1 hlen)) hne
    · obtain rfl := List.length_eq_zero_iff.1 (Nat.le_zero.1 hlen)
      obtain rfl : depth = 0 := h.closes
      exact .done
  | succ n ih =>
    refine ⟨fun before depth text hlen hb hne h => ?_, fun before depth text hlen hb h => ?_⟩
    · obtain ⟨c, text, rfl⟩ := List.exists_cons_of_ne_nil hne
      exact ih.signed (Nat.le_of_succ_le_succ hlen) hb h
    · cases text with
      | nil =>
        obtain rfl : depth = 0 := h.closes
        exact .done
      | cons c text => exact ih.behind (Nat.le_of_succ_le_succ hlen) hb h

theorem IsWellFormed.derives {text : List Char} (h : IsWellFormed text) (hne : text ≠ []) :
    Derives .expression text := by
  have hremains : Remains none 0 text :=
    ⟨h.characters, h.attachable, h.closes, h.ending, h.fits⟩
  obtain ⟨u, rest, rfl, hu, hcont⟩ :=
    (reads text.length).1 none 0 text le_rfl (by simp [IsBehindOperand]) hne hremains
  obtain ⟨-, hext⟩ | ⟨d, _, _, hd, -⟩ := hcont.split
  · exact hext u (.signed hu)
  · cases hd

/-! ## Texts of the grammar pass the checks -/

/-- What the checks can say of the text of an operand, in whatever text it stands. -/
structure IsOperandText (text : List Char) : Prop where
  ne_nil : text ≠ []
  head : ∀ c ∈ text.head?, c ≠ Symbol.closing ∧ isOperatorChar c = false
  last : ∀ c ∈ text.getLast?, isEndingChar c
  characters : ∀ c ∈ text, isEquationChar c
  attachable : text.IsChain Attachable
  closes : ∀ depth rest, Closes depth (text ++ rest) ↔ Closes depth rest
  fits : ∀ before rest, ¬ IsBehindOperand before → EndsName rest →
    Fits (some .operand) (kinds rest) → Fits before (kinds (text ++ rest))

theorem isChain_attachable_of_notMem {text : List Char} (h : Symbol.negation ∉ text) :
    text.IsChain Attachable := by
  induction text with
  | nil => exact .nil
  | cons c text ih =>
    rw [List.mem_cons, not_or] at h
    exact (ih h.2).cons fun d _ hc => absurd hc.symm h.1

theorem kinds_connective (c : Connective) (text : List Char) :
    kinds (c.text ++ text) = .operator :: kinds text := by
  cases c with
  | union | inter | diff | symmDiff => exact kinds_sign text (by decide) (by decide) nofun
  | negatedUnion | negatedInter => exact kinds_negatedOperator text (by decide)

theorem closes_connective (c : Connective) (depth : Nat) (text : List Char) :
    Closes depth (c.text ++ text) ↔ Closes depth text := by
  cases c with
  | union | inter | diff | symmDiff => exact closes_cons depth text (by decide) (by decide)
  | negatedUnion | negatedInter =>
    exact (closes_cons depth _ (by decide) (by decide)).trans
      (closes_cons depth text (by decide) (by decide))

theorem ne_negation_of_isEndingChar {c : Char} (h : isEndingChar c) : c ≠ Symbol.negation := by
  rintro rfl
  exact absurd h (by decide)

theorem fits_closing_iff (ks : List TokenClass) :
    Fits (some .closing) ks ↔ Fits (some .operand) ks := by
  cases ks with
  | nil => rfl
  | cons k ks => exact Iff.rfl

theorem isChain_attachable_connective (c : Connective) {text : List Char}
    (h : text.IsChain Attachable) : (c.text ++ text).IsChain Attachable := by
  cases c with
  | union | inter | diff | symmDiff => exact h.cons fun _ _ hc => absurd hc (by decide)
  | negatedUnion | negatedInter =>
    refine List.IsChain.cons_cons ?_ (h.cons fun _ _ hc => absurd hc (by decide))
    exact fun _ => by decide

/-- Behind a character that can end a text every other text may stand. -/
theorem isChain_attachable_append {s t : List Char} (hs : s.IsChain Attachable)
    (ht : t.IsChain Attachable) (hlast : ∀ c ∈ s.getLast?, isEndingChar c) :
    (s ++ t).IsChain Attachable :=
  hs.append ht fun c hc _ _ h => absurd h (ne_negation_of_isEndingChar (hlast c hc))

namespace IsOperandText

theorem name {name : List Char} (hne : name ≠ []) (hname : ∀ c ∈ name, isNameChar c) :
    IsOperandText name where
  ne_nil := hne
  head c hc := by
    have := hname c (List.mem_of_mem_head? hc)
    exact ⟨ne_of_isNameChar this isNameChar_closing, not_isOperatorChar_of_isNameChar this⟩
  last c hc := by
    have := hname c (List.mem_of_mem_getLast? hc)
    simp [isEndingChar, ne_of_isNameChar this isNameChar_opening,
      ne_of_isNameChar this isNameChar_negation, not_isOperatorChar_of_isNameChar this]
  characters c hc := by simp [isEquationChar, hname c hc]
  attachable := isChain_attachable_of_notMem fun h => by simpa using hname _ h
  closes depth rest := closes_name depth rest hname
  fits before rest hb hrest hfits := by
    rw [kinds_name hne hname hrest]
    exact ⟨(mayFollow_inFrontOfOperand hb).2 (.inl rfl), hfits⟩

theorem constant {c : Char} (hc : c = Symbol.universal ∨ c = Symbol.null) :
    IsOperandText [c] where
  ne_nil := List.cons_ne_nil c []
  head d hd := by
    obtain rfl := Option.mem_some_iff.1 hd
    obtain rfl | rfl := hc <;> decide
  last d hd := by
    obtain rfl := Option.mem_some_iff.1 hd
    obtain rfl | rfl := hc <;> decide
  characters d hd := by
    obtain rfl := List.mem_singleton.1 hd
    obtain rfl | rfl := hc <;> decide
  attachable := .singleton c
  closes depth rest := by
    obtain rfl | rfl := hc <;> exact closes_cons depth rest (by decide) (by decide)
  fits before rest hb _ hfits := by
    have hkinds : kinds ([c] ++ rest) = .operand :: kinds rest := by
      obtain rfl | rfl := hc <;> exact kinds_sign rest (by decide) (by decide) nofun
    rw [hkinds]
    exact ⟨(mayFollow_inFrontOfOperand hb).2 (.inl rfl), hfits⟩

theorem negation {text : List Char} (h : IsOperandText text) :
    IsOperandText (Symbol.negation :: text) where
  ne_nil := List.cons_ne_nil _ _
  head := by simp; decide
  last c hc := h.last c (by rwa [List.getLast?_cons_of_ne_nil h.ne_nil] at hc)
  characters := by
    rintro c (_ | ⟨_, hc⟩)
    · decide
    · exact h.characters c hc
  attachable := h.attachable.cons fun c hc _ => by
    obtain ⟨hclosing, hop⟩ := h.head c hc
    refine ⟨hclosing, ?_, ?_⟩ <;> rintro rfl <;> exact absurd hop (by decide)
  closes depth rest :=
    (closes_cons depth (text ++ rest) (by decide) (by decide)).trans (h.closes depth rest)
  fits before rest hb hrest hfits := by
    have hhead : ∀ c ∈ (text ++ rest).head?, isOperatorChar c = false := by
      rw [List.head?_append_of_ne_nil _ h.ne_nil]
      exact fun c hc => (h.head c hc).2
    rw [List.cons_append, kinds_negation hhead]
    exact ⟨(mayFollow_inFrontOfOperand hb).2 (.inr (.inl rfl)),
      h.fits _ rest (by simp [IsBehindOperand]) hrest hfits⟩

theorem group {text : List Char} (h : IsOperandText text) :
    IsOperandText (Symbol.opening :: (text ++ [Symbol.closing])) where
  ne_nil := List.cons_ne_nil _ _
  head := by simp; decide
  last c hc := by
    rw [← List.cons_append, List.getLast?_concat, Option.mem_some_iff] at hc
    subst hc
    decide
  characters := by
    intro c hc
    simp only [List.mem_cons, List.mem_append, List.not_mem_nil, or_false] at hc
    obtain rfl | hc | rfl := hc
    · decide
    · exact h.characters c hc
    · decide
  attachable := (isChain_attachable_append h.attachable (.singleton _) h.last).cons
    fun _ _ hc => absurd hc (by decide)
  closes depth rest := by
    rw [List.cons_append, closes_opening, List.append_assoc, h.closes]
    exact closes_succ_closing depth rest
  fits before rest hb hrest hfits := by
    have hclosing : kinds ([Symbol.closing] ++ rest) = .closing :: kinds rest :=
      kinds_sign rest (by decide) (by decide) nofun
    have hopening : kinds (Symbol.opening :: (text ++ ([Symbol.closing] ++ rest))) =
        .opening :: kinds (text ++ ([Symbol.closing] ++ rest)) :=
      kinds_sign _ (by decide) (by decide) nofun
    rw [List.cons_append, List.append_assoc, hopening]
    refine ⟨(mayFollow_inFrontOfOperand hb).2 (.inr (.inr rfl)), ?_⟩
    refine h.fits _ _ (by simp [IsBehindOperand]) (by simp [EndsName]) ?_
    rw [hclosing]
    exact ⟨rfl, (fits_closing_iff _).2 hfits⟩

theorem join {e u : List Char} (c : Connective) (he : IsOperandText e) (hu : IsOperandText u) :
    IsOperandText (e ++ c.text ++ u) where
  ne_nil := by simp [he.ne_nil]
  head := by
    rw [List.append_assoc, List.head?_append_of_ne_nil _ he.ne_nil]
    exact he.head
  last := by
    rw [List.getLast?_append_of_ne_nil _ hu.ne_nil]
    exact hu.last
  characters := by
    intro d hd
    simp only [List.mem_append] at hd
    obtain (hd | hd) | hd := hd
    · exact he.characters d hd
    · have hall : c.text.all isEquationChar := by cases c <;> rfl
      exact List.all_eq_true.1 hall d hd
    · exact hu.characters d hd
  attachable := by
    rw [List.append_assoc]
    exact isChain_attachable_append he.attachable (isChain_attachable_connective c hu.attachable)
      he.last
  closes depth rest := by
    rw [List.append_assoc, List.append_assoc, he.closes, closes_connective, hu.closes]
  fits before rest hb hrest hfits := by
    rw [List.append_assoc, List.append_assoc]
    refine he.fits before _ hb ?_ ?_
    · cases c <;> simp [EndsName, Connective.text] <;> decide
    · rw [kinds_connective]
      exact ⟨rfl, hu.fits _ rest (by simp [IsBehindOperand]) hrest hfits⟩

end IsOperandText

theorem Derives.isOperandText {p : Phrase} {text : List Char} (h : Derives p text) :
    IsOperandText text := by
  induction h with
  | signed _ ih => exact ih
  | join c _ _ ihe ihu => exact ihe.join c ihu
  | negations n _ ih =>
    induction n with
    | zero => exact ih
    | succ n ihn => exact ihn.negation
  | name hne hname => exact .name hne hname
  | universal => exact .constant (.inl rfl)
  | null => exact .constant (.inr rfl)
  | group _ ih => exact ih.group

theorem Derives.isWellFormed {text : List Char} (h : Derives .expression text) :
    IsWellFormed text := by
  have ht := h.isOperandText
  have hcloses := (ht.closes 0 []).2 rfl
  have hfits := ht.fits none [] (by simp [IsBehindOperand]) nofun (by simp [Fits])
  rw [List.append_nil] at hcloses hfits
  exact ⟨ht.characters, ht.attachable, hcloses, ht.last, hfits⟩

/-! ## Texts without blanks -/

theorem isBlank_eq_false_of_isEquationChar {c : Char} (h : isEquationChar c) :
    Text.isBlank c = false := by
  obtain hc | hc | hc | rfl | rfl | rfl := isEquationChar_cases h
  · simp only [isNameChar, Bool.or_eq_true, Bool.and_eq_true, decide_eq_true_eq, Char.le_def,
      UInt32.le_iff_toNat_le] at hc
    simp only [Text.isBlank, Text.blankRanges, List.any_cons, List.any_nil, Bool.or_false,
      Bool.or_eq_false_iff, Bool.and_eq_false_iff, decide_eq_false_iff_not, Char.toNat]
    have hA : 'A'.val.toNat = 65 := rfl
    have hZ : 'Z'.val.toNat = 90 := rfl
    have ha : 'a'.val.toNat = 97 := rfl
    have hz : 'z'.val.toNat = 122 := rfl
    have h0 : '0'.val.toNat = 48 := rfl
    have h9 : '9'.val.toNat = 57 := rfl
    omega
  · simp only [isConstantChar, Bool.or_eq_true, decide_eq_true_eq] at hc
    obtain rfl | rfl := hc <;> decide
  · simp only [isOperatorChar, Bool.or_eq_true, decide_eq_true_eq] at hc
    obtain ((rfl | rfl) | rfl) | rfl := hc <;> decide
  all_goals decide

/-- The texts of the grammar have no blanks. -/
theorem Derives.dropBlanks {p : Phrase} {text : List Char} (h : Derives p text) :
    Text.dropBlanks text = text :=
  List.filter_eq_self.2 fun c hc => by
    simp [isBlank_eq_false_of_isEquationChar (h.isOperandText.characters c hc)]

/-! ## The accepted equations -/

theorem isWellFormed_iff (text : List Char) :
    IsWellFormed text ↔ text = [] ∨ Derives .expression text := by
  refine ⟨fun h => ?_, ?_⟩
  · by_cases hne : text = []
    · exact .inl hne
    · exact .inr (h.derives hne)
  · rintro (rfl | h)
    · exact ⟨nofun, .nil, rfl, nofun, by simp [Fits]⟩
    · exact h.isWellFormed

/-- Only the checks can refuse an equation. -/
theorem validate_eq (equation : List Char) : validate equation =
    (check (Text.dropBlanks equation)).map fun _ =>
      tokenize (simplify (Text.dropBlanks equation)) :=
  rfl

/-- An accepted equation leaves the tokens of its simplified text. -/
theorem validate_eq_ok {equation : List Char} {tokens : List Token} :
    validate equation = .ok tokens ↔
      (Text.dropBlanks equation = [] ∨ Derives .expression (Text.dropBlanks equation)) ∧
        tokens = tokenize (simplify (Text.dropBlanks equation)) := by
  rw [← isWellFormed_iff, validate_eq]
  obtain ⟨hwell, hcheck⟩ | ⟨hwell, r, -, hcheck⟩ := check_decides (Text.dropBlanks equation)
  · rw [hcheck]
    refine ⟨fun h => ⟨hwell, ?_⟩, fun h => ?_⟩
    · cases h
      rfl
    · rw [h.2]
      rfl
  · rw [hcheck]
    exact ⟨nofun, fun h => absurd h.1 hwell⟩

/-- Without its blanks, an accepted equation is empty or an expression of the grammar. Every other
equation is refused with a report on its form that points into the text without blanks. -/
theorem validate_ok_iff_derives (equation : List Char) :
    ((∃ tokens, validate equation = .ok tokens) ↔
      Text.dropBlanks equation = [] ∨ Derives .expression (Text.dropBlanks equation)) ∧
    ∀ fault, validate equation = .error fault →
      ∃ r : Report, fault = .report r ∧ r.PointsInto (Text.dropBlanks equation) := by
  refine ⟨⟨?_, fun h => ⟨_, validate_eq_ok.2 ⟨h, rfl⟩⟩⟩, fun fault hfault => ?_⟩
  · rintro ⟨tokens, h⟩
    exact (validate_eq_ok.1 h).1
  · obtain ⟨-, hcheck⟩ | ⟨-, r, hr, hcheck⟩ := check_decides (Text.dropBlanks equation)
    · rw [validate_eq, hcheck] at hfault
      cases hfault
    · rw [validate_eq, hcheck] at hfault
      cases hfault
      exact ⟨r, rfl, hr⟩

end VoxelAlgebra.Equation
