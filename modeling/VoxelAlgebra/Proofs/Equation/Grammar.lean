import Mathlib.Order.BooleanAlgebra.Set
import VoxelAlgebra.Equation.Symbol

/-!
# The grammar of equations

Two readings of the same texts. `Derives` is the bare grammar with all operators on one level.
`Denotes` gives a text the set that it stands for, so there the operators have their levels: `!`
binds tightest, then `⊕`, then `-`, `∩` and `∪`, and operators of one level associate to the left.

## Main definitions

* `Connective` — the spellings of the operators between two operands.
* `Derives`, `IsName` — the texts of expressions, signed operands and atoms, and of names.
* `HasName` — the names that occur in a text.
* `Operator.onSets`, `Denotes` — set operations, and the sets that texts stand for.
* `Derives.exists_denotes`, `Denotes.derives` — the two readings have the same texts.
-/

namespace VoxelAlgebra.Equation

/-- The spellings of an operator between two operands. A negation in front of a union or
intersection sign turns it into the other one. -/
inductive Connective where
  | union
  | inter
  | diff
  | symmDiff
  | negatedUnion
  | negatedInter
  deriving DecidableEq, Repr

namespace Connective

def text : Connective → List Char
  | union => [Symbol.union]
  | inter => [Symbol.inter]
  | diff => [Symbol.diff]
  | symmDiff => [Symbol.symmDiff]
  | negatedUnion => [Symbol.negation, Symbol.union]
  | negatedInter => [Symbol.negation, Symbol.inter]

def operator : Connective → Operator
  | union | negatedInter => .union
  | inter | negatedUnion => .inter
  | diff => .diff
  | symmDiff => .symmDiff

theorem isSetOperation_operator (c : Connective) : c.operator.IsSetOperation := by
  cases c <;> trivial

end Connective

/-! ## Texts -/

/-- What a text can be. A `run` is a chain of operands that are joined by `⊕` only. -/
inductive Phrase where
  | expression
  | run
  | signed
  | atom
  deriving DecidableEq, Repr

/-- Expressions are signed operands joined by operators, a signed operand is an atom behind any
number of negations, and an atom is a name, a constant or an expression in brackets. The neighbours
of a name are never name characters, so its run of them is maximal. -/
inductive Derives : Phrase → List Char → Prop
  | signed {u : List Char} : Derives .signed u → Derives .expression u
  | join {e u : List Char} (c : Connective) :
    Derives .expression e → Derives .signed u → Derives .expression (e ++ c.text ++ u)
  | negations {a : List Char} (n : Nat) :
    Derives .atom a → Derives .signed (List.replicate n Symbol.negation ++ a)
  | name {a : List Char} : a ≠ [] → (∀ c ∈ a, isNameChar c) → Derives .atom a
  | universal : Derives .atom [Symbol.universal]
  | null : Derives .atom [Symbol.null]
  | group {e : List Char} :
    Derives .expression e → Derives .atom (Symbol.opening :: (e ++ [Symbol.closing]))

def IsName (name : String) : Prop := name ≠ "" ∧ ∀ c ∈ name.toList, isNameChar c

theorem IsName.toList_ne_nil {name : String} (h : IsName name) : name.toList ≠ [] := by
  simpa using h.1

/-- A name occurs in a text as a maximal run of name characters. -/
def HasName (text : List Char) (name : String) : Prop :=
  IsName name ∧ ∃ before after, text = before ++ name.toList ++ after ∧
    (∀ c ∈ before.getLast?, isNameChar c = false) ∧ ∀ c ∈ after.head?, isNameChar c = false

namespace HasName

variable {text : List Char} {name : String}

theorem of_name {a : List Char} (hne : a ≠ []) (hname : ∀ c ∈ a, isNameChar c) :
    HasName a (String.ofList a) :=
  ⟨⟨by simpa using hne, by simpa using hname⟩, [], [], by simp, nofun, nofun⟩

/-- A name also occurs in a longer text if no name characters come next to it. -/
theorem surround (h : HasName text name) {l r : List Char}
    (hl : ∀ c ∈ l.getLast?, isNameChar c = false) (hr : ∀ c ∈ r.head?, isNameChar c = false) :
    HasName (l ++ text ++ r) name := by
  obtain ⟨hname, before, after, rfl, hbefore, hafter⟩ := h
  refine ⟨hname, l ++ before, after ++ r, by simp only [List.append_assoc], ?_, ?_⟩
  · rw [List.getLast?_append]
    cases hb : before.getLast? with
    | none => exact hl
    | some c =>
      rw [hb] at hbefore
      exact hbefore
  · cases after with
    | nil => exact hr
    | cons c after => exact hafter

theorem append_connective (h : HasName text name) (c : Connective) (u : List Char) :
    HasName (text ++ c.text ++ u) name := by
  have hr : ∀ d ∈ (c.text ++ u).head?, isNameChar d = false := by
    cases c <;> simp [Connective.text] <;> decide
  simpa using h.surround (l := []) nofun hr

theorem connective_append (h : HasName text name) (e : List Char) (c : Connective) :
    HasName (e ++ c.text ++ text) name := by
  have hl : ∀ d ∈ (e ++ c.text).getLast?, isNameChar d = false := by
    cases c <;> simp [Connective.text] <;> decide
  simpa using h.surround hl (r := []) nofun

theorem negations (h : HasName text name) (n : Nat) :
    HasName (List.replicate n Symbol.negation ++ text) name := by
  have hl : ∀ d ∈ (List.replicate n Symbol.negation).getLast?, isNameChar d = false := by
    intro d hd
    rw [List.eq_of_mem_replicate (List.mem_of_mem_getLast? hd)]
    decide
  simpa using h.surround hl (r := []) nofun

theorem group (h : HasName text name) :
    HasName (Symbol.opening :: (text ++ [Symbol.closing])) name := by
  have hl : ∀ d ∈ [Symbol.opening].getLast?, isNameChar d = false := by simp; decide
  have hr : ∀ d ∈ [Symbol.closing].head?, isNameChar d = false := by simp; decide
  simpa using h.surround hl hr

end HasName

theorem Derives.negate {u : List Char} (h : Derives .signed u) :
    Derives .signed (Symbol.negation :: u) := by
  cases h with
  | negations n ha => exact .negations (n + 1) ha

/-! ## Sets -/

variable {α : Type*}

/-- The set operation of an operator; a sign without a meaning gives no elements. -/
def Operator.onSets : Operator → Set α → Set α → Set α
  | .union, A, B => A ∪ B
  | .inter, A, B => A ∩ B
  | .diff, A, B => A \ B
  | .symmDiff, A, B => (A \ B) ∪ (B \ A)
  | .unknown _, _, _ => ∅

theorem Operator.onSets_subset {U A B : Set α} (op : Operator) (hA : A ⊆ U) (hB : B ⊆ U) :
    op.onSets A B ⊆ U := by
  cases op with
  | union => exact Set.union_subset hA hB
  | inter => exact fun x hx => hA hx.1
  | diff => exact fun x hx => hA hx.1
  | symmDiff =>
    rintro x (hx | hx)
    · exact hA hx.1
    · exact hB hx.1
  | unknown sign => exact Set.empty_subset U

/-- The sets that texts stand for, where names stand for the sets that `σ` gives them and a
negation is the complement in `U`. -/
inductive Denotes (U : Set α) (σ : String → Option (Set α)) : Phrase → List Char → Set α → Prop
  | run {r : List Char} {A : Set α} : Denotes U σ .run r A → Denotes U σ .expression r A
  | join {e r : List Char} {A B : Set α} (c : Connective) : c ≠ .symmDiff →
    Denotes U σ .expression e A → Denotes U σ .run r B →
    Denotes U σ .expression (e ++ c.text ++ r) (c.operator.onSets A B)
  | signed {u : List Char} {A : Set α} : Denotes U σ .signed u A → Denotes U σ .run u A
  | symmDiff {r u : List Char} {A B : Set α} : Denotes U σ .run r A → Denotes U σ .signed u B →
    Denotes U σ .run (r ++ Connective.symmDiff.text ++ u) (Operator.symmDiff.onSets A B)
  | atom {a : List Char} {A : Set α} : Denotes U σ .atom a A → Denotes U σ .signed a A
  | negation {u : List Char} {A : Set α} : Denotes U σ .signed u A →
    Denotes U σ .signed (Symbol.negation :: u) (U \ A)
  | name {a : List Char} {A : Set α} : a ≠ [] → (∀ c ∈ a, isNameChar c) →
    σ (String.ofList a) = some A → Denotes U σ .atom a A
  | universal : Denotes U σ .atom [Symbol.universal] U
  | null : Denotes U σ .atom [Symbol.null] ∅
  | group {e : List Char} {A : Set α} : Denotes U σ .expression e A →
    Denotes U σ .atom (Symbol.opening :: (e ++ [Symbol.closing])) A

/-- The bare grammar has no phrase for runs. -/
def Phrase.withoutRuns : Phrase → Phrase
  | run => expression
  | p => p

section

variable {U : Set α} {σ : String → Option (Set α)}

/-- The operands of a run can be appended to an expression one by one. -/
theorem Denotes.derives_and_join {p : Phrase} {s : List Char} {A : Set α}
    (h : Denotes U σ p s A) : Derives p.withoutRuns s ∧
      (p = .run →
        ∀ e c, Derives .expression e → Derives .expression (e ++ Connective.text c ++ s)) := by
  induction h with
  | run _ ih => exact ⟨ih.1, nofun⟩
  | join c _ _ _ ihe ihr => exact ⟨ihr.2 rfl _ c ihe.1, nofun⟩
  | signed _ ih => exact ⟨.signed ih.1, fun _ _ c he => .join c he ih.1⟩
  | symmDiff _ _ ihr ihu =>
    refine ⟨.join .symmDiff ihr.1 ihu.1, fun _ e c he => ?_⟩
    have h := Derives.join .symmDiff (ihr.2 rfl e c he) ihu.1
    simpa only [List.append_assoc] using h
  | atom _ ih => exact ⟨.negations 0 ih.1, nofun⟩
  | negation _ ih => exact ⟨ih.1.negate, nofun⟩
  | name hne hname _ => exact ⟨.name hne hname, nofun⟩
  | universal => exact ⟨.universal, nofun⟩
  | null => exact ⟨.null, nofun⟩
  | group _ ih => exact ⟨.group ih.1, nofun⟩

theorem IsName.denotes {name : String} {A : Set α} (h : IsName name) (hA : σ name = some A) :
    Denotes U σ .signed name.toList A :=
  .atom (.name h.toList_ne_nil h.2 (by rwa [String.ofList_toList]))

theorem Denotes.derives {p : Phrase} {s : List Char} {A : Set α} (h : Denotes U σ p s A) :
    Derives p.withoutRuns s :=
  h.derives_and_join.1

theorem Denotes.subset (hσ : ∀ name A, σ name = some A → A ⊆ U) {p : Phrase} {s : List Char}
    {A : Set α} (h : Denotes U σ p s A) : A ⊆ U := by
  induction h with
  | run _ ih | signed _ ih | atom _ ih | group _ ih => exact ih
  | join c _ _ _ ihe ihr => exact c.operator.onSets_subset ihe ihr
  | symmDiff _ _ ihr ihu => exact Operator.symmDiff.onSets_subset ihr ihu
  | negation _ _ => exact Set.sdiff_subset
  | name _ _ h => exact hσ _ _ h
  | universal => exact subset_rfl
  | null => exact Set.empty_subset U

/-- A further operand behind `⊕` belongs to the last run of an expression. -/
theorem Denotes.exists_symmDiff {e u : List Char} {A B : Set α}
    (he : Denotes U σ .expression e A) (hu : Denotes U σ .signed u B) :
    ∃ C, Denotes U σ .expression (e ++ Connective.symmDiff.text ++ u) C := by
  cases he with
  | run hr => exact ⟨_, .run (.symmDiff hr hu)⟩
  | @join e r _ _ c hc he hr =>
    have h := Denotes.join c hc he (.symmDiff hr hu)
    exact ⟨_, by simpa only [List.append_assoc] using h⟩

/-- Where the names of a text of the grammar stand for sets, the text does. -/
theorem Derives.exists_denotes_of_names {p : Phrase} {s : List Char} (h : Derives p s)
    (hσ : ∀ name, HasName s name → ∃ A, σ name = some A) : ∃ A, Denotes U σ p s A := by
  induction h with
  | signed _ ih =>
    obtain ⟨A, hA⟩ := ih hσ
    exact ⟨A, .run (.signed hA)⟩
  | @join e u c _ _ ihe ihu =>
    obtain ⟨A, hA⟩ := ihe fun name hname => hσ name (hname.append_connective c u)
    obtain ⟨B, hB⟩ := ihu fun name hname => hσ name (hname.connective_append e c)
    by_cases hc : c = .symmDiff
    · subst hc
      exact hA.exists_symmDiff hB
    · exact ⟨_, .join c hc hA (.signed hB)⟩
  | @negations a n _ ih =>
    obtain ⟨A, hA⟩ := ih fun name hname => hσ name (hname.negations n)
    clear hσ
    induction n with
    | zero => exact ⟨A, .atom hA⟩
    | succ n ih =>
      obtain ⟨B, hB⟩ := ih
      exact ⟨_, .negation hB⟩
  | @name a hne hname =>
    obtain ⟨A, hA⟩ := hσ (String.ofList a) (.of_name hne hname)
    exact ⟨A, .name hne hname hA⟩
  | universal => exact ⟨U, .universal⟩
  | null => exact ⟨∅, .null⟩
  | group _ ih =>
    obtain ⟨A, hA⟩ := ih fun name hname => hσ name hname.group
    exact ⟨A, .group hA⟩

/-- Where every name stands for a set, every text of the grammar does. -/
theorem Derives.exists_denotes (hσ : ∀ name, ∃ A, σ name = some A) {p : Phrase} {s : List Char}
    (h : Derives p s) : ∃ A, Denotes U σ p s A :=
  h.exists_denotes_of_names fun name _ => hσ name

end

end VoxelAlgebra.Equation
