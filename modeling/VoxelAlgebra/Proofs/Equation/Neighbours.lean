import Mathlib.Data.List.Chain
import Mathlib.Data.List.Induction
import Mathlib.Tactic.Tauto
import VoxelAlgebra.Equation.Validation

/-!
# Neighbours in a text

What the checks of an equation say about the characters of its text, freed of columns. The classes
of the pieces of a text are read off one piece at a time, and the checks on pairs, brackets and
endings are turned into statements that go along with concatenation.

## Main definitions

* `kinds` — the classes of the pieces of a text, with attached negations.
* `Fits` — a list of classes in which every neighbour may follow the one before it.
* `Closes` — a text in which brackets match, when some groups are open already.
* `Attachable` — neighbours that a negation can have.
-/

namespace VoxelAlgebra.Equation

/-! ## Characters -/

theorem isEquationChar_cases {c : Char} (h : isEquationChar c) :
    isNameChar c ∨ isConstantChar c ∨ isOperatorChar c ∨ c = Symbol.negation ∨
      c = Symbol.opening ∨ c = Symbol.closing := by
  simpa [isEquationChar, or_assoc] using h

/-- The classes of characters exclude each other. -/
theorem not_isNameChar_of_isConstantChar {c : Char} (h : isConstantChar c) :
    isNameChar c = false := by
  simp only [isConstantChar, Bool.or_eq_true, decide_eq_true_eq] at h
  obtain rfl | rfl := h <;> decide

theorem not_isNameChar_of_isOperatorChar {c : Char} (h : isOperatorChar c) :
    isNameChar c = false := by
  simp only [isOperatorChar, Bool.or_eq_true, decide_eq_true_eq] at h
  obtain ((rfl | rfl) | rfl) | rfl := h <;> decide

theorem not_isOperatorChar_of_isNameChar {c : Char} (h : isNameChar c) :
    isOperatorChar c = false := by
  cases hc : isOperatorChar c
  · rfl
  · rw [not_isNameChar_of_isOperatorChar hc] at h
    cases h

@[simp] theorem isNameChar_negation : isNameChar Symbol.negation = false := by decide
@[simp] theorem isNameChar_opening : isNameChar Symbol.opening = false := by decide
@[simp] theorem isNameChar_closing : isNameChar Symbol.closing = false := by decide

theorem ne_of_isNameChar {c d : Char} (h : isNameChar c) (hd : isNameChar d = false) : c ≠ d := by
  rintro rfl
  rw [hd] at h
  cases h

/-! ## Classes of pieces -/

def attachKinds : List TokenClass → List TokenClass
  | .negation :: .operator :: rest => .operator :: attachKinds rest
  | k :: rest => k :: attachKinds rest
  | [] => []

theorem attachKinds_cons {k : TokenClass} {ks : List TokenClass}
    (h : k = .negation → ks.head? ≠ some .operator) :
    attachKinds (k :: ks) = k :: attachKinds ks := by
  cases k <;> cases ks with
  | nil => rfl
  | cons k' ks => cases k' <;> first | rfl | exact absurd rfl (h rfl)

theorem map_kind_attachNegations (ps : List Piece) :
    (attachNegations ps).map Piece.kind = attachKinds (ps.map Piece.kind) := by
  fun_induction attachNegations ps with
  | case1 p q rest h ih => simp [attachKinds, h.1, h.2, ih]
  | case2 p q rest h ih =>
    rw [List.map_cons, ih]
    exact (attachKinds_cons fun hp hq => h ⟨hp, by simpa using hq⟩).symm
  | case3 short h =>
    match short, h with
    | [], _ => rfl
    | [p], _ => exact (@attachKinds_cons _ [] fun _ => nofun).symm
    | p :: q :: rest, h => exact absurd rfl (h p q rest)

def EndsName (text : List Char) : Prop := ∀ c ∈ text.head?, isNameChar c = false

theorem takeWhile_name {name text : List Char} (hname : ∀ c ∈ name, isNameChar c)
    (htext : EndsName text) : (name ++ text).takeWhile isNameChar = name := by
  rw [List.takeWhile_append_of_pos hname]
  cases text with
  | nil => simp
  | cons c rest => simp [htext c rfl]

theorem dropWhile_name {name text : List Char} (hname : ∀ c ∈ name, isNameChar c)
    (htext : EndsName text) : (name ++ text).dropWhile isNameChar = text := by
  rw [List.dropWhile_append_of_pos hname]
  cases text with
  | nil => simp
  | cons c rest => simp [htext c rfl]

/-- Classes do not depend on the column at which a text begins. -/
theorem map_kind_rawPieces (column column' : Nat) (text : List Char) :
    (rawPieces column text).map Piece.kind = (rawPieces column' text).map Piece.kind := by
  fun_induction rawPieces column text generalizing column' with
  | case1 => simp [rawPieces]
  | case2 column c rest hc name ih =>
    rw [rawPieces.eq_def column']
    simpa [hc] using ih _
  | case3 column c rest hc ih =>
    rw [rawPieces.eq_def column']
    simpa [hc] using ih _

def rawKinds (text : List Char) : List TokenClass := (rawPieces 0 text).map Piece.kind

theorem rawKinds_name {name text : List Char} (hne : name ≠ []) (hname : ∀ c ∈ name, isNameChar c)
    (htext : EndsName text) : rawKinds (name ++ text) = .operand :: rawKinds text := by
  obtain ⟨c, name, rfl⟩ := List.exists_cons_of_ne_nil hne
  have hrest : ∀ d ∈ name, isNameChar d := fun d hd => hname d (by simp [hd])
  rw [List.cons_append, rawKinds, rawPieces]
  simp only [hname c (by simp), if_true, takeWhile_name hrest htext, dropWhile_name hrest htext,
    List.map_cons]
  rw [map_kind_rawPieces _ 0]
  rfl

theorem rawKinds_cons {c : Char} (text : List Char) (hc : isNameChar c = false) :
    rawKinds (c :: text) = classify [c] :: rawKinds text := by
  rw [rawKinds, rawPieces]
  simp only [hc, Bool.false_eq_true, if_false, List.map_cons]
  rw [map_kind_rawPieces _ 0]
  rfl

def kinds (text : List Char) : List TokenClass := attachKinds (rawKinds text)

theorem map_kind_pieces (text : List Char) : (pieces text).map Piece.kind = kinds text :=
  map_kind_attachNegations _

@[simp] theorem kinds_nil : kinds [] = [] := by simp [kinds, rawKinds, rawPieces, attachKinds]

theorem classify_eq_operator_iff {c : Char} : classify [c] = .operator ↔ isOperatorChar c := by
  unfold classify Operator.ofSign? isOperatorChar
  split_ifs <;> simp_all

theorem classify_constant {c : Char} (h : isConstantChar c) : classify [c] = .operand := by
  simp only [isConstantChar, Bool.or_eq_true, decide_eq_true_eq] at h
  obtain rfl | rfl := h <;> decide

/-- A name begins an operand, other characters have a class of their own. -/
theorem head?_rawKinds (text : List Char) :
    (rawKinds text).head? = text.head?.map fun c =>
      if isNameChar c then .operand else classify [c] := by
  cases text with
  | nil => simp [rawKinds, rawPieces]
  | cons c rest =>
    by_cases hc : isNameChar c
    · simp [rawKinds, rawPieces, hc]
    · simp [rawKinds_cons rest (by simpa using hc), hc]

theorem kinds_name {name text : List Char} (hne : name ≠ []) (hname : ∀ c ∈ name, isNameChar c)
    (htext : EndsName text) : kinds (name ++ text) = .operand :: kinds text := by
  rw [kinds, rawKinds_name hne hname htext]
  exact attachKinds_cons nofun

/-- A sign that is no negation stands for itself. -/
theorem kinds_sign {c : Char} {k : TokenClass} (text : List Char) (hc : isNameChar c = false)
    (hk : classify [c] = k) (hne : k ≠ .negation) : kinds (c :: text) = k :: kinds text := by
  rw [kinds, rawKinds_cons text hc, hk]
  exact attachKinds_cons fun h => absurd h hne

theorem kinds_negatedOperator {c : Char} (text : List Char) (hc : isOperatorChar c) :
    kinds (Symbol.negation :: c :: text) = .operator :: kinds text := by
  rw [kinds, rawKinds_cons _ isNameChar_negation,
    rawKinds_cons _ (not_isNameChar_of_isOperatorChar hc), classify_eq_operator_iff.2 hc]
  rfl

theorem kinds_negation {text : List Char} (h : ∀ c ∈ text.head?, isOperatorChar c = false) :
    kinds (Symbol.negation :: text) = .negation :: kinds text := by
  rw [kinds, rawKinds_cons _ isNameChar_negation]
  refine attachKinds_cons fun _ => ?_
  rw [head?_rawKinds]
  intro hk
  obtain ⟨c, hc, hk⟩ := Option.map_eq_some_iff.1 hk
  split_ifs at hk
  have := h c hc
  rw [classify_eq_operator_iff.1 hk] at this
  cases this

/-! ## Neighbours -/

/-- Every class may follow the one in front of it; `before` stands in front of the first. -/
def Fits (before : Option TokenClass) : List TokenClass → Prop
  | [] => True
  | k :: ks => mayFollow before k ∧ Fits (some k) ks

theorem badJunction?_eq_none_iff (before : Option Piece) (ps : List Piece) :
    badJunction? before ps = none ↔ Fits (before.map Piece.kind) (ps.map Piece.kind) := by
  induction ps generalizing before with
  | nil => simp [badJunction?, Fits]
  | cons p ps ih =>
    by_cases h : mayFollow (before.map Piece.kind) p.kind
    · simp [badJunction?, Fits, h, ih]
    · simp [badJunction?, Fits, h]

/-- A negation stands in front of neither of the signs that it cannot be attached to. -/
def Attachable (a b : Char) : Prop :=
  a = Symbol.negation → b ≠ Symbol.closing ∧ b ≠ Symbol.diff ∧ b ≠ Symbol.symmDiff

theorem columnOfPair?_eq_none_iff (a b : Char) (text : List Char) :
    columnOfPair? a b text = none ↔ text.IsChain fun x y => x = a → y ≠ b := by
  fun_induction columnOfPair? a b text with
  | case1 x y rest h => simp [h]
  | case2 x y rest h ih =>
    rw [List.isChain_cons_cons, Option.map_eq_none_iff, ih]
    exact ⟨fun hr => ⟨fun hx hy => h ⟨hx, hy⟩, hr⟩, And.right⟩
  | case3 text h =>
    match text, h with
    | [], _ => simp
    | [_], _ => simp
    | x :: y :: rest, h => exact absurd rfl (h x y rest)

theorem isChain_attachable_iff (text : List Char) :
    text.IsChain Attachable ↔
      columnOfPair? Symbol.negation Symbol.closing text = none ∧
        columnOfPair? Symbol.negation Symbol.diff text = none ∧
          columnOfPair? Symbol.negation Symbol.symmDiff text = none := by
  simp only [columnOfPair?_eq_none_iff]
  induction text using List.twoStepInduction with
  | nil => simp
  | singleton c => simp
  | cons_cons x y rest _ ih =>
    simp only [List.isChain_cons_cons, ih, Attachable]
    tauto

/-! ## Brackets -/

/-- The brackets of a text match when `depth` groups are open in front of it. -/
def Closes (depth : Nat) : List Char → Prop
  | [] => depth = 0
  | c :: rest =>
    if c = Symbol.opening then Closes (depth + 1) rest
    else if c = Symbol.closing then
      match depth with
      | 0 => False
      | d + 1 => Closes d rest
    else Closes depth rest

@[simp] theorem closes_nil (depth : Nat) : Closes depth [] ↔ depth = 0 := Iff.rfl

@[simp] theorem closes_opening (depth : Nat) (text : List Char) :
    Closes depth (Symbol.opening :: text) ↔ Closes (depth + 1) text := Iff.rfl

@[simp] theorem closes_zero_closing (text : List Char) :
    ¬ Closes 0 (Symbol.closing :: text) := id

@[simp] theorem closes_succ_closing (depth : Nat) (text : List Char) :
    Closes (depth + 1) (Symbol.closing :: text) ↔ Closes depth text := Iff.rfl

theorem closes_cons {c : Char} (depth : Nat) (text : List Char) (ho : c ≠ Symbol.opening)
    (hc : c ≠ Symbol.closing) : Closes depth (c :: text) ↔ Closes depth text := by
  rw [Closes.eq_def]
  simp only [if_neg ho, if_neg hc]

theorem closes_name {name : List Char} (depth : Nat) (text : List Char)
    (hname : ∀ c ∈ name, isNameChar c) : Closes depth (name ++ text) ↔ Closes depth text := by
  induction name with
  | nil => rfl
  | cons c name ih =>
    have hc : isNameChar c := hname c (by simp)
    rw [List.cons_append, closes_cons depth _ (ne_of_isNameChar hc isNameChar_opening)
      (ne_of_isNameChar hc isNameChar_closing), ih fun d hd => hname d (by simp [hd])]

theorem closes_iff (depth : Nat) (text : List Char) :
    Closes depth text ↔ strayClosing? depth text = none ∧
      depth + text.count Symbol.opening = text.count Symbol.closing := by
  have hne : Symbol.closing ≠ Symbol.opening := by decide
  induction text generalizing depth with
  | nil => simp [strayClosing?]
  | cons c rest ih =>
    by_cases ho : c = Symbol.opening
    · subst ho
      simp only [closes_opening, ih, strayClosing?, if_true, Option.map_eq_none_iff,
        List.count_cons_self, List.count_cons_of_ne hne.symm]
      exact and_congr_right fun _ => by omega
    by_cases hc : c = Symbol.closing
    · subst hc
      cases depth with
      | zero => simp [strayClosing?, hne]
      | succ d =>
        simp only [closes_succ_closing, ih, strayClosing?, if_neg ho, if_true,
          Option.map_eq_none_iff, List.count_cons_self, List.count_cons_of_ne hne]
        exact and_congr_right fun _ => by omega
    · simp only [closes_cons depth rest ho hc, ih, strayClosing?, if_neg ho, if_neg hc,
        List.count_cons_of_ne ho, List.count_cons_of_ne hc, Option.map_eq_none_iff]

/-! ## Columns -/

theorem columnOfPair?_lt {a b : Char} {text : List Char} {column : Nat}
    (h : columnOfPair? a b text = some column) : column < text.length := by
  fun_induction columnOfPair? a b text generalizing column with
  | case1 x y rest hxy =>
    cases h
    exact Nat.succ_pos _
  | case2 x y rest hxy ih =>
    obtain ⟨n, hn, rfl⟩ := Option.map_eq_some_iff.1 h
    exact Nat.succ_lt_succ (ih hn)
  | case3 text hshort => cases h

theorem strayClosing?_lt {depth : Nat} {text : List Char} {column : Nat}
    (h : strayClosing? depth text = some column) : column < text.length := by
  induction text generalizing depth column with
  | nil => simp [strayClosing?] at h
  | cons c rest ih =>
    rw [strayClosing?.eq_def] at h
    dsimp only at h
    split_ifs at h
    · obtain ⟨n, hn, rfl⟩ := Option.map_eq_some_iff.1 h
      exact Nat.succ_lt_succ (ih hn)
    · cases depth with
      | zero =>
        cases h
        exact Nat.succ_pos _
      | succ d =>
        obtain ⟨n, hn, rfl⟩ := Option.map_eq_some_iff.1 h
        exact Nat.succ_lt_succ (ih hn)
    · obtain ⟨n, hn, rfl⟩ := Option.map_eq_some_iff.1 h
      exact Nat.succ_lt_succ (ih hn)

theorem column_lt_of_mem_rawPieces {column : Nat} {text : List Char} {p : Piece}
    (h : p ∈ rawPieces column text) : p.column < column + text.length := by
  fun_induction rawPieces column text with
  | case1 => cases h
  | case2 column c rest hc name ih =>
    have hlen : name.length + (rest.dropWhile isNameChar).length = (c :: rest).length := by
      have := congrArg List.length (List.takeWhile_append_dropWhile (p := isNameChar) (l := rest))
      simp only [List.length_append] at this
      simp only [name, List.length_cons]
      omega
    obtain rfl | h := List.mem_cons.1 h
    · simp
    · have := ih h
      omega
  | case3 column c rest hc ih =>
    obtain rfl | h := List.mem_cons.1 h
    · simp
    · have := ih h
      simp only [List.length_cons]
      omega

/-- An attached negation gives its column to the operator. -/
theorem exists_column_of_mem_attachNegations {ps : List Piece} {p : Piece}
    (h : p ∈ attachNegations ps) : ∃ q ∈ ps, q.column = p.column := by
  fun_induction attachNegations ps with
  | case1 q r rest hq ih =>
    obtain rfl | h := List.mem_cons.1 h
    · exact ⟨q, by simp, rfl⟩
    · obtain ⟨s, hs, hcol⟩ := ih h
      exact ⟨s, by simp [hs], hcol⟩
  | case2 q r rest hq ih =>
    obtain rfl | h := List.mem_cons.1 h
    · exact ⟨_, by simp, rfl⟩
    · obtain ⟨s, hs, hcol⟩ := ih h
      exact ⟨s, List.mem_cons_of_mem _ hs, hcol⟩
  | case3 short hshort => exact ⟨p, h, rfl⟩

theorem mem_of_badJunction? {before : Option Piece} {ps : List Piece} {text : List Char}
    {p : Piece} (h : badJunction? before ps = some (text, p)) : p ∈ ps := by
  induction ps generalizing before with
  | nil => cases h
  | cons q ps ih =>
    rw [badJunction?] at h
    split_ifs at h
    · exact List.mem_cons_of_mem _ (ih h)
    · cases h
      exact List.mem_cons_self

theorem column_lt_of_badJunction? {text before : List Char} {p : Piece}
    (h : badJunction? none (pieces text) = some (before, p)) : p.column < text.length := by
  obtain ⟨q, hq, hcol⟩ := exists_column_of_mem_attachNegations (mem_of_badJunction? h)
  have := column_lt_of_mem_rawPieces hq
  omega

end VoxelAlgebra.Equation
