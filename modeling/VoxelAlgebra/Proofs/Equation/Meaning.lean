import VoxelAlgebra.Proofs.Edit
import VoxelAlgebra.Proofs.Equation.Evaluation
import VoxelAlgebra.Proofs.Equation.Lexing
import VoxelAlgebra.Proofs.Equation.Precedence

/-!
# The meaning of accepted equations

The tree of an accepted equation stands for the set of the equation, for every universe and every
choice of sets for the names. Tokens that stand for a set are read as a chain of operands, the chain
collapses to a tree of that set, and inner groups are such trees again.

## Main definitions

* `IsRead` — tokens that are read as a chain, whatever comes behind them.
* `Spells.exists_isRead` — tokens of a set are read as a chain of that set.
* `validate_evaluates` — the tree of an accepted equation stands for the set of the equation.
-/

namespace VoxelAlgebra.Equation

/-! ## Reading tokens -/

/-- The tokens of a chain: they make its members, and they leave no group open. -/
structure IsRead (ts : List Token) (chain : Chain) : Prop where
  items : ∀ group rest,
    groupItems group (ts ++ rest) = (groupItems group rest).map (chain.items ++ ·)
  closes : ∀ depth rest,
    closeGroup? depth (ts ++ rest) = (closeGroup? depth rest).map (Prod.map (ts ++ ·) id)

structure IsOperandToken (token : Token) : Prop where
  not_opener : isOpener token = false
  not_closer : isCloser token = false
  not_operator : Operator.ofSign? token = none

/-- Operators are no brackets. -/
theorem not_bracket_sign {op : Operator} (hop : op.IsSetOperation) :
    isOpener op.sign = false ∧ isCloser op.sign = false := by
  cases op with
  | union | inter | diff | symmDiff => exact ⟨rfl, rfl⟩
  | unknown => exact hop.elim

theorem closeGroup?_cons {depth : Nat} {token : Token} (rest : List Token)
    (ho : isOpener token = false) (hc : isCloser token = false) :
    closeGroup? depth (token :: rest) =
      (closeGroup? depth rest).map (Prod.map (token :: ·) id) := by
  simp only [closeGroup?, ho, hc, Bool.false_eq_true, if_false]
  rfl

theorem closeGroup?_opener {depth : Nat} {token : Token} (rest : List Token)
    (ho : isOpener token) :
    closeGroup? depth (token :: rest) =
      (closeGroup? (depth + 1) rest).map (Prod.map (token :: ·) id) := by
  simp only [closeGroup?, ho, if_true]
  rfl

theorem closeGroup?_closer (rest : List Token) :
    closeGroup? 0 ([Symbol.closing] :: rest) = some ([], rest) :=
  rfl

theorem closeGroup?_succ_closer (depth : Nat) (rest : List Token) :
    closeGroup? (depth + 1) ([Symbol.closing] :: rest) =
      (closeGroup? depth rest).map (Prod.map ([Symbol.closing] :: ·) id) :=
  rfl

theorem groupItems_nil (group : List Token) : groupItems group [] = .ok [] := by
  rw [groupItems]
  rfl

section

variable {group inner after behind rest : List Token} {token : Token}

/-- An opener is read together with its group. -/
theorem groupItems_opener (hopener : isOpener token)
    (hclose : closeGroup? 0 behind = some (inner, after)) :
    groupItems group (token :: behind) = do
      let tree ← buildGroup inner
      let node ← enclose token inner tree
      return .operand node :: (← groupItems group after) := by
  rw [groupItems]
  simp only [hopener, if_true]
  split
  · rename_i heq
    cases hclose.symm.trans heq
  · rename_i heq
    cases hclose.symm.trans heq
    simp only [buildGroup, bind_assoc]

theorem groupItems_unclosed (hopener : isOpener token) (hclose : closeGroup? 0 behind = none) :
    groupItems group (token :: behind) = .error (.report (unbalanced group)) := by
  rw [groupItems]
  simp only [hopener, if_true]
  split
  · rfl
  · rename_i heq
    cases hclose.symm.trans heq

theorem groupItems_closer (hopener : ¬ isOpener token) (hcloser : isCloser token) :
    groupItems group (token :: behind) = .error (.report (unbalanced group)) := by
  rw [groupItems]
  simp only [hopener, hcloser, if_true, Bool.false_eq_true, if_false]
  rfl

theorem groupItems_sign {op : Operator} (hopener : ¬ isOpener token) (hcloser : ¬ isCloser token)
    (hop : Operator.ofSign? token = some op) :
    groupItems group (token :: behind) =
      do return .operator op :: (← groupItems group behind) := by
  rw [groupItems]
  simp only [hopener, hcloser, hop, Bool.false_eq_true, if_false]

theorem groupItems_token (htoken : IsOperandToken token) :
    groupItems group (token :: behind) = do
      let node ← operand token
      return .operand node :: (← groupItems group behind) := by
  rw [groupItems]
  simp only [htoken.not_opener, htoken.not_closer, htoken.not_operator, Bool.false_eq_true,
    if_false]

theorem groupItems_operand {node : Node} (htoken : IsOperandToken token)
    (hnode : operand token = .ok node) :
    groupItems group (token :: rest) = (groupItems group rest).map (.operand node :: ·) := by
  rw [groupItems_token htoken, hnode]
  cases groupItems group rest <;> rfl

theorem groupItems_operator {op : Operator} (rest : List Token) (hop : op.IsSetOperation) :
    groupItems group (op.sign :: rest) = (groupItems group rest).map (.operator op :: ·) := by
  obtain ⟨hopener, hcloser⟩ := not_bracket_sign hop
  rw [groupItems_sign (by simp [hopener]) (by simp [hcloser]) (Operator.ofSign?_sign hop)]
  cases groupItems group rest <;> rfl

theorem groupItems_group {node result : Node} (htoken : isOpener token)
    (hclose : closeGroup? 0 behind = some (inner, after)) (hnode : buildGroup inner = .ok node)
    (hresult : enclose token inner node = .ok result) :
    groupItems group (token :: behind) = (groupItems group after).map (.operand result :: ·) := by
  rw [groupItems_opener htoken hclose, hnode, except_ok_bind, hresult]
  cases groupItems group after <;> rfl

end

/-! ## Nested lists -/

/-- The nested lists of tokens are those of their group. -/
theorem buildTree_of_buildGroup {tokens : List Token} {t : Node} (h : buildGroup tokens = .ok t) :
    buildTree tokens = flatten t := by
  have hne : tokens ≠ [] := by
    rintro rfl
    rw [buildGroup, groupItems_nil] at h
    cases h
  rw [buildTree, if_neg hne, h]
  rfl

/-- Nested lists are lists, also those of a lone operand. -/
theorem flatten_eq_list {node : Node} {d : Datum} (h : flatten node = .ok d) :
    ∃ items, d = .list items := by
  unfold flatten at h
  split at h
  · rename_i heq
    cases h
    cases node with
    | leaf name =>
      cases heq
      exact ⟨_, rfl⟩
    | binary op l r =>
      simp only [Node.toDatum?, Node.toInnerDatum?, Option.bind_eq_bind, Option.bind_eq_some_iff]
        at heq
      obtain ⟨_, _, _, _, heq⟩ := heq
      cases heq
      exact ⟨_, rfl⟩
    | waiting operand hasSymmDiff => cases heq
  · cases h

theorem buildTree_eq_list {tokens : List Token} {d : Datum} (h : buildTree tokens = .ok d) :
    ∃ items, d = .list items := by
  unfold buildTree at h
  split_ifs at h
  · cases h
    exact ⟨[], rfl⟩
  · obtain ⟨node, -, hflat⟩ := except_bind_eq_ok.1 h
    exact flatten_eq_list hflat

/-! ## Chains -/

namespace IsRead

variable {ts us : List Token} {chain chain' : Chain}

/-- Tokens that are read as a chain are a group of their own. -/
theorem buildGroup (h : IsRead ts chain) : buildGroup ts = .ok chain.collapse := by
  have hitems := h.items ts []
  rw [List.append_nil, groupItems_nil] at hitems
  have hmembers : groupItems ts ts = .ok (chain.items ++ []) := hitems
  rw [List.append_nil] at hmembers
  simp only [Equation.buildGroup, hmembers, bind, Except.bind, reduce, Chain.ofItems?_items]
  rfl

theorem closeGroup? (h : IsRead ts chain) (rest : List Token) :
    closeGroup? 0 (ts ++ [Symbol.closing] :: rest) = some (ts, rest) := by
  rw [h.closes, closeGroup?_closer]
  simp

theorem join (op : Operator) (hop : op.IsSetOperation) (h : IsRead ts chain)
    (h' : IsRead us chain') : IsRead (ts ++ op.sign :: us)
      ⟨chain.first, chain.links ++ (op, chain'.first) :: chain'.links⟩ where
  items group rest := by
    rw [List.append_assoc, List.cons_append, h.items, groupItems_operator _ hop, h'.items]
    cases groupItems group rest with
    | error => rfl
    | ok members => simp [Except.map, Chain.items]
  closes depth rest := by
    obtain ⟨hopener, hcloser⟩ := not_bracket_sign hop
    rw [List.append_assoc, List.cons_append, h.closes, closeGroup?_cons _ hopener hcloser,
      h'.closes]
    cases Equation.closeGroup? depth rest <;> simp [Prod.map]

theorem operand {token : Token} {node : Node} (htoken : IsOperandToken token)
    (hnode : Equation.operand token = .ok node) : IsRead [token] ⟨node, []⟩ where
  items _ _ := groupItems_operand htoken hnode
  closes _ rest := closeGroup?_cons rest htoken.not_opener htoken.not_closer

theorem group {opener : Token} {result : Node} (hopener : isOpener opener) (h : IsRead ts chain)
    (hresult : enclose opener ts chain.collapse = .ok result) :
    IsRead (opener :: (ts ++ [[Symbol.closing]])) ⟨result, []⟩ where
  items group rest := by
    rw [List.cons_append, List.append_assoc, List.singleton_append]
    exact groupItems_group hopener (h.closeGroup? rest) h.buildGroup hresult
  closes depth rest := by
    rw [List.cons_append, closeGroup?_opener _ hopener, List.append_assoc, h.closes,
      List.singleton_append, closeGroup?_succ_closer]
    cases Equation.closeGroup? depth rest <;> simp [Prod.map]

end IsRead

/-! ## Operands -/

variable {α : Type*} {U : Set α} {σ : String → Option (Set α)}

/-- A token that ends otherwise is no operator. -/
theorem ofSign?_of_getLast? {token : Token} {c : Char} (h : token.getLast? = some c)
    (hc : isOperatorChar c = false) : Operator.ofSign? token = none := by
  rw [Option.eq_none_iff_forall_ne_some]
  intro op hop
  obtain ⟨hsign, hop⟩ := Operator.sign_of_ofSign? hop
  rw [← hsign] at h
  cases op with
  | union | inter | diff | symmDiff =>
    cases h
    exact absurd hc (by decide)
  | unknown => exact hop.elim

theorem isCloser_of_getLast? {token : Token} {c : Char} (h : token.getLast? = some c)
    (hc : c ≠ Symbol.closing) : isCloser token = false := by
  rw [isCloser, decide_eq_false_iff_not]
  rintro rfl
  cases h
  exact hc rfl

/-- The last character of a name or constant tells its token from all others. -/
theorem isOperandToken_of_getLast? {token : Token} {c : Char} (h : token.getLast? = some c)
    (hc : isNameChar c ∨ isConstantChar c) : IsOperandToken token := by
  have hne (d : Char) (hd : isNameChar d = false) (hd' : isConstantChar d = false) : c ≠ d := by
    rintro rfl
    simp [hd, hd'] at hc
  refine ⟨?_, isCloser_of_getLast? h (hne _ isNameChar_closing (by decide)),
    ofSign?_of_getLast? h ?_⟩
  · simpa [isOpener, h] using hne _ isNameChar_opening (by decide)
  · simp [isOperatorChar, hne Symbol.union (by decide) (by decide),
      hne Symbol.inter (by decide) (by decide), hne Symbol.diff (by decide) (by decide),
      hne Symbol.symmDiff (by decide) (by decide)]

theorem isOperandToken_name (s : List Char) {a : List Char} (hne : a ≠ [])
    (hname : ∀ c ∈ a, isNameChar c) : IsOperandToken (s ++ a) := by
  obtain ⟨c, hc⟩ := Option.isSome_iff_exists.1 (List.getLast?_isSome.2 hne)
  refine isOperandToken_of_getLast? ?_ (.inl (hname c (List.mem_of_getLast? hc)))
  rw [List.getLast?_append_of_ne_nil _ hne, hc]

/-- An operand with an odd number of negations is negated. -/
theorem operand_negations {s : List Char} (hs : AreNegations s) {c : Char} (a : List Char)
    (hc : c ≠ Symbol.negation) : operand (s ++ c :: a) =
      if s.length % 2 = 1 then Equation.negated (.leaf (c :: a)) else .ok (.leaf (c :: a)) := by
  rw [operand, dropWhile_negations hs a hc]
  simp [pure, Except.pure]

theorem operand_name {s : List Char} (hs : AreNegations s) {a : List Char} (hne : a ≠ [])
    (hname : ∀ c ∈ a, isNameChar c) : operand (s ++ a) =
      if s.length % 2 = 1 then Equation.negated (.leaf a) else .ok (.leaf a) := by
  obtain ⟨c, a, rfl⟩ := List.exists_cons_of_ne_nil hne
  exact operand_negations hs a
    (ne_of_isNameChar (hname c List.mem_cons_self) isNameChar_negation)

theorem Node.Evaluates.negated (hσ : ∀ name A, σ name = some A → A ⊆ U) {node : Node} {A : Set α}
    (h : node.Evaluates U σ A) :
    ∃ result, Equation.negated node = .ok result ∧ result.Evaluates U σ (U \ A) := by
  obtain ⟨m, hm, hmA⟩ := h.negate hσ
  exact ⟨m, by simp [Equation.negated, hm, pure, Except.pure], hmA⟩

theorem Node.Evaluates.distribute (hσ : ∀ name A, σ name = some A → A ⊆ U) {node : Node}
    {A : Set α} (h : node.Evaluates U σ A) (hasSymmDiff : Bool) :
    ∃ result, Equation.distribute node hasSymmDiff = .ok result ∧
      result.Evaluates U σ (U \ A) := by
  cases hasSymmDiff with
  | false => exact h.negated hσ
  | true => exact ⟨_, rfl, .combine .diff trivial subset_rfl (h.subset hσ) .universal h⟩

/-- A negated group is complemented in one of two ways. -/
theorem Node.Evaluates.enclose (hσ : ∀ name A, σ name = some A → A ⊆ U) {node : Node} {A : Set α}
    (h : node.Evaluates U σ A) (negated : Bool) (inner : List Token) :
    ∃ result, Equation.enclose (signs negated ++ [Symbol.opening]) inner node = .ok result ∧
      result.Evaluates U σ (withSign U negated A) := by
  cases negated with
  | false => exact ⟨node, rfl, h⟩
  | true => exact h.distribute hσ _

theorem isOpener_concat (s : List Char) : isOpener (s ++ [Symbol.opening]) := by
  simp [isOpener]

/-! ## Tokens of a set -/

/-- The chain of a run has only `⊕` in it, and that of an operand has no operator. -/
def HasShape : Phrase → Chain → Prop
  | .expression, _ => True
  | .run, chain => ∀ link ∈ chain.links, link.1 = .symmDiff
  | .signed, chain | .atom, chain => chain.links = []

/-- Tokens of a set are read as a chain of that set. -/
theorem Spells.exists_isRead (hσ : ∀ name A, σ name = some A → A ⊆ U) {p : Phrase}
    {ts : List Token} {A : Set α} (h : Spells U σ p ts A) :
    ∃ chain, IsRead ts chain ∧ HasShape p chain ∧ chain.collapse.Evaluates U σ A := by
  induction h with
  | run _ ih =>
    obtain ⟨chain, hread, -, hA⟩ := ih
    exact ⟨chain, hread, trivial, hA⟩
  | join hop hne _ _ iht ihu =>
    obtain ⟨⟨first, links⟩, hread, -, hA⟩ := iht
    obtain ⟨⟨right, run⟩, hread', hrun, hB⟩ := ihu
    refine ⟨_, hread.join _ hop hread', trivial, ?_⟩
    rw [Chain.collapse_append_run first links hne right hrun]
    exact hA.combine _ hop (hA.subset hσ) (hB.subset hσ) hB
  | signed _ ih =>
    obtain ⟨⟨node, links⟩, hread, rfl, hA⟩ := ih
    exact ⟨_, hread, nofun, hA⟩
  | symmDiff _ _ iht ihu =>
    obtain ⟨⟨first, run⟩, hread, hrun, hA⟩ := iht
    obtain ⟨⟨right, links⟩, hread', rfl, hB⟩ := ihu
    refine ⟨_, hread.join .symmDiff trivial hread', ?_, ?_⟩
    · simpa [HasShape, or_imp, forall_and] using hrun
    · rw [Chain.collapse_concat_symmDiff first right hrun]
      rw [Chain.collapse_single] at hB
      exact hA.combine .symmDiff trivial (hA.subset hσ) (hB.subset hσ) hB
  | @name a A negated hne hname hA =>
    have hleaf : (Node.leaf a).Evaluates U σ A := by
      refine .name ?_ ?_ hA <;> rintro rfl <;> exact absurd (hname _ List.mem_cons_self) (by decide)
    have htoken := isOperandToken_name (signs negated) hne hname
    have hoperand := operand_name (areNegations_signs negated) hne hname
    cases negated with
    | false => exact ⟨_, .operand htoken hoperand, rfl, by simpa [withSign] using hleaf⟩
    | true =>
      obtain ⟨result, hresult, hA⟩ := hleaf.negated hσ
      rw [if_pos (by rfl), hresult] at hoperand
      exact ⟨_, .operand htoken hoperand, rfl, by simpa [withSign] using hA⟩
  | universal =>
    exact ⟨⟨.universal, []⟩, .operand ⟨rfl, rfl, rfl⟩ rfl, rfl, by simpa using .universal⟩
  | null => exact ⟨⟨.null, []⟩, .operand ⟨rfl, rfl, rfl⟩ rfl, rfl, by simpa using .null⟩
  | @group ts A negated _ ih =>
    obtain ⟨chain, hread, -, hA⟩ := ih
    obtain ⟨result, hresult, hB⟩ := hA.enclose hσ negated ts
    exact ⟨_, hread.group (isOpener_concat _) hresult, rfl, by simpa using hB⟩

theorem Spells.ne_nil {p : Phrase} {ts : List Token} {A : Set α} (h : Spells U σ p ts A) :
    ts ≠ [] := by
  induction h with
  | run _ ih | signed _ ih => exact ih
  | join | symmDiff | name | universal | null | group => simp

/-- The tree of a text stands for the set of the text. -/
theorem Denotes.exists_buildTree (hσ : ∀ name A, σ name = some A → A ⊆ U) {s : List Char}
    {A : Set α} (h : Denotes U σ .expression s A) :
    ∃ tree, buildTree (tokenize (simplify s)) = .ok tree ∧ tree.Evaluates U σ A := by
  obtain ⟨chain, hread, -, hA⟩ := (h.spells hσ).exists_isRead hσ
  obtain ⟨tree, htree, htreeA⟩ := hA.toDatum?
  refine ⟨tree, ?_, htreeA⟩
  rw [buildTree_of_buildGroup hread.buildGroup, flatten, htree]
  rfl

/-- Every text of the grammar has a tree. Which sets the names stand for does not matter. -/
theorem Derives.exists_buildTree {s : List Char} (h : Derives .expression s) :
    ∃ tree, buildTree (tokenize (simplify s)) = .ok tree := by
  obtain ⟨A, hA⟩ := h.exists_denotes (U := Set.univ)
    (σ := fun _ => some (Set.univ : Set Unit)) fun _ => ⟨_, rfl⟩
  obtain ⟨tree, htree, -⟩ := hA.exists_buildTree fun _ B _ => Set.subset_univ B
  exact ⟨tree, htree⟩

/-! ## Accepted equations -/

/-- An accepted equation that is not empty stands for one set by the grammar, and its tree stands
for that set and no other. -/
theorem validate_evaluates {U : Set α} {σ : String → Set α} (hσ : ∀ name, σ name ⊆ U)
    {equation : List Char} {tokens : List Token} (hvalid : validate equation = .ok tokens)
    (hne : Text.dropBlanks equation ≠ []) :
    ∃ tree, buildTree tokens = .ok tree ∧ ∃ S : Set α,
      (∀ T, tree.Evaluates U (fun name => some (σ name)) T ↔ T = S) ∧
      ∀ T, Denotes U (fun name => some (σ name)) .expression (Text.dropBlanks equation) T ↔
        T = S := by
  have hsubset : ∀ name A, some (σ name) = some A → A ⊆ U := by
    intro name A h
    cases h
    exact hσ name
  obtain ⟨hderives, htokens⟩ := validate_eq_ok.1 hvalid
  obtain ⟨S, hS⟩ := (hderives.resolve_left hne).exists_denotes fun name => ⟨σ name, rfl⟩
  obtain ⟨tree, htree, htreeS⟩ := hS.exists_buildTree hsubset
  rw [← htokens] at htree
  refine ⟨tree, htree, S, fun T => ⟨fun h => h.unique htreeS, ?_⟩, fun T => ⟨fun h => ?_, ?_⟩⟩
  · rintro rfl
    exact htreeS
  · obtain ⟨tree', htree', htreeT⟩ := h.exists_buildTree hsubset
    rw [← htokens, htree] at htree'
    cases htree'
    exact htreeT.unique htreeS
  · rintro rfl
    exact hS

/-- A negated group, a symmetric difference and a negated operator in one equation, where names
stand for the numbers below their lengths. -/
theorem validate_evaluates_negated_group :
    (∀ name : String, {n | n < 4 ∧ n < name.length} ⊆ {n : Nat | n < 4}) ∧
    validate "!(a∪bc)⊕!abc !∩ ∅".toList = .ok [['!', '('], ['a'], ['∪'], ['b', 'c'], [')'], ['⊕'],
      ['!', 'a', 'b', 'c'], ['∪'], ['∅']] ∧
    Text.dropBlanks "!(a∪bc)⊕!abc !∩ ∅".toList ≠ [] ∧
    ∃ tree, buildTree [['!', '('], ['a'], ['∪'], ['b', 'c'], [')'], ['⊕'], ['!', 'a', 'b', 'c'],
      ['∪'], ['∅']] = .ok tree ∧ ∃ S : Set Nat,
      (∀ T, tree.Evaluates {n | n < 4} (fun name => some {n | n < 4 ∧ n < name.length}) T ↔
        T = S) ∧
      ∀ T, Denotes {n | n < 4} (fun name => some {n | n < 4 ∧ n < name.length}) .expression
        (Text.dropBlanks "!(a∪bc)⊕!abc !∩ ∅".toList) T ↔ T = S := by
  have hσ : ∀ name : String, {n | n < 4 ∧ n < name.length} ⊆ {n : Nat | n < 4} :=
    fun name n hn => hn.1
  have hvalid : validate "!(a∪bc)⊕!abc !∩ ∅".toList = .ok [['!', '('], ['a'], ['∪'], ['b', 'c'],
      [')'], ['⊕'], ['!', 'a', 'b', 'c'], ['∪'], ['∅']] := by with_unfolding_all rfl
  have hlength : (Text.dropBlanks "!(a∪bc)⊕!abc !∩ ∅".toList).length = 15 := by
    with_unfolding_all rfl
  have hne : Text.dropBlanks "!(a∪bc)⊕!abc !∩ ∅".toList ≠ [] :=
    List.ne_nil_of_length_eq_add_one hlength
  exact ⟨hσ, hvalid, hne, validate_evaluates hσ hvalid hne⟩

end VoxelAlgebra.Equation
