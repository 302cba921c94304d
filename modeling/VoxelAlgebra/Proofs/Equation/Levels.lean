import VoxelAlgebra.Proofs.Equation.Precedence

/-!
# The two levels of a group

The members of a group are collapsed in rounds. A round scans the group for the leftmost operator of
the highest precedence, which it looks up in the table, and puts the join of its operands in the
place of all three, so every later position moves. The tree is nevertheless the one that is parsed
on two levels: the group is cut at `-`, `∩` and `∪`, the runs of `⊕` in between are joined from the
left, and then their results are.

## Main definitions

* `Alternates` — operands and operators in turn, with an operand at both ends.
* `round?`, `rounds?` — the rounds on the list of members, which end at a missing precedence.
* `joinLevels?` — the tree of a group that is parsed on two levels.
* `reduce_of_alternates` — rounds, levels and `reduce` give one tree.
-/

namespace VoxelAlgebra.Equation

/-! ## Rounds -/

def Item.isOperator : Item → Bool
  | .operator _ => true
  | .operand _ => false

/-- Operands and operators in turn, with an operand at both ends. -/
structure Alternates (items : List Item) : Prop where
  odd : items.length % 2 = 1
  isOperator_iff : ∀ (i : Nat) (h : i < items.length), items[i].isOperator ↔ i % 2 = 1

def precedenceAt? (items : List Item) (i : Nat) : Option Nat :=
  match items[i]? with
  | some (.operator op) => precedenceTable.lookup (String.ofList op.sign)
  | _ => none

/-- The stronger one of the operators at two positions; of equals, the one found before. -/
def stronger? (items : List Item) (best i : Nat) : Option Nat := do
  let level ← precedenceAt? items i
  let bestLevel ← precedenceAt? items best
  return if bestLevel < level then i else best

/-- The position of the leftmost operator of the highest precedence, from a scan of all operators
behind the first. -/
def strongestAt? (items : List Item) : Option Nat :=
  (List.range' 3 ((items.length - 2) / 2) 2).foldlM (stronger? items) 1

/-- Puts the join of its operands in the place of an operator and the operands beside it. -/
def joinBeside? (items : List Item) (i : Nat) : Option (List Item) :=
  match items.drop (i - 1) with
  | .operand left :: .operator op :: .operand right :: after =>
    some (items.take (i - 1) ++ .operand (left.combine op right) :: after)
  | _ => none

def round? (items : List Item) : Option (List Item) := do
  joinBeside? items (← strongestAt? items)

def rounds? : Nat → List Item → Option (List Item)
  | 0, items => some items
  | n + 1, items => do rounds? n (← round? items)

/-! ## Levels -/

/-- The operator of a member that separates runs of `⊕`. -/
def Item.separator? : Item → Option Operator
  | .operator op => if op = .symmDiff then none else some op
  | .operand _ => none

def Item.isSeparator (item : Item) : Bool := item.separator?.isSome

/-- Joins the operands of a group from the left, whatever the operators are. -/
def joinLeft? (items : List Item) : Option Node :=
  (Chain.ofItems? items).map fun chain => Chain.foldLinks chain.first chain.links

/-- The tree of a group on two levels: each run of `⊕` is joined from the left, and then the results
are, with the operators in between. -/
def joinLevels? (items : List Item) : Option Node := do
  let runs ← (items.splitOnP Item.isSeparator).mapM joinLeft?
  match runs with
  | [] => none
  | first :: rest => some (Chain.foldLinks first ((items.filterMap Item.separator?).zip rest))

/-! ## Alternating members -/

theorem exists_links_of_alternates : ∀ {items : List Item}, items.length % 2 = 0 →
    (∀ (i : Nat) (h : i < items.length), items[i].isOperator ↔ i % 2 = 0) →
    ∃ links, Chain.linksOfItems? items = some links
  | [], _, _ => ⟨[], rfl⟩
  | [_], heven, _ => by simp at heven
  | first :: second :: rest, heven, halt => by
    obtain ⟨links, hlinks⟩ : ∃ links, Chain.linksOfItems? rest = some links := by
      refine exists_links_of_alternates (by simp at heven; omega) fun i h => ?_
      have := halt (i + 2) (by simpa using h)
      simp only [List.getElem_cons_succ] at this
      rw [this]
      omega
    have hfirst := halt 0 (by simp)
    have hsecond := halt 1 (by simp)
    cases first with
    | operand => simp [Item.isOperator] at hfirst
    | operator op =>
      cases second with
      | operator => simp [Item.isOperator] at hsecond
      | operand node => exact ⟨(op, node) :: links, by simp [Chain.linksOfItems?, hlinks]⟩

namespace Chain

theorem items_of_linksOfItems? {items : List Item} {links : List (Operator × Node)}
    (h : linksOfItems? items = some links) :
    items = links.flatMap fun link => [.operator link.1, .operand link.2] := by
  induction items using linksOfItems?.induct generalizing links with
  | case1 =>
    cases h
    rfl
  | case2 op node rest ih =>
    obtain ⟨links', hlinks, rfl⟩ := Option.map_eq_some_iff.1 h
    simp [← ih hlinks]
  | case3 items hne hne' =>
    rw [linksOfItems?] at h
    · cases h
    · exact hne
    · exact hne'

@[simp] theorem items_nil (first : Node) : items ⟨first, []⟩ = [.operand first] := rfl

@[simp] theorem items_cons (first : Node) (link : Operator × Node)
    (links : List (Operator × Node)) : items ⟨first, link :: links⟩ =
      .operand first :: .operator link.1 :: items ⟨link.2, links⟩ := rfl

@[simp] theorem length_items (chain : Chain) :
    chain.items.length = 2 * chain.links.length + 1 := by
  obtain ⟨first, links⟩ := chain
  induction links generalizing first with
  | nil => rfl
  | cons link links ih => simp [ih link.2]; omega

end Chain

theorem Alternates.exists_chain {items : List Item} (h : Alternates items) :
    ∃ chain : Chain, items = chain.items := by
  obtain ⟨hodd, halt⟩ := h
  cases items with
  | nil => simp at hodd
  | cons first rest =>
    obtain ⟨links, hlinks⟩ : ∃ links, Chain.linksOfItems? rest = some links := by
      refine exists_links_of_alternates (by simp at hodd; omega) fun i h => ?_
      have := halt (i + 1) (by simpa using h)
      simp only [List.getElem_cons_succ] at this
      rw [this]
      omega
    have hfirst := halt 0 (by simp)
    cases first with
    | operator => simp [Item.isOperator] at hfirst
    | operand node => exact ⟨⟨node, links⟩, by rw [Chain.items_of_linksOfItems? hlinks]; rfl⟩

theorem reduce_items (chain : Chain) : reduce chain.items = .ok chain.collapse := by
  rw [reduce, Chain.ofItems?_items]
  rfl

/-! ## The tree of the levels -/

namespace Chain

theorem joinLeft?_symmDiff (left right : Node) (rest : List Item) :
    joinLeft? (.operand left :: .operator .symmDiff :: .operand right :: rest) =
      joinLeft? (.operand (left.combine .symmDiff right) :: rest) := by
  simp only [joinLeft?, ofItems?, linksOfItems?]
  cases linksOfItems? rest with
  | none => rfl
  | some links => rfl

theorem splitOnP_operand_symmDiff (left right : Node) (rest : List Item) :
    ((Item.operand left :: .operator .symmDiff :: .operand right :: rest).splitOnP
      Item.isSeparator).mapM joinLeft? =
    ((Item.operand (left.combine .symmDiff right) :: rest).splitOnP
      Item.isSeparator).mapM joinLeft? := by
  obtain ⟨run, runs, hsplit⟩ :=
    List.exists_cons_of_ne_nil (List.splitOnP_ne_nil Item.isSeparator rest)
  simp [List.splitOnP_cons_eq_if_modifyHead, Item.isSeparator, Item.separator?, hsplit,
    joinLeft?_symmDiff]

theorem splitOnP_operand_separator (first : Node) {op : Operator} (hop : op ≠ .symmDiff)
    (rest : List Item) : (Item.operand first :: .operator op :: rest).splitOnP Item.isSeparator =
      [.operand first] :: rest.splitOnP Item.isSeparator := by
  simp [List.splitOnP_cons_eq_if_modifyHead, Item.isSeparator, Item.separator?, hop]

/-- The runs between the separating operators are the operands of the chain with joined runs. -/
theorem mapM_joinLeft?_splitOnP (first : Node) (links : List (Operator × Node)) :
    ((items ⟨first, links⟩).splitOnP Item.isSeparator).mapM joinLeft? =
      some ((joinRuns first links).first :: (joinRuns first links).links.map Prod.snd) := by
  induction links generalizing first with
  | nil =>
    have hsplit : [Item.operand first].splitOnP Item.isSeparator = [[.operand first]] :=
      List.splitOnP_eq_singleton (by simp [Item.isSeparator, Item.separator?])
    rw [items_nil, hsplit]
    rfl
  | cons link links ih =>
    obtain ⟨op, right⟩ := link
    rw [items_cons]
    by_cases hop : op = .symmDiff
    · rw [joinRuns, if_pos hop, ← ih, hop]
      exact splitOnP_operand_symmDiff first right _
    · rw [joinRuns, if_neg hop, splitOnP_operand_separator first hop, List.mapM_cons, ih right]
      rfl

theorem filterMap_separator?_items (first : Node) (links : List (Operator × Node)) :
    (items ⟨first, links⟩).filterMap Item.separator? =
      (joinRuns first links).links.map Prod.fst := by
  induction links generalizing first with
  | nil => rfl
  | cons link links ih =>
    obtain ⟨op, right⟩ := link
    by_cases hop : op = .symmDiff
    · rw [joinRuns, if_pos hop, ← ih, hop]
      rfl
    · simp only [items_cons, List.filterMap_cons, Item.separator?, if_neg hop, ih right, joinRuns,
        List.map_cons]

/-- Parsing on two levels gives the tree that the collapse gives. -/
theorem joinLevels?_items (chain : Chain) : joinLevels? chain.items = some chain.collapse := by
  obtain ⟨first, links⟩ := chain
  rw [joinLevels?, mapM_joinLeft?_splitOnP, filterMap_separator?_items, collapse_eq]
  simp [List.zip]

end Chain

/-! ## The tree of the rounds -/

theorem Operator.lookup_precedenceTable {op : Operator} (hop : op.IsSetOperation) :
    precedenceTable.lookup (String.ofList op.sign) = some op.precedence := by
  cases op with
  | unknown => exact hop.elim
  | _ => rfl

namespace Chain

variable {chain : Chain}

def HasSetOperations (chain : Chain) : Prop := ∀ link ∈ chain.links, link.1.IsSetOperation

theorem getElem?_items (first : Node) {links : List (Operator × Node)} {k : Nat}
    (hk : k < links.length) :
    (items ⟨first, links⟩)[2 * k + 1]? = some (.operator links[k].1) := by
  induction links generalizing first k with
  | nil => cases hk
  | cons link links ih =>
    cases k with
    | zero => rfl
    | succ k => simpa [Nat.mul_add] using ih link.2 (by simpa using hk)

theorem precedenceAt?_items (hops : chain.HasSetOperations) {k : Nat}
    (hk : k < chain.links.length) :
    precedenceAt? chain.items (2 * k + 1) = some chain.links[k].1.precedence := by
  rw [precedenceAt?, getElem?_items chain.first hk]
  exact Operator.lookup_precedenceTable (hops _ (List.getElem_mem hk))

/-- Scanning the members from one link on is looking for the strongest of the links from there. -/
theorem foldlM_stronger? (hops : chain.HasSetOperations) {n best k : Nat}
    (hk : k + n = chain.links.length) (hbest : best < chain.links.length) :
    (List.range' (2 * k + 1) n 2).foldlM (stronger? chain.items) (2 * best + 1) =
      some (2 * strongestFrom best chain.links[best].1.precedence k (chain.links.drop k) + 1) := by
  induction n generalizing best k with
  | zero =>
    rw [List.drop_eq_nil_of_le (by omega)]
    rfl
  | succ n ih =>
    have hlt : k < chain.links.length := by omega
    rw [List.drop_eq_getElem_cons hlt, strongestFrom, List.range'_succ, List.foldlM_cons, stronger?,
      precedenceAt?_items hops hlt, precedenceAt?_items hops hbest]
    simp only [Option.bind_eq_bind, Option.bind_some, Option.pure_def]
    split
    · exact ih (k := k + 1) (by omega) hlt
    · exact ih (k := k + 1) (by omega) hbest

theorem strongestAt?_items (hops : chain.HasSetOperations) (hlinks : chain.links ≠ []) :
    strongestAt? chain.items = some (2 * strongest chain.links + 1) := by
  have hpos : 0 < chain.links.length := List.length_pos_iff.2 hlinks
  have hlength : (chain.items.length - 2) / 2 = chain.links.length - 1 := by
    rw [length_items]
    omega
  rw [strongestAt?, hlength]
  refine (foldlM_stronger? hops (k := 1) (by omega) hpos).trans ?_
  obtain ⟨link, rest, hcons⟩ := List.exists_cons_of_ne_nil hlinks
  simp [hcons, strongest]

theorem joinBeside?_cons {first : Node} {link : Operator × Node} {items joined : List Item}
    {i : Nat} (h : joinBeside? items (i + 1) = some joined) :
    joinBeside? (.operand first :: .operator link.1 :: items) (i + 3) =
      some (.operand first :: .operator link.1 :: joined) := by
  simp only [joinBeside?, Nat.add_sub_cancel, show i + 3 - 1 = i + 1 + 1 by omega,
    List.drop_succ_cons, List.take_succ_cons] at h ⊢
  split at h
  · cases h
    rfl
  · cases h

theorem joinBeside?_items (first : Node) {links : List (Operator × Node)} {k : Nat}
    (hk : k < links.length) :
    joinBeside? (items ⟨first, links⟩) (2 * k + 1) = some (joinAt k first links).items := by
  induction links generalizing first k with
  | nil => cases hk
  | cons link links ih =>
    cases k with
    | zero => rfl
    | succ k => exact joinBeside?_cons (ih link.2 (by simpa using hk))

theorem round?_items (hops : chain.HasSetOperations) (hlinks : chain.links ≠ []) :
    round? chain.items = some (joinAt (strongest chain.links) chain.first chain.links).items := by
  rw [round?, strongestAt?_items hops hlinks]
  exact joinBeside?_items chain.first (strongest_lt hlinks)

theorem HasSetOperations.joinAt {k : Nat} {first : Node} {links : List (Operator × Node)}
    (hops : HasSetOperations ⟨first, links⟩) : (Chain.joinAt k first links).HasSetOperations := by
  induction links generalizing k first with
  | nil => cases k <;> exact hops
  | cons link links ih =>
    obtain ⟨hop, hrest⟩ := List.forall_mem_cons.1 hops
    cases k with
    | zero => exact hrest
    | succ k =>
      have hjoined : (Chain.joinAt k link.2 links).HasSetOperations := ih hrest
      exact List.forall_mem_cons.2 ⟨hop, hjoined⟩

/-- One round for each link leaves the tree. -/
theorem rounds?_items (hops : chain.HasSetOperations) :
    rounds? chain.links.length chain.items = some [.operand chain.collapse] := by
  induction chain using Chain.collapse.induct with
  | case1 chain hlinks =>
    obtain ⟨first, links⟩ := chain
    cases hlinks
    rw [collapse_single]
    rfl
  | case2 chain hlinks _ ih =>
    have hlength := length_links_joinAt _ chain.first _ (strongest_lt hlinks)
    rw [Chain.collapse, dif_neg hlinks, ← ih hops.joinAt, ← hlength, rounds?,
      round?_items hops hlinks]
    rfl

end Chain

/-- Operands that alternate with set operations collapse to the tree that is parsed on two levels:
rounds on the members leave it alone, one for every operator, and no precedence is missing. -/
theorem reduce_of_alternates {items : List Item} (halt : Alternates items)
    (hops : ∀ op, .operator op ∈ items → op.IsSetOperation) :
    ∃ tree, joinLevels? items = some tree ∧ reduce items = .ok tree ∧
      rounds? (items.length / 2) items = some [.operand tree] := by
  obtain ⟨chain, rfl⟩ := halt.exists_chain
  have hops' : chain.HasSetOperations := fun link hlink =>
    hops link.1 (by simp only [Chain.items]; simpa using ⟨link.2, hlink⟩)
  have hlength : chain.items.length / 2 = chain.links.length := by
    rw [Chain.length_items]
    omega
  rw [hlength]
  exact ⟨chain.collapse, Chain.joinLevels?_items chain, reduce_items chain,
    Chain.rounds?_items hops'⟩

/-- In `a∪b⊕c-d` the symmetric difference is joined first, and the others from the left. -/
theorem reduce_union_symmDiff_diff :
    reduce [.operand (.leaf ['a']), .operator .union, .operand (.leaf ['b']), .operator .symmDiff,
      .operand (.leaf ['c']), .operator .diff, .operand (.leaf ['d'])] =
    .ok (.binary .diff
      (.binary .union (.leaf ['a']) (.binary .symmDiff (.leaf ['b']) (.leaf ['c'])))
      (.leaf ['d'])) := by
  have halt : Alternates [.operand (.leaf ['a']), .operator .union, .operand (.leaf ['b']),
      .operator .symmDiff, .operand (.leaf ['c']), .operator .diff, .operand (.leaf ['d'])] :=
    ⟨by decide, by decide⟩
  obtain ⟨tree, hlevels, hreduce, -⟩ :=
    reduce_of_alternates halt (by simp [Operator.IsSetOperation])
  cases hlevels
  exact hreduce

end VoxelAlgebra.Equation
