import VoxelAlgebra.Equation.Tree

/-!
# Collapsing chains by precedence

A chain is collapsed at one operator after the other, always the leftmost of the highest precedence.
The outcome is known in advance: first the operands of every run of `⊕` are joined from the left,
and then what is left of the chain is joined from the left.

## Main definitions

* `Chain.joinRuns` — a chain with its runs of `⊕` joined.
* `Chain.foldLinks` — operands joined from the left.
* `Chain.collapse_eq` — collapsing joins runs and then folds.
* `Chain.items`, `Chain.ofItems?_items` — a chain as members of a group.
-/

namespace VoxelAlgebra.Equation.Chain

/-! ## The strongest link -/

def isSymmDiff (link : Operator × Node) : Bool := link.1 = .symmDiff

theorem strongestFrom_one (best position : Nat) (links : List (Operator × Node)) :
    strongestFrom best 1 position links = best := by
  induction links generalizing position with
  | nil => rfl
  | cons link rest ih =>
    have hle : ¬ 1 < link.1.precedence := by cases link.1 <;> simp [Operator.precedence]
    simp only [strongestFrom, if_neg hle, ih]

theorem strongestFrom_zero (best position : Nat) (links : List (Operator × Node)) :
    strongestFrom best 0 position links =
      ((links.findIdx? isSymmDiff).map (position + ·)).getD best := by
  induction links generalizing position with
  | nil => rfl
  | cons link rest ih =>
    by_cases h : isSymmDiff link
    · have hop : link.1 = .symmDiff := by simpa [isSymmDiff] using h
      simp [strongestFrom, hop, Operator.precedence, strongestFrom_one, List.findIdx?_cons, h]
    · have hop : link.1.precedence = 0 := by
        cases hl : link.1 <;> simp_all [isSymmDiff, Operator.precedence]
      simp only [strongestFrom, hop, Nat.lt_irrefl, if_false, ih, List.findIdx?_cons, h]
      cases rest.findIdx? isSymmDiff with
      | none => rfl
      | some k => simp [Nat.add_assoc, Nat.add_comm 1 k]

/-- Only symmetric differences are stronger than the first link. -/
theorem strongest_eq (links : List (Operator × Node)) :
    strongest links = (links.findIdx? isSymmDiff).getD 0 := by
  cases links with
  | nil => rfl
  | cons link rest =>
    by_cases h : isSymmDiff link
    · have hop : link.1 = .symmDiff := by simpa [isSymmDiff] using h
      simp [strongest, hop, Operator.precedence, strongestFrom_one, List.findIdx?_cons, h]
    · have hop : link.1.precedence = 0 := by
        cases hl : link.1 <;> simp_all [isSymmDiff, Operator.precedence]
      simp only [strongest, hop, strongestFrom_zero, List.findIdx?_cons, h]
      cases rest.findIdx? isSymmDiff with
      | none => rfl
      | some k => simp [Nat.add_comm 1 k]

/-! ## Runs -/

/-- Joins the operands of every run of `⊕`, from the left. -/
def joinRuns : Node → List (Operator × Node) → Chain
  | first, [] => ⟨first, []⟩
  | first, (op, right) :: rest =>
    if op = .symmDiff then joinRuns (first.combine op right) rest
    else
      let joined := joinRuns right rest
      ⟨first, (op, joined.first) :: joined.links⟩

def foldLinks (first : Node) (links : List (Operator × Node)) : Node :=
  links.foldl (fun left link => left.combine link.1 link.2) first

/-- Joining at the first `⊕` is a step in joining the runs. -/
theorem joinRuns_joinAt {k : Nat} (first : Node) {links : List (Operator × Node)}
    (h : links.findIdx? isSymmDiff = some k) :
    joinRuns (joinAt k first links).first (joinAt k first links).links = joinRuns first links := by
  induction links generalizing k first with
  | nil => cases h
  | cons link rest ih =>
    obtain ⟨op, right⟩ := link
    rw [List.findIdx?_cons] at h
    by_cases hop : op = .symmDiff
    · obtain rfl : 0 = k := by simpa [isSymmDiff, hop] using h
      simp [joinAt, joinRuns, hop]
    · obtain ⟨n, hn, rfl⟩ : ∃ n, rest.findIdx? isSymmDiff = some n ∧ n + 1 = k := by
        simpa [isSymmDiff, hop] using h
      simp only [joinAt, joinRuns, if_neg hop, ih right hn]

theorem joinRuns_of_findIdx?_eq_none (first : Node) {links : List (Operator × Node)}
    (h : links.findIdx? isSymmDiff = none) : joinRuns first links = ⟨first, links⟩ := by
  induction links generalizing first with
  | nil => rfl
  | cons link rest ih =>
    obtain ⟨op, right⟩ := link
    rw [List.findIdx?_cons] at h
    by_cases hop : op = .symmDiff
    · simp [isSymmDiff, hop] at h
    · have hrest : rest.findIdx? isSymmDiff = none := by simpa [isSymmDiff, hop] using h
      simp only [joinRuns, if_neg hop, ih right hrest]

/-- Where no `⊕` is left, the first two operands are joined. -/
theorem foldLinks_joinRuns_joinAt_zero (first : Node) {links : List (Operator × Node)}
    (h : links.findIdx? isSymmDiff = none) :
    foldLinks (joinRuns (joinAt 0 first links).first (joinAt 0 first links).links).first
      (joinRuns (joinAt 0 first links).first (joinAt 0 first links).links).links =
    foldLinks first links := by
  cases links with
  | nil => rfl
  | cons link rest =>
    have hrest : rest.findIdx? isSymmDiff = none := by
      simp only [List.findIdx?_eq_none_iff] at h ⊢
      exact fun l hl => h l (List.mem_cons_of_mem link hl)
    rw [joinAt, joinRuns_of_findIdx?_eq_none _ hrest]
    rfl

/-- A chain collapses as its runs and then the rest from the left. -/
theorem collapse_eq (chain : Chain) :
    chain.collapse = foldLinks (joinRuns chain.first chain.links).first
      (joinRuns chain.first chain.links).links := by
  induction chain using Chain.collapse.induct with
  | case1 chain h =>
    rw [Chain.collapse, dif_pos h, h]
    rfl
  | case2 chain h _ ih =>
    rw [Chain.collapse, dif_neg h, ih, strongest_eq]
    cases hfind : chain.links.findIdx? isSymmDiff with
    | some k => rw [Option.getD_some, joinRuns_joinAt _ hfind]
    | none =>
      rw [Option.getD_none, foldLinks_joinRuns_joinAt_zero _ hfind,
        joinRuns_of_findIdx?_eq_none _ hfind]

/-! ## Longer chains -/

theorem joinRuns_run (first : Node) {run : List (Operator × Node)}
    (hrun : ∀ link ∈ run, link.1 = .symmDiff) : joinRuns first run = ⟨foldLinks first run, []⟩ := by
  induction run generalizing first with
  | nil => rfl
  | cons link rest ih =>
    obtain ⟨op, right⟩ := link
    rw [joinRuns, if_pos (hrun _ List.mem_cons_self), ih _ fun l hl => hrun l (by simp [hl])]
    rfl

theorem joinRuns_append_run (first : Node) (links : List (Operator × Node)) {op : Operator}
    (hop : op ≠ .symmDiff) (right : Node) {run : List (Operator × Node)}
    (hrun : ∀ link ∈ run, link.1 = .symmDiff) :
    joinRuns first (links ++ (op, right) :: run) =
      ⟨(joinRuns first links).first,
        (joinRuns first links).links ++ [(op, foldLinks right run)]⟩ := by
  induction links generalizing first with
  | nil => simp [joinRuns, hop, joinRuns_run right hrun]
  | cons link rest ih =>
    obtain ⟨op', right'⟩ := link
    by_cases hop' : op' = .symmDiff
    · simp only [List.cons_append, joinRuns, if_pos hop', ih]
    · simp only [List.cons_append, joinRuns, if_neg hop', ih]

@[simp] theorem collapse_single (node : Node) : (Chain.mk node []).collapse = node := by
  simp [collapse_eq, joinRuns, foldLinks]

/-- A further operand of a run is joined to the run. -/
theorem collapse_concat_symmDiff (first right : Node) {run : List (Operator × Node)}
    (hrun : ∀ link ∈ run, link.1 = .symmDiff) :
    (Chain.mk first (run ++ [(.symmDiff, right)])).collapse =
      (Chain.mk first run).collapse.combine .symmDiff right := by
  have hrun' : ∀ link ∈ run ++ [(Operator.symmDiff, right)], link.1 = .symmDiff := by
    simpa [or_imp, forall_and] using hrun
  simp only [collapse_eq, joinRuns_run _ hrun, joinRuns_run _ hrun']
  simp [foldLinks]

/-- A run behind another operator is joined before that operator. -/
theorem collapse_append_run (first : Node) (links : List (Operator × Node)) {op : Operator}
    (hop : op ≠ .symmDiff) (right : Node) {run : List (Operator × Node)}
    (hrun : ∀ link ∈ run, link.1 = .symmDiff) :
    (Chain.mk first (links ++ (op, right) :: run)).collapse =
      (Chain.mk first links).collapse.combine op (Chain.mk right run).collapse := by
  simp only [collapse_eq, joinRuns_append_run first links hop right hrun, joinRuns_run right hrun]
  simp [foldLinks]

/-! ## Members -/

def items (chain : Chain) : List Item :=
  .operand chain.first :: chain.links.flatMap fun link => [.operator link.1, .operand link.2]

theorem ofItems?_items (chain : Chain) : ofItems? chain.items = some chain := by
  obtain ⟨first, links⟩ := chain
  have hlinks : linksOfItems? (links.flatMap fun link => [.operator link.1, .operand link.2]) =
      some links := by
    induction links with
    | nil => rfl
    | cons link rest ih => simp [linksOfItems?, ih]
  simp [items, ofItems?, hlinks]

end VoxelAlgebra.Equation.Chain
