import VoxelAlgebra.Report
import VoxelAlgebra.Equation.Token

/-!
# From tokens to trees

Precedence (a higher number binds tighter):

    ( )      3
    !        2
    ⊕        1
    - ∩ ∪    0

Groups are built from the inside out. Within a group the leftmost operator of the highest precedence
is joined first, so operators of one precedence associate to the left. Negations do not stay in the
tree:

    !x          Ω - x
    !Ω, !∅      ∅, Ω
    !(l ∪ r)    !l ∩ !r
    !(l ∩ r)    !l ∪ !r
    !(l - r)    !l ∪ r
    !( ..⊕.. )  Ω - ( ..⊕.. )

## Main definitions

* `closeGroup?` — cuts a group off at its closing sign.
* `Chain`, `Chain.collapse` — operands joined by operators, collapsed by precedence.
* `groupItems`, `buildGroup` — the members of a group, and its tree.
* `Node.toDatum?` — a finished tree as nested lists.
* `buildTree` — the nested lists of a list of tokens.
-/

namespace VoxelAlgebra.Equation

/-! ## Token roles -/

/-- A token that ends with an opening sign begins a group. -/
def isOpener (token : Token) : Bool := token.getLast? = some Symbol.opening

def isCloser (token : Token) : Bool := token = [Symbol.closing]

/-- The tokens of a group whose opener has just been read while `depth` inner groups are open, and
the tokens behind its closing sign. -/
def closeGroup? (depth : Nat) : List Token → Option (List Token × List Token)
  | [] => none
  | token :: rest =>
    if isOpener token then
      (closeGroup? (depth + 1) rest).map fun (inner, behind) => (token :: inner, behind)
    else if isCloser token then
      match depth with
      | 0 => some ([], rest)
      | d + 1 => (closeGroup? d rest).map fun (inner, behind) => (token :: inner, behind)
    else (closeGroup? depth rest).map fun (inner, behind) => (token :: inner, behind)

theorem length_of_closeGroup? {depth : Nat} {tokens inner behind : List Token}
    (h : closeGroup? depth tokens = some (inner, behind)) :
    inner.length + behind.length < tokens.length := by
  induction tokens generalizing depth inner behind with
  | nil => simp [closeGroup?] at h
  | cons token rest ih =>
    simp only [closeGroup?] at h
    split at h
    · simp only [Option.map_eq_some_iff, Prod.mk.injEq, Prod.exists] at h
      obtain ⟨i, b, hi, rfl, rfl⟩ := h
      have := ih hi
      simp only [List.length_cons]; omega
    split at h
    · cases depth with
      | zero => simp at h; obtain ⟨rfl, rfl⟩ := h; simp
      | succ d =>
        simp only [Option.map_eq_some_iff, Prod.mk.injEq, Prod.exists] at h
        obtain ⟨i, b, hi, rfl, rfl⟩ := h
        have := ih hi
        simp only [List.length_cons]; omega
    · simp only [Option.map_eq_some_iff, Prod.mk.injEq, Prod.exists] at h
      obtain ⟨i, b, hi, rfl, rfl⟩ := h
      have := ih hi
      simp only [List.length_cons]; omega

/-- A group whose signs do not match, with the number of each in it. -/
def unbalanced (tokens : List Token) : Report :=
  .unbalancedGrouping (tokens.countP isOpener) (tokens.countP isCloser)
    (String.ofList tokens.flatten) none

/-! ## Chains -/

/-- Operands joined by operators: a first operand, then each operator with its right operand. -/
structure Chain where
  first : Node
  links : List (Operator × Node)
  deriving DecidableEq, Repr

namespace Chain

/-- The links behind a first operand; operators and operands have to alternate. -/
def linksOfItems? : List Item → Option (List (Operator × Node))
  | [] => some []
  | .operator op :: .operand node :: rest => (linksOfItems? rest).map ((op, node) :: ·)
  | _ => none

def ofItems? : List Item → Option Chain
  | .operand node :: rest => (linksOfItems? rest).map (⟨node, ·⟩)
  | _ => none

/-- The position of the leftmost link of the highest precedence, among the links behind the one at
`best`, whose precedence is `level`. -/
def strongestFrom (best level : Nat) (position : Nat) : List (Operator × Node) → Nat
  | [] => best
  | (op, _) :: rest =>
    if level < op.precedence then strongestFrom position op.precedence (position + 1) rest
    else strongestFrom best level (position + 1) rest

def strongest : List (Operator × Node) → Nat
  | [] => 0
  | (op, _) :: rest => strongestFrom 0 op.precedence 1 rest

def joinAt : Nat → Node → List (Operator × Node) → Chain
  | _, first, [] => ⟨first, []⟩
  | 0, first, (op, right) :: rest => ⟨first.combine op right, rest⟩
  | n + 1, first, (op, right) :: rest =>
    let joined := joinAt n right rest
    ⟨first, (op, joined.first) :: joined.links⟩

theorem length_links_joinAt (n : Nat) (first : Node) (links : List (Operator × Node))
    (h : n < links.length) : (joinAt n first links).links.length + 1 = links.length := by
  induction links generalizing n first with
  | nil => simp at h
  | cons link rest ih =>
    obtain ⟨op, right⟩ := link
    cases n with
    | zero => simp [joinAt]
    | succ n => simpa [joinAt] using ih n right (by simpa using h)

theorem strongestFrom_lt (best level position : Nat) (links : List (Operator × Node))
    (h : best < position) : strongestFrom best level position links < position + links.length := by
  induction links generalizing best level position with
  | nil => simpa [strongestFrom] using h
  | cons link rest ih =>
    simp only [strongestFrom, List.length_cons]
    split
    · have := ih position link.1.precedence (position + 1) (Nat.lt_add_one position)
      omega
    · have := ih best level (position + 1) (Nat.lt_add_right 1 h)
      omega

theorem strongest_lt {links : List (Operator × Node)} (h : links ≠ []) :
    strongest links < links.length := by
  cases links with
  | nil => exact absurd rfl h
  | cons link rest =>
    have := strongestFrom_lt 0 link.1.precedence 1 rest Nat.one_pos
    simp only [strongest, List.length_cons]; omega

/-- Joins operands until one is left, always at the leftmost operator of the highest precedence. -/
def collapse (chain : Chain) : Node :=
  if h : chain.links = [] then chain.first
  else
    have := length_links_joinAt _ chain.first _ (strongest_lt h)
    (joinAt (strongest chain.links) chain.first chain.links).collapse
termination_by chain.links.length

end Chain

/-- The tree of a group. Operands and operators have to alternate, with an operand at both ends. -/
def reduce (items : List Item) : Except Fault Node :=
  match Chain.ofItems? items with
  | some chain => pure chain.collapse
  | none => throw (.report <| .malformedLevel (.group items))

/-! ## Operands and groups -/

def negated (node : Node) : Except Fault Node :=
  match node.negate with
  | some result => pure result
  | none => throw .blockedNegation

/-- An operand with the negations in front of it; every second negation cancels. -/
def operand (token : Token) : Except Fault Node :=
  let name := token.dropWhile (· = Symbol.negation)
  if (token.length - name.length) % 2 = 1 then negated (.leaf name) else pure (.leaf name)

/-- Distributes a waiting negation. A group that holds a symmetric difference is subtracted from Ω
as a whole. -/
def distribute (operand : Node) (hasSymmDiff : Bool) : Except Fault Node :=
  if hasSymmDiff then pure (Node.universal.combine .diff operand) else negated operand

def enclose (opener : Token) (inner : List Token) (node : Node) : Except Fault Node :=
  if (opener.length - 1) % 2 = 1 then distribute node (inner.contains [Symbol.symmDiff])
  else pure node

/-- The members of a group, read from `rest`; `group` is the whole group, for reports. -/
def groupItems (group rest : List Token) : Except Fault (List Item) :=
  match rest with
  | [] => pure []
  | token :: behind =>
    if isOpener token then
      match h : closeGroup? 0 behind with
      | none => throw (.report (unbalanced group))
      | some (inner, after) => do
        have := length_of_closeGroup? h
        let members ← groupItems inner inner
        let node ← enclose token inner (← reduce members)
        return .operand node :: (← groupItems group after)
    else if isCloser token then throw (.report (unbalanced group))
    else
      match Operator.ofSign? token with
      | some op => do return .operator op :: (← groupItems group behind)
      | none => do
        let node ← operand token
        return .operand node :: (← groupItems group behind)
termination_by rest.length

def buildGroup (tokens : List Token) : Except Fault Node := do
  reduce (← groupItems tokens tokens)

/-! ## Nested lists -/

namespace Node

def toInnerDatum? : Node → Option Datum
  | leaf name => some (.text (String.ofList name))
  | binary op left right => do
    let l ← toInnerDatum? left
    let r ← toInnerDatum? right
    return .list [l, .text (String.ofList op.sign), r]
  | waiting _ _ => none

/-- A finished tree as nested lists; a lone operand becomes a list of one. -/
def toDatum? : Node → Option Datum
  | leaf name => some (.list [.text (String.ofList name)])
  | node => node.toInnerDatum?

end Node

def flatten (node : Node) : Except Fault Datum :=
  match node.toDatum? with
  | some d => pure d
  | none => throw .wrongShape

/-- The nested lists of a list of tokens; no tokens give the empty list. -/
def buildTree (tokens : List Token) : Except Fault Datum :=
  if tokens = [] then pure (.list []) else do flatten (← buildGroup tokens)

end VoxelAlgebra.Equation
