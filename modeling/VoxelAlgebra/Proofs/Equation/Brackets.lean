import VoxelAlgebra.Proofs.Equation.Reduction

/-!
# Brackets of tokens

Trees can be built from tokens that were not cut from an accepted equation. Such tokens are taken
exactly if they follow the grammar of brackets, in which an operand is any token that does nothing
else:

    expression   atom, or expression operator atom
    atom         operand, or opener expression closer

All other tokens are refused for their brackets or for the order of the members of a group. No
other fault occurs, because negations meet finished trees only.

## Main definitions

* `Bracketed` — the grammar of brackets.
* `Bracketed.exists_isRead` — tokens of the grammar are read as a chain.
* `bracketed_of_buildGroup` — only tokens of the grammar are built.
* `RefusesGroup` — the reports on tokens that form no group.
* `buildTree_iff_bracketed` — which tokens have a tree, and what is reported of the others.
-/

namespace VoxelAlgebra.Equation

inductive Bracketed : Phrase → List Token → Prop
  | atom {ts : List Token} : Bracketed .atom ts → Bracketed .expression ts
  | join {ts us : List Token} {op : Operator} : op.IsSetOperation →
    Bracketed .expression ts → Bracketed .atom us → Bracketed .expression (ts ++ op.sign :: us)
  | operand {token : Token} : IsOperandToken token → Bracketed .atom [token]
  | group {opener : Token} {ts : List Token} : isOpener opener → Bracketed .expression ts →
    Bracketed .atom (opener :: (ts ++ [[Symbol.closing]]))

/-! ## Negations of finished trees -/

namespace Node

variable {n : Node}

/-- A negation is pushed down as far as the leaves, where nothing blocks it. -/
theorem IsOperand.exists_negate {b : Bool} (h : n.IsOperand b) : ∃ m, n.negate = some m := by
  induction h with
  | universal => exact ⟨null, rfl⟩
  | name hu hn => exact ⟨_, by rw [Node.negate, if_neg hu, if_neg hn]⟩
  | @binary _ op l r hop _ _ _ ihl ihr =>
    obtain ⟨l', hl⟩ := ihl
    obtain ⟨r', hr⟩ := ihr
    cases op with
    | union => exact ⟨l'.combine .inter r', by simp [Node.negate, hl, hr]⟩
    | inter => exact ⟨l'.combine .union r', by simp [Node.negate, hl, hr]⟩
    | diff => exact ⟨l'.combine .union r, by simp [Node.negate, hl]⟩
    | symmDiff => exact ⟨_, rfl⟩
    | unknown => exact hop.elim

theorem IsReduced.exists_negated (h : n.IsReduced) : ∃ m, negated n = .ok m := by
  obtain ⟨m, hm⟩ : ∃ m, n.negate = some m := by
    rcases h with rfl | h
    · exact ⟨Node.universal, rfl⟩
    · exact h.exists_negate
  exact ⟨m, by rw [negated, hm]; rfl⟩

theorem IsReduced.exists_enclose (h : n.IsReduced) (opener : Token) (inner : List Token) :
    ∃ m, enclose opener inner n = .ok m := by
  unfold enclose distribute
  split_ifs
  · exact ⟨_, rfl⟩
  · exact h.exists_negated
  · exact ⟨n, rfl⟩

end Node

theorem exists_operand (token : Token) : ∃ node, operand token = .ok node := by
  unfold operand
  dsimp only
  split_ifs
  · exact (Node.isReduced_leaf _).exists_negated
  · exact ⟨_, rfl⟩

/-! ## Tokens of the grammar -/

/-- Tokens of the grammar are read as a chain, and those of an atom as a lone operand. -/
theorem Bracketed.exists_isRead {p : Phrase} {ts : List Token} (h : Bracketed p ts) :
    ∃ chain, IsRead ts chain ∧ chain.IsReduced ∧ (p = .atom → chain.links = []) := by
  induction h with
  | atom _ ih =>
    obtain ⟨chain, hread, hreduced, -⟩ := ih
    exact ⟨chain, hread, hreduced, nofun⟩
  | @join ts us op hop _ _ iht ihu =>
    obtain ⟨chain, hread, hreduced, -⟩ := iht
    obtain ⟨⟨right, links⟩, hread', hreduced', hlinks⟩ := ihu
    obtain rfl : links = [] := hlinks rfl
    refine ⟨_, hread.join op hop hread', ⟨hreduced.first, ?_⟩, nofun⟩
    intro link hlink
    rcases List.mem_append.1 hlink with hlink | hlink
    · exact hreduced.links link hlink
    · obtain rfl := List.mem_singleton.1 hlink
      exact ⟨hop, hreduced'.first⟩
  | @operand token htoken =>
    obtain ⟨node, hnode⟩ := exists_operand token
    exact ⟨⟨node, []⟩, .operand htoken hnode, ⟨isReduced_of_operand hnode, nofun⟩, fun _ => rfl⟩
  | @group opener ts hopener _ ih =>
    obtain ⟨chain, hread, hreduced, -⟩ := ih
    obtain ⟨node, hnode⟩ := hreduced.collapse.exists_enclose opener ts
    have hresult : node.IsReduced := isReduced_of_enclose hnode hreduced.collapse
    exact ⟨⟨node, []⟩, hread.group hopener hnode, ⟨hresult, nofun⟩, fun _ => rfl⟩

/-! ## Tokens that are built -/

/-- A group that is cut off ends with its closing sign. -/
theorem eq_append_of_closeGroup? {depth : Nat} {tokens inner after : List Token}
    (h : closeGroup? depth tokens = some (inner, after)) :
    tokens = inner ++ [Symbol.closing] :: after := by
  induction tokens generalizing depth inner after with
  | nil => cases h
  | cons token rest ih =>
    have keep {d : Nat}
        (h : (closeGroup? d rest).map (Prod.map (token :: ·) id) = some (inner, after)) :
        token :: rest = inner ++ [Symbol.closing] :: after := by
      obtain ⟨⟨inner, after⟩, hclose, heq⟩ := Option.map_eq_some_iff.1 h
      cases heq
      rw [ih hclose]
      rfl
    by_cases hopener : isOpener token
    · rw [closeGroup?_opener _ hopener] at h
      exact keep h
    by_cases hcloser : isCloser token
    · obtain rfl : token = [Symbol.closing] := by simpa [isCloser] using hcloser
      cases depth with
      | zero =>
        cases h
        rfl
      | succ depth => exact keep h
    · rw [closeGroup?_cons _ (by simpa using hopener) (by simpa using hcloser)] at h
      exact keep h

/-- The tokens that the members of a group are read from: an atom for each operand and a sign for
each operator. -/
inductive ReadFrom : List Item → List Token → Prop
  | nil : ReadFrom [] []
  | operand {node : Node} {items : List Item} {us ts : List Token} : Bracketed .atom us →
    ReadFrom items ts → ReadFrom (.operand node :: items) (us ++ ts)
  | operator {op : Operator} {items : List Item} {ts : List Token} : op.IsSetOperation →
    ReadFrom items ts → ReadFrom (.operator op :: items) (op.sign :: ts)

/-- Links extend every expression in front of them. -/
theorem ReadFrom.extends {items : List Item} {links : List (Operator × Node)} {us ts : List Token}
    (h : ReadFrom items ts) (hlinks : Chain.linksOfItems? items = some links)
    (hus : Bracketed .expression us) : Bracketed .expression (us ++ ts) := by
  induction items using Chain.linksOfItems?.induct generalizing links us ts with
  | case1 =>
    cases h
    rwa [List.append_nil]
  | case2 op node rest ih =>
    obtain ⟨links', hlinks', -⟩ := Option.map_eq_some_iff.1 hlinks
    cases h with
    | operator hop h =>
      cases h with
      | operand hatom h =>
        have hjoin := ih h hlinks' (hus.join hop hatom)
        rwa [List.append_assoc, List.cons_append] at hjoin
  | case3 items hne hne' =>
    rw [Chain.linksOfItems?] at hlinks
    · cases hlinks
    · exact hne
    · exact hne'

/-- Members that make a tree are read from an expression. -/
theorem ReadFrom.bracketed {items : List Item} {ts : List Token} {node : Node}
    (h : ReadFrom items ts) (hreduce : reduce items = .ok node) : Bracketed .expression ts := by
  unfold reduce at hreduce
  split at hreduce
  · rename_i chain hchain
    cases h with
    | nil => cases hchain
    | operand hatom h =>
      obtain ⟨links, hlinks, -⟩ := Option.map_eq_some_iff.1 hchain
      exact h.extends hlinks (.atom hatom)
    | operator => cases hchain
  · cases hreduce

theorem readFrom_of_groupItems {group rest : List Token} {items : List Item}
    (h : groupItems group rest = .ok items) : ReadFrom items rest := by
  induction group, rest using groupItems.induct generalizing items with
  | case1 group =>
    rw [groupItems_nil] at h
    cases h
    exact .nil
  | case2 group token behind hopener hclose =>
    rw [groupItems_unclosed hopener hclose] at h
    cases h
  | case3 group token behind hopener inner after hclose _ ihinner ihafter =>
    simp only [groupItems_opener hopener hclose, except_bind_eq_ok] at h
    obtain ⟨tree, htree, node, -, rest, hrest, h⟩ := h
    cases h
    obtain ⟨members, hmembers, hreduce⟩ := except_bind_eq_ok.1 htree
    have hinner : Bracketed .expression inner := (ihinner hmembers).bracketed hreduce
    have hall : ReadFrom (.operand node :: rest) _ :=
      .operand (.group hopener hinner) (ihafter hrest)
    rw [eq_append_of_closeGroup? hclose]
    simpa using hall
  | case4 group token behind hopener hcloser =>
    rw [groupItems_closer hopener hcloser] at h
    cases h
  | case5 group token behind hopener hcloser op hop ih =>
    simp only [groupItems_sign hopener hcloser hop, except_bind_eq_ok] at h
    obtain ⟨rest, hrest, h⟩ := h
    cases h
    obtain ⟨rfl, hset⟩ := Operator.sign_of_ofSign? hop
    exact .operator hset (ih hrest)
  | case6 group token behind hopener hcloser hop ih =>
    have htoken : IsOperandToken token := ⟨by simpa using hopener, by simpa using hcloser, hop⟩
    simp only [groupItems_token htoken, except_bind_eq_ok] at h
    obtain ⟨node, -, rest, hrest, h⟩ := h
    cases h
    exact .operand (.operand htoken) (ih hrest)

theorem bracketed_of_buildGroup {tokens : List Token} {node : Node}
    (h : buildGroup tokens = .ok node) : Bracketed .expression tokens := by
  obtain ⟨items, hitems, hreduce⟩ := except_bind_eq_ok.1 h
  exact (readFrom_of_groupItems hitems).bracketed hreduce

/-! ## Tokens that are refused -/

/-- The reports on tokens that form no group: brackets that do not match, and members out of
order. -/
inductive RefusesGroup : Fault → Prop
  | unbalanced (tokens : List Token) : RefusesGroup (.report (unbalanced tokens))
  | malformed (members : List Item) : RefusesGroup (.report (.malformedLevel (.group members)))

theorem refusesGroup_of_reduce {items : List Item} {fault : Fault}
    (h : reduce items = .error fault) : RefusesGroup fault := by
  unfold reduce at h
  split at h
  · cases h
  · cases h
    exact .malformed items

/-- Operands and inner groups raise no fault of their own. -/
theorem refusesGroup_of_groupItems {group rest : List Token} {fault : Fault}
    (h : groupItems group rest = .error fault) : RefusesGroup fault := by
  induction group, rest using groupItems.induct with
  | case1 group =>
    rw [groupItems_nil] at h
    cases h
  | case2 group token behind hopener hclose =>
    rw [groupItems_unclosed hopener hclose] at h
    cases h
    exact .unbalanced group
  | case3 group token behind hopener inner after hclose _ ihinner ihafter =>
    simp only [groupItems_opener hopener hclose, except_bind_eq_error] at h
    rcases h with h | ⟨tree, htree, h | ⟨node, -, h | ⟨_, -, h⟩⟩⟩
    · rcases except_bind_eq_error.1 h with h | ⟨members, -, h⟩
      · exact ihinner h
      · exact refusesGroup_of_reduce h
    · obtain ⟨node, hnode⟩ := (isReduced_of_buildGroup htree).exists_enclose token inner
      cases hnode.symm.trans h
    · exact ihafter h
    · cases h
  | case4 group token behind hopener hcloser =>
    rw [groupItems_closer hopener hcloser] at h
    cases h
    exact .unbalanced group
  | case5 group token behind hopener hcloser op hop ih =>
    simp only [groupItems_sign hopener hcloser hop, except_bind_eq_error] at h
    rcases h with h | ⟨_, -, h⟩
    · exact ih h
    · cases h
  | case6 group token behind hopener hcloser hop ih =>
    have htoken : IsOperandToken token := ⟨by simpa using hopener, by simpa using hcloser, hop⟩
    simp only [groupItems_token htoken, except_bind_eq_error] at h
    rcases h with h | ⟨node, -, h | ⟨_, -, h⟩⟩
    · obtain ⟨node, hnode⟩ := exists_operand token
      cases hnode.symm.trans h
    · exact ih h
    · cases h

/-! ## The tokens of trees -/

/-- A group is built from the tokens of an expression, and refused from all others. -/
theorem buildGroup_or_refuses (tokens : List Token) :
    (Bracketed .expression tokens ∧ ∃ node, buildGroup tokens = .ok node ∧ node.IsReduced) ∨
    (¬ Bracketed .expression tokens ∧
      ∃ fault, buildGroup tokens = .error fault ∧ RefusesGroup fault) := by
  cases hbuild : buildGroup tokens with
  | ok node =>
    exact .inl ⟨bracketed_of_buildGroup hbuild, node, rfl, isReduced_of_buildGroup hbuild⟩
  | error fault =>
    refine .inr ⟨fun h => ?_, fault, rfl, ?_⟩
    · obtain ⟨chain, hread, -, -⟩ := h.exists_isRead
      cases hbuild.symm.trans hread.buildGroup
    · rcases except_bind_eq_error.1 hbuild with h | ⟨items, -, h⟩
      · exact refusesGroup_of_groupItems h
      · exact refusesGroup_of_reduce h

/-- Tokens have a tree if and only if there are none or they follow the grammar of brackets. All
other tokens are refused for their brackets or for the order of members. -/
theorem buildTree_iff_bracketed (tokens : List Token) :
    ((∃ items, buildTree tokens = .ok (.list items)) ↔
      tokens = [] ∨ Bracketed .expression tokens) ∧
    (¬ (tokens = [] ∨ Bracketed .expression tokens) →
      ∃ fault, buildTree tokens = .error fault ∧ RefusesGroup fault) := by
  rcases eq_or_ne tokens [] with rfl | hne
  · exact ⟨⟨fun _ => .inl rfl, fun _ => ⟨[], rfl⟩⟩, fun h => absurd (.inl rfl) h⟩
  rcases buildGroup_or_refuses tokens with ⟨h, node, hbuild, hreduced⟩ | ⟨h, fault, hbuild, hfault⟩
  · obtain ⟨d, hd⟩ := hreduced.exists_flatten
    obtain ⟨items, rfl⟩ := flatten_eq_list hd
    have htree : buildTree tokens = .ok (.list items) :=
      (buildTree_of_buildGroup hbuild).trans hd
    exact ⟨⟨fun _ => .inr h, fun _ => ⟨items, htree⟩⟩, fun hnot => absurd (.inr h) hnot⟩
  · have htree : buildTree tokens = .error fault := by
      rw [buildTree, if_neg hne, hbuild]
      rfl
    refine ⟨⟨?_, fun hor => absurd (hor.resolve_left hne) h⟩, fun _ => ⟨fault, htree, hfault⟩⟩
    rintro ⟨items, hitems⟩
    cases htree.symm.trans hitems

end VoxelAlgebra.Equation
