import VoxelAlgebra.Proofs.Equation.Reduction
import VoxelAlgebra.Proofs.Equation.Resolution

/-!
# Rendered trees

A tree is rendered with every group written out. The text of a finished tree to which no set
identity applies is accepted, and building it again gives the nested lists of the same tree: no
operator competes with another one in its group, and no joining of its sides changes anything. The
tree of an accepted equation is of this form, so it survives being rendered and built.

## Main definitions

* `Node.IsIrreducible` — finished trees with names, in which no set identity applies.
* `Node.IsIrreducible.exists_isRead` — the tokens of the rendered tree are read as the tree.
* `buildTree_render` — a rendered tree is accepted and has the nested lists of the tree.
-/

namespace VoxelAlgebra.Equation

/-! ## Irreducible trees -/

/-- A tree of names, constants and set operations, in which joining the two sides of an operation
gives that operation. -/
inductive Node.IsIrreducible : Node → Prop
  | name {a : List Char} : a ≠ [] → (∀ c ∈ a, isNameChar c) → IsIrreducible (leaf a)
  | universal : IsIrreducible universal
  | null : IsIrreducible null
  | binary {op : Operator} {l r : Node} : op.IsSetOperation → IsIrreducible l → IsIrreducible r →
    l.combine op r = binary op l r → IsIrreducible (binary op l r)

namespace Node

variable {t l r : Node} {b : Bool} {op : Operator}

theorem IsOperand.ne_null (h : t.IsOperand b) : t ≠ .null := by
  rintro rfl
  cases h with
  | name _ hn => exact hn rfl

theorem IsOperand.ne_universal (h : t.IsOperand false) : t ≠ .universal := by
  rintro rfl
  cases h with
  | name hu _ => exact hu rfl

/-- Between sides that may stand there no identity applies. -/
theorem combine_eq_binary (hop : op.IsSetOperation) (hne : l ≠ r)
    (hl : l.IsOperand op.keepsUniversalLeft) (hr : r.IsOperand op.keepsUniversalRight) :
    l.combine op r = binary op l r := by
  have hln := hl.ne_null
  have hrn := hr.ne_null
  cases op with
  | union | inter =>
    have hlu := hl.ne_universal
    have hru := hr.ne_universal
    simp [combine, hne, hln, hrn, hlu, hru]
  | diff =>
    have hru := hr.ne_universal
    simp [combine, hne, hln, hrn, hru]
  | symmDiff => simp [combine, hne, hln, hrn]
  | unknown => exact hop.elim

variable {α : Type*} {U A : Set α} {σ : String → Option (Set α)}

/-- A reduced tree whose names stand for sets, where only names do. -/
theorem IsOperand.isIrreducible (h : t.IsOperand b) (ht : t.Evaluates U σ A)
    (hσ : ∀ name B, σ name = some B → IsName name) : t.IsIrreducible := by
  induction h generalizing A with
  | universal => exact .universal
  | name hu hn =>
    cases ht with
    | universal => exact absurd rfl hu
    | null => exact absurd rfl hn
    | name _ _ hA =>
      have hname := hσ _ _ hA
      exact .name (by simpa using hname.1) (by simpa using hname.2)
  | binary hop hne hl hr ihl ihr =>
    cases ht with
    | binary _ hA hB => exact .binary hop (ihl hA) (ihr hB) (combine_eq_binary hop hne hl hr)

theorem IsReduced.isIrreducible (h : t.IsReduced) (ht : t.Evaluates U σ A)
    (hσ : ∀ name B, σ name = some B → IsName name) : t.IsIrreducible := by
  rcases h with rfl | h
  · exact .null
  · exact h.isIrreducible ht hσ

namespace IsIrreducible

theorem isReduced (h : t.IsIrreducible) : t.IsReduced := by
  induction h with
  | name | universal | null => exact isReduced_leaf _
  | binary hop _ _ hcombine ihl ihr =>
    rw [← hcombine]
    exact ihl.combine hop ihr

/-! ## Rendered texts -/

theorem notMem_negation_render (h : t.IsIrreducible) : Symbol.negation ∉ t.render := by
  induction h with
  | name _ hname => exact fun hmem => by simpa using hname _ hmem
  | universal | null => decide
  | @binary op l r hop _ _ _ ihl ihr =>
    have hsign : Symbol.negation ∉ op.sign := by
      cases op with
      | union | inter | diff | symmDiff => decide
      | unknown => exact hop.elim
    have hopening : Symbol.negation ≠ Symbol.opening := by decide
    have hclosing : Symbol.negation ≠ Symbol.closing := by decide
    simp [render, ihl, ihr, hsign, hopening, hclosing]

/-- A rendered tree is a name, a constant or a group. -/
theorem derives (h : t.IsIrreducible) : Derives .atom t.render := by
  induction h with
  | name hne hname => exact .name hne hname
  | universal => exact .universal
  | null => exact .null
  | @binary op l r hop _ _ _ ihl ihr =>
    obtain ⟨c, hc⟩ : ∃ c : Connective, c.text = op.sign := by
      cases op with
      | union => exact ⟨.union, rfl⟩
      | inter => exact ⟨.inter, rfl⟩
      | diff => exact ⟨.diff, rfl⟩
      | symmDiff => exact ⟨.symmDiff, rfl⟩
      | unknown => exact hop.elim
    rw [render, ← hc]
    exact .group (.join c (.signed (.negations 0 ihl)) (.negations 0 ihr))

/-- The tokens of a rendered tree are an operand, and that operand is the tree. -/
theorem exists_isRead (h : t.IsIrreducible) :
    ∃ ts, IsRead ts ⟨t, []⟩ ∧
      ∀ rest, EndsName rest → tokenize (t.render ++ rest) = ts ++ tokenize rest := by
  induction h with
  | @name a hne hname =>
    have hoperand : operand a = .ok (.leaf a) := operand_name (s := []) nofun hne hname
    refine ⟨[a], .operand (isOperandToken_name [] hne hname) hoperand, fun rest hrest => ?_⟩
    exact tokenize_name (s := []) nofun hne hname hrest
  | universal =>
    exact ⟨[[Symbol.universal]], .operand ⟨rfl, rfl, rfl⟩ rfl,
      fun rest _ => tokenize_sign rest (.inl rfl)⟩
  | null =>
    exact ⟨[[Symbol.null]], .operand ⟨rfl, rfl, rfl⟩ rfl,
      fun rest _ => tokenize_sign rest (.inl rfl)⟩
  | @binary op l r hop _ _ hcombine ihl ihr =>
    obtain ⟨ts, hread, htok⟩ := ihl
    obtain ⟨us, hread', hutok⟩ := ihr
    have hinner := hread.join op hop hread'
    -- the group holds one link, so its two sides are joined and nothing else is
    have hcollapse : (Chain.mk l [(op, r)]).collapse = Node.binary op l r := by
      rw [Chain.collapse, dif_neg (List.cons_ne_nil _ _)]
      simpa [Chain.joinAt, Chain.strongest, Chain.strongestFrom] using hcombine
    have hopener : isOpener [Symbol.opening] := rfl
    refine ⟨_, hinner.group hopener (congrArg _ hcollapse), fun rest _ => ?_⟩
    have hclosing : EndsName (Symbol.closing :: rest) := fun c hc => by
      cases hc
      decide
    have hopening := tokenize_negations (s := []) nofun (c := Symbol.opening)
      (l.render ++ (op.sign ++ (r.render ++ Symbol.closing :: rest))) (.inl rfl)
    simp only [List.nil_append] at hopening
    simp only [render, List.append_assoc, List.cons_append, List.nil_append]
    rw [hopening, htok _ (endsName_operator _ hop), tokenize_operator _ hop, hutok _ hclosing,
      tokenize_sign rest (.inr (.inr rfl))]

end IsIrreducible
end Node

/-! ## Building rendered trees -/

/-- A rendered tree is accepted, and its tokens are built to the nested lists of the tree. -/
theorem Node.IsIrreducible.validate_render {t : Node} (h : t.IsIrreducible) :
    ∃ d, flatten t = .ok d ∧ (validate t.render >>= buildTree) = .ok d := by
  have hderives : Derives .expression t.render := .signed (.negations 0 h.derives)
  obtain ⟨d, hd⟩ := h.isReduced.exists_flatten
  refine ⟨d, hd, except_bind_eq_ok.2 ⟨tokenize (simplify t.render), ?_, ?_⟩⟩
  · rw [validate_eq_ok, hderives.dropBlanks]
    exact ⟨.inr hderives, rfl⟩
  · obtain ⟨ts, hread, htok⟩ := h.exists_isRead
    have htokens : tokenize t.render = ts := by simpa using htok [] nofun
    rw [hderives.buildTree_simplify, resolveNegations_of_notMem h.notMem_negation_render, htokens,
      buildTree_of_buildGroup hread.buildGroup, Chain.collapse_single]
    exact hd

/-- The tree of an expression is built, and it is irreducible. -/
theorem Derives.exists_isIrreducible {s : List Char} (h : Derives .expression s) :
    ∃ t, buildGroup (tokenize (simplify s)) = .ok t ∧ t.IsIrreducible := by
  -- only names stand for sets, so the leaves of the tree are names
  classical
  let σ : String → Option (Set Unit) := fun name => if IsName name then some Set.univ else none
  have hσ : ∀ name B, σ name = some B → IsName name := by
    intro name B hB
    by_contra hname
    simp [σ, hname] at hB
  have hsubset : ∀ name B, σ name = some B → B ⊆ Set.univ := fun _ B _ => Set.subset_univ B
  obtain ⟨A, hA⟩ := h.exists_denotes_of_names (U := Set.univ) (σ := σ)
    fun name hname => ⟨Set.univ, if_pos hname.1⟩
  obtain ⟨chain, hread, -, hchain⟩ := (hA.spells hsubset).exists_isRead hsubset
  exact ⟨_, hread.buildGroup, (isReduced_of_buildGroup hread.buildGroup).isIrreducible hchain hσ⟩

/-- The text of an irreducible tree is accepted and has the nested lists of the tree. So rendering
the tree of an accepted equation and building it again gives the same nested lists. -/
theorem buildTree_render :
    (∀ t : Node, t.IsIrreducible →
      ∃ d, flatten t = .ok d ∧ (validate t.render >>= buildTree) = .ok d) ∧
    ∀ (equation : List Char) (tokens : List Token), validate equation = .ok tokens →
      Text.dropBlanks equation ≠ [] →
      ∃ t d, buildGroup tokens = .ok t ∧ buildTree tokens = .ok d ∧
        (validate t.render >>= buildTree) = .ok d := by
  refine ⟨fun t ht => ht.validate_render, fun equation tokens hvalid hne => ?_⟩
  obtain ⟨hderives, rfl⟩ := validate_eq_ok.1 hvalid
  obtain ⟨t, hbuild, ht⟩ := (hderives.resolve_left hne).exists_isIrreducible
  obtain ⟨d, hflatten, hrender⟩ := ht.validate_render
  exact ⟨t, d, hbuild, (buildTree_of_buildGroup hbuild).trans hflatten, hrender⟩

/-- A tree with groups on both sides and constants, and an equation whose negations and constants
are gone from its tree. -/
theorem buildTree_render_groups :
    (∃ d, flatten (.binary .diff (.binary .symmDiff .universal (.leaf ['a']))
        (.binary .inter (.leaf ['b', '1']) (.leaf ['a']))) = .ok d ∧
      (validate (Node.render (.binary .diff (.binary .symmDiff .universal (.leaf ['a']))
        (.binary .inter (.leaf ['b', '1']) (.leaf ['a'])))) >>= buildTree) = .ok d) ∧
    validate "(a ∪ !b) ∩ Ω".toList =
      .ok [['('], ['a'], ['∪'], ['!', 'b'], [')'], ['∩'], ['Ω']] ∧
    Text.dropBlanks "(a ∪ !b) ∩ Ω".toList ≠ [] ∧
    ∃ t d, buildGroup [['('], ['a'], ['∪'], ['!', 'b'], [')'], ['∩'], ['Ω']] = .ok t ∧
      buildTree [['('], ['a'], ['∪'], ['!', 'b'], [')'], ['∩'], ['Ω']] = .ok d ∧
      (validate t.render >>= buildTree) = .ok d := by
  have hname (c : Char) (hc : isNameChar c) : (Node.leaf [c]).IsIrreducible :=
    .name (List.cons_ne_nil _ _) (by simpa using hc)
  have hpair : (Node.leaf ['b', '1']).IsIrreducible := .name (List.cons_ne_nil _ _)
    (List.forall_mem_cons.2 ⟨by decide, List.forall_mem_singleton.2 (by decide)⟩)
  have htree : Node.IsIrreducible (.binary .diff (.binary .symmDiff .universal (.leaf ['a']))
      (.binary .inter (.leaf ['b', '1']) (.leaf ['a']))) := by
    refine .binary trivial (.binary trivial .universal (hname 'a' (by decide)) (by decide))
      (.binary trivial hpair (hname 'a' (by decide)) (by decide)) (by decide)
  have hvalid : validate "(a ∪ !b) ∩ Ω".toList =
      .ok [['('], ['a'], ['∪'], ['!', 'b'], [')'], ['∩'], ['Ω']] := by with_unfolding_all rfl
  have hlength : (Text.dropBlanks "(a ∪ !b) ∩ Ω".toList).length = 8 := by
    with_unfolding_all rfl
  have hne : Text.dropBlanks "(a ∪ !b) ∩ Ω".toList ≠ [] := List.ne_nil_of_length_eq_add_one hlength
  exact ⟨buildTree_render.1 _ htree, hvalid, hne, buildTree_render.2 _ _ hvalid hne⟩

end VoxelAlgebra.Equation
