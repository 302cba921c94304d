import VoxelAlgebra.Proofs.Edit.Outcome
import VoxelAlgebra.Proofs.Equation.Meaning

/-!
# Reduced trees

Operands are joined through the set identities, so a tree that was built has no operation whose
result is known beforehand: its two sides differ, ∅ stands for itself only, and Ω is a side only
where it decides nothing. Negations are pushed down by joining again, so they keep this up.

## Main definitions

* `Node.IsOperand`, `Node.IsReduced` — trees to which no set identity applies.
* `Node.IsReduced.combine`, `Node.IsReduced.negate` — joining and negating keep trees reduced.
* `isReduced_of_buildGroup` — whatever tokens a tree is built from, it is reduced.
* `Datum.IsReduced` — reduced trees as nested lists.
-/

namespace VoxelAlgebra

namespace Equation

namespace Operator

def keepsUniversalLeft : Operator → Bool
  | diff | symmDiff => true
  | _ => false

def keepsUniversalRight : Operator → Bool
  | symmDiff => true
  | _ => false

end Operator

/-! ## Trees -/

namespace Node

/-- A side of an operation: a name, an operation on different sides, or Ω where that may stand. -/
inductive IsOperand : Bool → Node → Prop
  | universal : IsOperand true universal
  | name {b : Bool} {name : List Char} :
    name ≠ [Symbol.universal] → name ≠ [Symbol.null] → IsOperand b (leaf name)
  | binary {b : Bool} {op : Operator} {l r : Node} : op.IsSetOperation → l ≠ r →
    IsOperand op.keepsUniversalLeft l → IsOperand op.keepsUniversalRight r →
    IsOperand b (binary op l r)

/-- A tree to which no set identity applies. -/
def IsReduced (n : Node) : Prop := n = null ∨ n.IsOperand true

variable {n l r m : Node} {b : Bool} {op : Operator}

theorem IsOperand.isReduced (h : n.IsOperand b) : n.IsReduced := by
  cases h with
  | universal => exact .inr .universal
  | name hu hn => exact .inr (.name hu hn)
  | binary hop hne hl hr => exact .inr (.binary hop hne hl hr)

/-- Anything but Ω can stand on every side. -/
theorem IsOperand.of_ne (h : n.IsOperand true) (hu : n ≠ .universal) : n.IsOperand b := by
  cases h with
  | universal => exact absurd rfl hu
  | name hname hn => exact .name hname hn
  | binary hop hne hl hr => exact .binary hop hne hl hr

theorem isReduced_leaf (name : List Char) : (leaf name).IsReduced := by
  by_cases hn : name = [Symbol.null]
  · exact .inl (by rw [hn])
  by_cases hu : name = [Symbol.universal]
  · rw [hu]
    exact .inr .universal
  · exact .inr (.name hu hn)

namespace IsReduced

theorem null : Node.null.IsReduced := .inl rfl

theorem universal : Node.universal.IsReduced := .inr .universal

/-- A reduced tree that is not ∅ is a side, also where Ω may not stand if it is not Ω. -/
theorem isOperand (h : n.IsReduced) (hn : n ≠ .null) (hu : b = true ∨ n ≠ .universal) :
    n.IsOperand b := by
  obtain rfl | hu := hu
  · exact h.resolve_left hn
  · exact (h.resolve_left hn).of_ne hu

theorem isOperand_of_binary (h : (binary op l r).IsReduced) : (binary op l r).IsOperand true := by
  obtain hnull | hoperand := h
  · cases hnull
  · exact hoperand

theorem combine_self (h : n.IsReduced) : (n.combine op n).IsReduced := by
  unfold Node.combine
  rw [if_pos rfl]
  split_ifs
  · exact h
  · exact null

theorem combine_inter (hne : l ≠ r) (hl : l.IsReduced) (hr : r.IsReduced) :
    (l.combine .inter r).IsReduced := by
  rw [Node.combine, if_neg hne]
  split_ifs with h hlu hru
  · exact null
  · exact hr
  · exact hl
  · rw [not_or] at h
    exact .inr (.binary trivial hne (hl.isOperand h.1 (.inr hlu)) (hr.isOperand h.2 (.inr hru)))

theorem combine_union (hne : l ≠ r) (hl : l.IsReduced) (hr : r.IsReduced) :
    (l.combine .union r).IsReduced := by
  rw [Node.combine, if_neg hne]
  split_ifs with h hln hrn
  · exact universal
  · exact hr
  · exact hl
  · rw [not_or] at h
    exact .inr (.binary trivial hne (hl.isOperand hln (.inr h.1)) (hr.isOperand hrn (.inr h.2)))

theorem combine_symmDiff (hne : l ≠ r) (hl : l.IsReduced) (hr : r.IsReduced) :
    (l.combine .symmDiff r).IsReduced := by
  rw [Node.combine, if_neg hne]
  split_ifs with hln hrn
  · exact hr
  · exact hl
  · exact .inr (.binary trivial hne (hl.isOperand hln (.inl rfl)) (hr.isOperand hrn (.inl rfl)))

theorem combine_diff (hne : l ≠ r) (hl : l.IsReduced) (hr : r.IsReduced) :
    (l.combine .diff r).IsReduced := by
  rw [Node.combine, if_neg hne]
  split_ifs with h hrn
  · exact null
  · exact hl
  · rw [not_or] at h
    exact .inr (.binary trivial hne (hl.isOperand h.1 (.inl rfl)) (hr.isOperand hrn (.inr h.2)))

/-- Joining reduced operands gives a reduced tree, because every identity is applied there. -/
theorem combine (hop : op.IsSetOperation) (hl : l.IsReduced) (hr : r.IsReduced) :
    (l.combine op r).IsReduced := by
  obtain rfl | hne := eq_or_ne l r
  · exact hl.combine_self
  · cases op with
    | union => exact hl.combine_union hne hr
    | inter => exact hl.combine_inter hne hr
    | diff => exact hl.combine_diff hne hr
    | symmDiff => exact hl.combine_symmDiff hne hr
    | unknown => exact hop.elim

/-- Pushing a negation down gives a reduced tree. -/
theorem negate (h : n.IsReduced) (hm : n.negate = some m) : m.IsReduced := by
  induction n generalizing m with
  | leaf name =>
    simp only [Node.negate] at hm
    split_ifs at hm with hu hn <;> cases hm
    · exact null
    · exact universal
    · refine .inr (.binary trivial ?_ .universal (.name hu hn))
      exact fun heq => hu (Node.leaf.inj heq).symm
  | binary op l r ihl ihr =>
    cases h.isOperand_of_binary with
    | binary hop hne hl hr =>
      cases op with
      | union | inter =>
        simp only [Node.negate, Option.bind_eq_bind, Option.bind_eq_some_iff] at hm
        obtain ⟨l', hl', r', hr', hm⟩ := hm
        cases hm
        exact (ihl hl.isReduced hl').combine trivial (ihr hr.isReduced hr')
      | diff =>
        simp only [Node.negate, Option.bind_eq_bind, Option.bind_eq_some_iff] at hm
        obtain ⟨l', hl', hm⟩ := hm
        cases hm
        exact (ihl hl.isReduced hl').combine trivial hr.isReduced
      | symmDiff =>
        cases hm
        exact universal.combine trivial h
      | unknown => exact hop.elim
  | waiting => cases hm

end IsReduced
end Node

/-! ## Chains and groups -/

structure Chain.IsReduced (chain : Chain) : Prop where
  first : chain.first.IsReduced
  links : ∀ link ∈ chain.links, link.1.IsSetOperation ∧ link.2.IsReduced

namespace Chain.IsReduced

theorem joinAt {k : Nat} {first : Node} {links : List (Operator × Node)}
    (h : Chain.IsReduced ⟨first, links⟩) : (Chain.joinAt k first links).IsReduced := by
  induction links generalizing k first with
  | nil => cases k <;> exact h
  | cons link rest ih =>
    obtain ⟨op, right⟩ := link
    obtain ⟨⟨hop, hright⟩, hrest⟩ := List.forall_mem_cons.1 h.links
    cases k with
    | zero => exact ⟨h.first.combine hop hright, hrest⟩
    | succ k =>
      have hjoined := ih (k := k) ⟨hright, hrest⟩
      exact ⟨h.first, List.forall_mem_cons.2 ⟨⟨hop, hjoined.first⟩, hjoined.links⟩⟩

/-- Every step of the collapse joins two operands. -/
theorem collapse {chain : Chain} (h : chain.IsReduced) : chain.collapse.IsReduced := by
  induction chain using Chain.collapse.induct with
  | case1 chain hlinks =>
    rw [Chain.collapse, dif_pos hlinks]
    exact h.first
  | case2 chain hlinks _ ih =>
    rw [Chain.collapse, dif_neg hlinks]
    exact ih h.joinAt

end Chain.IsReduced

def Item.IsReduced : Item → Prop
  | .operand node => node.IsReduced
  | .operator op => op.IsSetOperation

theorem isReduced_of_linksOfItems? {items : List Item} {links : List (Operator × Node)}
    (h : Chain.linksOfItems? items = some links) (hitems : ∀ item ∈ items, item.IsReduced) :
    ∀ link ∈ links, link.1.IsSetOperation ∧ link.2.IsReduced := by
  induction items using Chain.linksOfItems?.induct generalizing links with
  | case1 =>
    cases h
    exact fun link hlink => absurd hlink List.not_mem_nil
  | case2 op node rest ih =>
    obtain ⟨links', hlinks, rfl⟩ := Option.map_eq_some_iff.1 h
    obtain ⟨hop, hnode, hrest⟩ := by simpa only [List.forall_mem_cons] using hitems
    exact List.forall_mem_cons.2 ⟨⟨hop, hnode⟩, ih hlinks hrest⟩
  | case3 items hne hne' =>
    rw [Chain.linksOfItems?] at h
    · cases h
    · exact hne
    · exact hne'

theorem isReduced_of_ofItems? {items : List Item} {chain : Chain}
    (h : Chain.ofItems? items = some chain) (hitems : ∀ item ∈ items, item.IsReduced) :
    chain.IsReduced := by
  unfold Chain.ofItems? at h
  split at h
  · obtain ⟨links, hlinks, rfl⟩ := Option.map_eq_some_iff.1 h
    obtain ⟨hfirst, hrest⟩ := List.forall_mem_cons.1 hitems
    exact ⟨hfirst, isReduced_of_linksOfItems? hlinks hrest⟩
  · cases h

theorem isReduced_of_reduce {items : List Item} {node : Node} (h : reduce items = .ok node)
    (hitems : ∀ item ∈ items, item.IsReduced) : node.IsReduced := by
  unfold reduce at h
  split at h
  · cases h
    exact (isReduced_of_ofItems? ‹_› hitems).collapse
  · cases h

theorem isReduced_of_negated {n m : Node} (h : negated n = .ok m) (hn : n.IsReduced) :
    m.IsReduced := by
  unfold negated at h
  split at h
  · cases h
    exact hn.negate ‹_›
  · cases h

theorem isReduced_of_operand {token : Token} {node : Node} (h : operand token = .ok node) :
    node.IsReduced := by
  unfold operand at h
  dsimp only at h
  split_ifs at h
  · exact isReduced_of_negated h (Node.isReduced_leaf _)
  · cases h
    exact Node.isReduced_leaf _

theorem isReduced_of_enclose {opener : Token} {inner : List Token} {n m : Node}
    (h : enclose opener inner n = .ok m) (hn : n.IsReduced) : m.IsReduced := by
  unfold enclose distribute at h
  split_ifs at h
  · cases h
    exact Node.IsReduced.universal.combine trivial hn
  · exact isReduced_of_negated h hn
  · cases h
    exact hn

/-- Whatever the tokens are, the members of a group are reduced, and inner groups with them. -/
theorem isReduced_of_groupItems {group rest : List Token} {items : List Item}
    (h : groupItems group rest = .ok items) : ∀ item ∈ items, item.IsReduced := by
  induction group, rest using groupItems.induct generalizing items with
  | case1 group =>
    rw [groupItems] at h
    cases h
    exact fun item hitem => absurd hitem List.not_mem_nil
  | case2 group token behind hopener hclose =>
    rw [groupItems_unclosed hopener hclose] at h
    cases h
  | case3 group token behind hopener inner after hclose _ ihinner ihafter =>
    simp only [groupItems_opener hopener hclose, except_bind_eq_ok] at h
    obtain ⟨tree, htree, node, hnode, rest, hrest, h⟩ := h
    cases h
    obtain ⟨members, hmembers, hreduce⟩ := except_bind_eq_ok.1 htree
    have htree := isReduced_of_reduce hreduce (ihinner hmembers)
    exact List.forall_mem_cons.2 ⟨isReduced_of_enclose hnode htree, ihafter hrest⟩
  | case4 group token behind hopener hcloser =>
    rw [groupItems_closer hopener hcloser] at h
    cases h
  | case5 group token behind hopener hcloser op hop ih =>
    simp only [groupItems_sign hopener hcloser hop, except_bind_eq_ok] at h
    obtain ⟨rest, hrest, h⟩ := h
    cases h
    exact List.forall_mem_cons.2 ⟨(Operator.sign_of_ofSign? hop).2, ih hrest⟩
  | case6 group token behind hopener hcloser hop ih =>
    have htoken : IsOperandToken token := ⟨by simpa using hopener, by simpa using hcloser, hop⟩
    simp only [groupItems_token htoken, except_bind_eq_ok] at h
    obtain ⟨node, hnode, rest, hrest, h⟩ := h
    cases h
    exact List.forall_mem_cons.2 ⟨isReduced_of_operand hnode, ih hrest⟩

/-- Whatever the tokens are, the tree of a group is reduced. -/
theorem isReduced_of_buildGroup {tokens : List Token} {node : Node}
    (h : buildGroup tokens = .ok node) : node.IsReduced := by
  obtain ⟨items, hitems, hreduce⟩ := except_bind_eq_ok.1 h
  exact isReduced_of_reduce hreduce (isReduced_of_groupItems hitems)

end Equation

/-! ## Nested lists -/

open Equation (Node Operator)

namespace Datum

/-- Nested lists of a side of an operation, with names that satisfy `p`. -/
inductive IsOperand (p : String → Prop) : Bool → Datum → Prop
  | universal : IsOperand p true (.text "Ω")
  | name {b : Bool} {s : String} : s ≠ "Ω" → s ≠ "∅" → p s → IsOperand p b (.text s)
  | binary {b : Bool} {l r : Datum} {sign : String} {op : Operator} :
    Operator.ofSign? sign.toList = some op → l ≠ r →
    IsOperand p op.keepsUniversalLeft l → IsOperand p op.keepsUniversalRight r →
    IsOperand p b (.list [l, .text sign, r])

/-- A list of one name or constant, or nested lists of three: on every level an operator between
sides that differ, none of which is ∅, with Ω only on the left of `-` and on the sides of `⊕`. -/
inductive IsReduced (p : String → Prop) : Datum → Prop
  | lone {s : String} : s = "Ω" ∨ s = "∅" ∨ p s → IsReduced p (.list [.text s])
  | operation {items : List Datum} : IsOperand p false (.list items) → IsReduced p (.list items)

variable {α : Type*} {U A : Set α} {σ : String → Option (Set α)} {p q : String → Prop} {b : Bool}
  {d : Datum}

/-- The names of a tree that stands for a set stand for sets. -/
theorem IsOperand.of_evaluates (h : d.IsOperand p b) (hd : d.Evaluates U σ A)
    (hσ : ∀ s B, σ s = some B → q s) : d.IsOperand q b := by
  induction h generalizing A with
  | universal => exact .universal
  | @name b s hu hn _ =>
    obtain ⟨hs, -⟩ | ⟨hs, -⟩ | ⟨-, -, hs⟩ := Datum.evaluates_text_iff.1 hd
    · exact absurd hs hu
    · exact absurd hs hn
    · exact .name hu hn (hσ s A hs)
  | binary hop hne _ _ ihl ihr =>
    cases hd with
    | binary _ hl hr => exact .binary hop hne (ihl hl) (ihr hr)

theorem IsReduced.of_evaluates (h : d.IsReduced p) (hd : d.Evaluates U σ A)
    (hσ : ∀ s B, σ s = some B → q s) : d.IsReduced q := by
  cases h with
  | lone hs =>
    cases hd with
    | lone hd =>
      obtain ⟨hs, -⟩ | ⟨hs, -⟩ | ⟨-, -, hs⟩ := Datum.evaluates_text_iff.1 hd
      · exact .lone (.inl hs)
      · exact .lone (.inr (.inl hs))
      · exact .lone (.inr (.inr (hσ _ _ hs)))
  | operation h => exact .operation (h.of_evaluates hd hσ)

end Datum

namespace Equation

/-- Operations with a meaning are known by their signs. -/
theorem Operator.sign_injective {op op' : Operator} (h : op.IsSetOperation)
    (h' : op'.IsSetOperation) (heq : op.sign = op'.sign) : op = op' :=
  Option.some.inj ((ofSign?_sign h).symm.trans (heq ▸ ofSign?_sign h'))

namespace Node

variable {n l r : Node} {b b' : Bool}

theorem toInnerDatum?_binary {op : Operator} {d : Datum} :
    (binary op l r).toInnerDatum? = some d ↔ ∃ dl dr, l.toInnerDatum? = some dl ∧
      r.toInnerDatum? = some dr ∧ d = .list [dl, .text (String.ofList op.sign), dr] := by
  simp only [toInnerDatum?, Option.bind_eq_bind, Option.bind_eq_some_iff, Option.pure_def,
    Option.some.injEq]
  constructor
  · rintro ⟨dl, hl, dr, hr, rfl⟩
    exact ⟨dl, dr, hl, hr, rfl⟩
  · rintro ⟨dl, dr, hl, hr, rfl⟩
    exact ⟨dl, hl, dr, hr, rfl⟩

/-- Different sides have different nested lists. -/
theorem IsOperand.eq_of_toInnerDatum? {d : Datum} (hl : l.IsOperand b) (hr : r.IsOperand b')
    (hdl : l.toInnerDatum? = some d) (hdr : r.toInnerDatum? = some d) : l = r := by
  induction l generalizing b b' r d with
  | leaf name =>
    cases hdl
    cases r with
    | leaf name' =>
      have hname : String.ofList name' = String.ofList name := by simpa [toInnerDatum?] using hdr
      rw [String.ofList_injective hname]
    | binary =>
      obtain ⟨_, _, -, -, hd⟩ := toInnerDatum?_binary.1 hdr
      cases hd
    | waiting => cases hdr
  | binary op l₁ l₂ ih₁ ih₂ =>
    obtain ⟨d₁, d₂, hd₁, hd₂, rfl⟩ := toInnerDatum?_binary.1 hdl
    cases hr with
    | universal | name => cases hdr
    | binary hop' _ hr₁ hr₂ =>
      cases hl with
      | binary hop _ hl₁ hl₂ =>
        obtain ⟨e₁, e₂, he₁, he₂, heq⟩ := toInnerDatum?_binary.1 hdr
        simp only [Datum.list.injEq, List.cons.injEq, Datum.text.injEq, and_true] at heq
        obtain ⟨rfl, hsign, rfl⟩ := heq
        rw [ih₁ hl₁ hr₁ hd₁ he₁, ih₂ hl₂ hr₂ hd₂ he₂,
          Operator.sign_injective hop hop' (String.ofList_injective hsign)]
  | waiting => cases hdl

theorem IsOperand.exists_datum (h : n.IsOperand b) :
    ∃ d, n.toInnerDatum? = some d ∧ d.IsOperand (fun _ => True) b := by
  induction h with
  | universal => exact ⟨_, rfl, .universal⟩
  | name hu hn =>
    refine ⟨_, rfl, .name (fun h => hu ?_) (fun h => hn ?_) trivial⟩
    · exact String.ofList_injective h
    · exact String.ofList_injective h
  | binary hop hne hl hr ihl ihr =>
    obtain ⟨dl, hdl, hleft⟩ := ihl
    obtain ⟨dr, hdr, hright⟩ := ihr
    refine ⟨_, toInnerDatum?_binary.2 ⟨dl, dr, hdl, hdr, rfl⟩, .binary ?_ ?_ hleft hright⟩
    · rw [String.toList_ofList]
      exact Operator.ofSign?_sign hop
    · rintro rfl
      exact hne (hl.eq_of_toInnerDatum? hr hdl hdr)

/-- A reduced tree has nested lists. -/
theorem IsReduced.exists_flatten (h : n.IsReduced) :
    ∃ d, flatten n = .ok d := by
  cases n with
  | leaf name => exact ⟨_, rfl⟩
  | binary op l r =>
    obtain ⟨d, hd, -⟩ := h.isOperand_of_binary.exists_datum
    exact ⟨d, by simp only [flatten, toDatum?, hd]; rfl⟩
  | waiting =>
    rcases h with h | h
    · cases h
    · cases h

end Node

/-- The nested lists of a reduced tree are reduced. -/
theorem isReduced_of_flatten {node : Node} (hnode : node.IsReduced) {d : Datum}
    (h : flatten node = .ok d) : d.IsReduced fun _ => True := by
  cases node with
  | leaf name =>
    cases h
    exact .lone (.inr (.inr trivial))
  | binary op l r =>
    cases hnode.isOperand_of_binary with
    | binary hop hne hl hr =>
      obtain ⟨d', hd', hoperand⟩ := (Node.IsOperand.binary (b := false) hop hne hl hr).exists_datum
      have hflatten : flatten (.binary op l r) = .ok d' := by
        simp only [flatten, Node.toDatum?, hd']
        rfl
      rw [hflatten] at h
      cases h
      obtain ⟨_, _, -, -, rfl⟩ := Node.toInnerDatum?_binary.1 hd'
      exact .operation hoperand
  | waiting => cases h

/-- Every tree that is built from tokens is reduced. -/
theorem isReduced_of_buildTree {tokens : List Token} (hne : tokens ≠ []) {d : Datum}
    (h : buildTree tokens = .ok d) : d.IsReduced fun _ => True := by
  rw [buildTree, if_neg hne] at h
  obtain ⟨node, hbuild, hflatten⟩ := except_bind_eq_ok.1 h
  exact isReduced_of_flatten (isReduced_of_buildGroup hbuild) hflatten

end Equation
end VoxelAlgebra
