import VoxelAlgebra.Equation.Tree
import VoxelAlgebra.Proofs.Equation.Grammar

/-!
# The sets of trees

A tree stands for the set that its operations give when Ω is the universe `U` and names stand for
sets. Joining two operands through the set identities gives the set of the plain operation, and a
pushed down negation gives the complement.

## Main definitions

* `Datum.Evaluates` — the set of nested lists.
* `Node.Evaluates` — the set of a tree without waiting negations.
* `Node.Evaluates.combine`, `Node.Evaluates.negate` — what joining and negating give.
* `Node.Evaluates.toDatum?` — the nested lists of a tree stand for its set.
-/

namespace VoxelAlgebra

variable {α : Type*}

/-- The sets that nested lists stand for. A list of one is its element; a list of three joins its
outer elements by the operator between them. -/
inductive Datum.Evaluates (U : Set α) (σ : String → Option (Set α)) : Datum → Set α → Prop
  | universal : Evaluates U σ (.text "Ω") U
  | null : Evaluates U σ (.text "∅") ∅
  | name {s : String} {A : Set α} :
    s ≠ "Ω" → s ≠ "∅" → σ s = some A → Evaluates U σ (.text s) A
  | lone {d : Datum} {A : Set α} : Evaluates U σ d A → Evaluates U σ (.list [d]) A
  | binary {l r : Datum} {sign : String} {op : Equation.Operator} {A B : Set α} :
    Equation.Operator.ofSign? sign.toList = some op →
    Evaluates U σ l A → Evaluates U σ r B →
    Evaluates U σ (.list [l, .text sign, r]) (op.onSets A B)

section

variable {U : Set α} {σ : String → Option (Set α)}

theorem Datum.evaluates_text_iff {s : String} {A : Set α} :
    (Datum.text s).Evaluates U σ A ↔
      (s = "Ω" ∧ A = U) ∨ (s = "∅" ∧ A = ∅) ∨ (s ≠ "Ω" ∧ s ≠ "∅" ∧ σ s = some A) := by
  constructor
  · intro h
    generalize hd : Datum.text s = d at h
    cases h with
    | universal => exact .inl ⟨Datum.text.inj hd, rfl⟩
    | null => exact .inr (.inl ⟨Datum.text.inj hd, rfl⟩)
    | name hu hn hs =>
      cases hd
      exact .inr (.inr ⟨hu, hn, hs⟩)
    | lone | binary => cases hd
  · rintro (⟨rfl, rfl⟩ | ⟨rfl, rfl⟩ | ⟨hu, hn, hs⟩)
    exacts [.universal, .null, .name hu hn hs]

theorem Datum.Evaluates.unique {d : Datum} {A B : Set α} (hA : d.Evaluates U σ A)
    (hB : d.Evaluates U σ B) : A = B := by
  induction hA generalizing B with
  | universal => simpa [Datum.evaluates_text_iff, eq_comm] using hB
  | null => simpa [Datum.evaluates_text_iff, eq_comm] using hB
  | name hu hn hs => simpa [Datum.evaluates_text_iff, hu, hn, hs] using hB
  | lone _ ih =>
    cases hB with
    | lone h => exact ih h
  | binary hop _ _ ihl ihr =>
    cases hB with
    | binary hop' hl hr => rw [Option.some.inj (hop.symm.trans hop'), ihl hl, ihr hr]

end

namespace Equation

variable {U : Set α} {σ : String → Option (Set α)}

/-! ## Trees -/

/-- The sets that trees stand for; a tree with a waiting negation stands for none. -/
inductive Node.Evaluates (U : Set α) (σ : String → Option (Set α)) : Node → Set α → Prop
  | universal : Evaluates U σ .universal U
  | null : Evaluates U σ .null ∅
  | name {name : List Char} {A : Set α} : name ≠ [Symbol.universal] → name ≠ [Symbol.null] →
    σ (String.ofList name) = some A → Evaluates U σ (.leaf name) A
  | binary {op : Operator} {l r : Node} {A B : Set α} : op.IsSetOperation →
    Evaluates U σ l A → Evaluates U σ r B → Evaluates U σ (.binary op l r) (op.onSets A B)

namespace Node.Evaluates

variable {n l r : Node} {A B : Set α}

theorem unique (hA : n.Evaluates U σ A) (hB : n.Evaluates U σ B) : A = B := by
  induction hA generalizing B with
  | universal =>
    cases hB with
    | universal => rfl
    | name hu => exact absurd rfl hu
  | null =>
    cases hB with
    | null => rfl
    | name _ hn => exact absurd rfl hn
  | name hu hn hs =>
    cases hB with
    | universal => exact absurd rfl hu
    | null => exact absurd rfl hn
    | name _ _ hs' => exact Option.some.inj (hs.symm.trans hs')
  | binary _ _ _ ihl ihr =>
    cases hB with
    | binary _ hl hr => rw [ihl hl, ihr hr]

theorem of_universal (h : Node.universal.Evaluates U σ A) : A = U :=
  h.unique .universal

theorem of_null (h : Node.null.Evaluates U σ A) : A = ∅ :=
  h.unique .null

theorem subset (hσ : ∀ name A, σ name = some A → A ⊆ U) (h : n.Evaluates U σ A) : A ⊆ U := by
  induction h with
  | universal => exact subset_rfl
  | null => exact Set.empty_subset U
  | name _ _ hs => exact hσ _ _ hs
  | binary _ _ _ ihl ihr => exact Operator.onSets_subset _ ihl ihr

/-! ## Joining -/

/-- Equal operands give the operand or nothing. -/
theorem combine_self {op : Operator} (hop : op.IsSetOperation) (h : n.Evaluates U σ A) :
    (n.combine op n).Evaluates U σ (op.onSets A A) := by
  cases op with
  | union => simpa [Node.combine, Operator.onSets] using h
  | inter => simpa [Node.combine, Operator.onSets] using h
  | diff => simpa [Node.combine, Operator.onSets] using null
  | symmDiff => simpa [Node.combine, Operator.onSets] using null
  | unknown => exact hop.elim

theorem combine_inter (hne : l ≠ r) (hAU : A ⊆ U) (hBU : B ⊆ U) (hl : l.Evaluates U σ A)
    (hr : r.Evaluates U σ B) : (l.combine .inter r).Evaluates U σ (A ∩ B) := by
  rw [Node.combine, if_neg hne]
  split_ifs with h hlu hru
  · obtain rfl | rfl := h
    · simpa [hl.of_null] using null
    · simpa [hr.of_null] using null
  · subst hlu
    rw [hl.of_universal, Set.inter_eq_right.2 hBU]
    exact hr
  · subst hru
    rw [hr.of_universal, Set.inter_eq_left.2 hAU]
    exact hl
  · exact binary trivial hl hr

theorem combine_union (hne : l ≠ r) (hAU : A ⊆ U) (hBU : B ⊆ U) (hl : l.Evaluates U σ A)
    (hr : r.Evaluates U σ B) : (l.combine .union r).Evaluates U σ (A ∪ B) := by
  rw [Node.combine, if_neg hne]
  split_ifs with h hln hrn
  · obtain rfl | rfl := h
    · rw [hl.of_universal, Set.union_eq_left.2 hBU]
      exact universal
    · rw [hr.of_universal, Set.union_eq_right.2 hAU]
      exact universal
  · subst hln
    rwa [hl.of_null, Set.empty_union]
  · subst hrn
    rwa [hr.of_null, Set.union_empty]
  · exact binary trivial hl hr

theorem combine_symmDiff (hne : l ≠ r) (hl : l.Evaluates U σ A) (hr : r.Evaluates U σ B) :
    (l.combine .symmDiff r).Evaluates U σ (Operator.symmDiff.onSets A B) := by
  rw [Node.combine, if_neg hne]
  split_ifs with hln hrn
  · subst hln
    rwa [hl.of_null, Operator.onSets, Set.empty_sdiff, Set.sdiff_empty, Set.empty_union]
  · subst hrn
    rwa [hr.of_null, Operator.onSets, Set.empty_sdiff, Set.sdiff_empty, Set.union_empty]
  · exact binary trivial hl hr

theorem combine_diff (hne : l ≠ r) (hAU : A ⊆ U) (hl : l.Evaluates U σ A)
    (hr : r.Evaluates U σ B) : (l.combine .diff r).Evaluates U σ (A \ B) := by
  rw [Node.combine, if_neg hne]
  split_ifs with h hrn
  · obtain rfl | rfl := h
    · simpa [hl.of_null] using null
    · simpa [hr.of_universal, Set.sdiff_eq_empty.2 hAU] using null
  · subst hrn
    simpa [hr.of_null] using hl
  · exact binary trivial hl hr

/-- Joining through the set identities gives the set of the operation. -/
theorem combine (op : Operator) (hop : op.IsSetOperation) (hAU : A ⊆ U) (hBU : B ⊆ U)
    (hl : l.Evaluates U σ A) (hr : r.Evaluates U σ B) :
    (l.combine op r).Evaluates U σ (op.onSets A B) := by
  by_cases hne : l = r
  · subst hne
    obtain rfl := hl.unique hr
    exact combine_self hop hl
  · cases op with
    | union => exact combine_union hne hAU hBU hl hr
    | inter => exact combine_inter hne hAU hBU hl hr
    | diff => exact combine_diff hne hAU hl hr
    | symmDiff => exact combine_symmDiff hne hl hr
    | unknown => exact hop.elim

/-! ## Negating -/

/-- A negation can be pushed down, and gives the complement. -/
theorem negate (hσ : ∀ name A, σ name = some A → A ⊆ U) (h : n.Evaluates U σ A) :
    ∃ m, n.negate = some m ∧ m.Evaluates U σ (U \ A) := by
  induction h with
  | universal => exact ⟨.null, by simp [Node.negate], by simpa using null⟩
  | null => exact ⟨.universal, by simp [Node.negate], by simpa using universal⟩
  | @name name A hu hn hs =>
    refine ⟨.binary .diff .universal (.leaf name), by simp [Node.negate, hu, hn], ?_⟩
    have hdiff : Operator.diff.IsSetOperation := trivial
    exact binary hdiff universal (.name hu hn hs)
  | @binary op l r A B hop hl hr ihl ihr =>
    obtain ⟨l', hl', hlc⟩ := ihl
    obtain ⟨r', hr', hrc⟩ := ihr
    have hAU := hl.subset hσ
    have hBU := hr.subset hσ
    have hA : U \ A ⊆ U := Set.sdiff_subset
    have hB : U \ B ⊆ U := Set.sdiff_subset
    cases op with
    | union =>
      refine ⟨l'.combine .inter r', by simp [Node.negate, hl', hr'], ?_⟩
      have := combine .inter trivial hA hB hlc hrc
      rwa [show Operator.inter.onSets (U \ A) (U \ B) = U \ (A ∪ B) from
        Set.sdiff_inter_sdiff] at this
    | inter =>
      refine ⟨l'.combine .union r', by simp [Node.negate, hl', hr'], ?_⟩
      have := combine .union trivial hA hB hlc hrc
      rwa [show Operator.union.onSets (U \ A) (U \ B) = U \ (A ∩ B) from
        Set.sdiff_inter.symm] at this
    | diff =>
      refine ⟨l'.combine .union r, by simp [Node.negate, hl'], ?_⟩
      have := combine .union trivial hA hBU hlc hr
      rwa [show Operator.union.onSets (U \ A) B = U \ (A \ B) by
        rw [Set.sdiff_sdiff_right, Set.inter_eq_right.2 hBU]; rfl] at this
    | symmDiff =>
      refine ⟨_, rfl, combine .diff trivial subset_rfl ?_ universal (binary hop hl hr)⟩
      exact Operator.onSets_subset _ hAU hBU
    | unknown => exact hop.elim

/-! ## Nested lists -/

theorem toInnerDatum? (h : n.Evaluates U σ A) :
    ∃ d, n.toInnerDatum? = some d ∧ d.Evaluates U σ A := by
  induction h with
  | universal => exact ⟨_, rfl, .universal⟩
  | null => exact ⟨_, rfl, .null⟩
  | @name name A hu hn hs =>
    refine ⟨_, rfl, .name (fun h => hu ?_) (fun h => hn ?_) hs⟩
    · exact String.ofList_injective h
    · exact String.ofList_injective h
  | binary hop _ _ ihl ihr =>
    obtain ⟨dl, hl, hdl⟩ := ihl
    obtain ⟨dr, hr, hdr⟩ := ihr
    refine ⟨_, by simp [Node.toInnerDatum?, hl, hr]; rfl, .binary ?_ hdl hdr⟩
    rw [String.toList_ofList]
    exact Operator.ofSign?_sign hop

/-- The nested lists of a tree stand for the set of the tree. -/
theorem toDatum? (h : n.Evaluates U σ A) :
    ∃ d, n.toDatum? = some d ∧ d.Evaluates U σ A := by
  obtain ⟨d, hd, hdA⟩ := h.toInnerDatum?
  cases n with
  | leaf name =>
    cases hd
    exact ⟨_, rfl, .lone hdA⟩
  | binary op l r => exact ⟨d, hd, hdA⟩
  | waiting operand hasSymmDiff => cases hd

end Node.Evaluates
end Equation
end VoxelAlgebra
