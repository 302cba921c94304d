import VoxelAlgebra.Grid.Voxel
import VoxelAlgebra.Proofs.Edit
import VoxelAlgebra.Proofs.Equation.Meaning
import VoxelAlgebra.SetEquation

/-!
# Equations over identifiers

Voxel sets are joined by equations over their identifiers, such as the difference of two sets or the
union of several. Such a text has no blanks and is accepted, and its tree stands for the set of the
text whatever the names stand for, so the equation can be kept while the sets change.

## Main definitions

* `IsTreeOf` — the tree of a text, under every reading of the names.
* `Equation.exists_buildTree_of_validate` — every accepted equation has a tree.
* `SetEquation.exists_assign` — an equation takes up every text of the grammar.
* `denotes_diff`, `Equation.Denotes.union` — the sets of the equations over identifiers.
-/

namespace VoxelAlgebra

open Equation (Derives Denotes IsName)

/-- A tree that stands for the set of a text under every reading of the names. -/
structure IsTreeOf (text : String) (tree : Datum) : Prop where
  isList : ∃ items, tree = .list items
  evaluates : ∀ (U A : Set Voxel) (σ : String → Option (Set Voxel)),
    (∀ name B, σ name = some B → B ⊆ U) → Denotes U σ .expression text.toList A →
    tree.Evaluates U σ A

/-- Every accepted equation has a tree, the empty one too. -/
theorem Equation.exists_buildTree_of_validate {equation : List Char} {tokens : List Token}
    (hvalid : validate equation = .ok tokens) : ∃ tree, buildTree tokens = .ok tree := by
  obtain ⟨hempty | hderives, rfl⟩ := validate_eq_ok.1 hvalid
  · have htokens : tokenize (simplify []) = [] := by with_unfolding_all rfl
    rw [hempty, htokens]
    exact ⟨.list [], rfl⟩
  · exact hderives.exists_buildTree

/-- An equation takes up every text of the grammar. -/
theorem SetEquation.exists_assign {text : String} (h : Derives .expression text.toList)
    (e : SetEquation) :
    ∃ tokens tree, assign text e = .ok () ⟨text, some tokens, tree⟩ ∧ IsTreeOf text tree := by
  let tokens := Equation.tokenize (Equation.simplify text.toList)
  have hvalidate : Equation.validate text.toList = .ok tokens :=
    Equation.validate_eq_ok.2 ⟨.inr (by rwa [h.dropBlanks]), by rw [h.dropBlanks]⟩
  obtain ⟨tree, htree⟩ := Equation.exists_buildTree_of_validate hvalidate
  refine ⟨tokens, tree, ?_, Equation.buildTree_eq_list htree, fun U B σ hσ hB => ?_⟩
  · simp only [assign, validate, generate, Edit.bind_eq_ok, Edit.get_bind, Edit.set_eq_ok,
      Edit.ofExcept_eq_ok]
    refine ⟨(), ofText text, rfl, (), ⟨text, some tokens, .list []⟩,
      ⟨tokens, _, ⟨hvalidate, rfl⟩, rfl⟩, ?_⟩
    simp only [Option.isNone_some, Bool.false_eq_true, if_false, Edit.bind_eq_ok,
      Edit.ofExcept_eq_ok, Edit.set_eq_ok]
    exact ⟨_, _, rfl, tree, _, ⟨htree, rfl⟩, rfl⟩
  · obtain ⟨tree', htree', hB'⟩ := hB.exists_buildTree hσ
    rw [htree] at htree'
    cases htree'
    exact hB'

/-! ## Differences and unions of named sets -/

section

variable {U : Set Voxel} {σ : String → Option (Set Voxel)} {A B : Set Voxel}

/-- The difference of two named sets. -/
theorem denotes_diff {s t : String} (hs : IsName s) (ht : IsName t) (hA : σ s = some A)
    (hB : σ t = some B) : Denotes U σ .expression (s ++ "-" ++ t).toList (A \ B) := by
  have h := Denotes.join .diff (by decide) (.run (.signed (hs.denotes (U := U) hA)))
    (.signed (ht.denotes hB))
  rwa [String.toList_append, String.toList_append]

/-- A union goes on with further names. -/
theorem Equation.Denotes.union {e : String} (names : List String)
    (he : Denotes U σ .expression e.toList A) (hnames : ∀ name ∈ names, IsName name)
    (hσ : ∀ name ∈ names, ∃ B, σ name = some B) :
    ∃ C, Denotes U σ .expression (String.intercalate "∪" (e :: names)).toList C ∧
      ∀ v, v ∈ C ↔ v ∈ A ∨ ∃ name ∈ names, ∃ B, σ name = some B ∧ v ∈ B := by
  induction names generalizing e A with
  | nil => exact ⟨A, by simpa using he, fun v => by simp⟩
  | cons name names ih =>
    obtain ⟨hname, hrest⟩ := List.forall_mem_cons.1 hnames
    obtain ⟨⟨B, hB⟩, hσrest⟩ := List.forall_mem_cons.1 hσ
    have hjoin := Denotes.join .union (by decide) he (.signed (hname.denotes hB))
    obtain ⟨C, hC, hmem⟩ := ih (e := e ++ "∪" ++ name)
      (by rwa [String.toList_append, String.toList_append]) hrest hσrest
    refine ⟨C, ?_, fun v => ?_⟩
    · rwa [String.intercalate_cons_cons, ← String.intercalate_cons_append]
    · rw [hmem, List.exists_mem_cons_iff]
      simp [Equation.Connective.operator, Equation.Operator.onSets, hB, or_assoc]

end

end VoxelAlgebra
