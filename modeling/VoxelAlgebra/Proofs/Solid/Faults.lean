import VoxelAlgebra.Proofs.Equation.Reduction
import VoxelAlgebra.Proofs.Solid.Pass
import VoxelAlgebra.Proofs.Solid.Representation

/-!
# Faults of a pass

A tree whose levels are complete names only operations with a meaning, so a pass over it can fail
for its operands only: a name stands for nothing, a set was deleted, or voxels are out of range. The
trees of accepted equations are of this kind, and no level of theirs can be reduced further.

## Main definitions

* `Fault.IsOfOperands` — the faults that come from the operands of a pass.
* `Evaluation.failsOnlyWith_resolve`, `Composite.endsIn_interpret_of_isTree` — the faults of
  evaluating a tree.
* `Equation.isReduced_of_validate` — the trees of accepted equations.
-/

namespace VoxelAlgebra

/-- Faults that come from the operands of a pass, whatever the tree is. -/
inductive Fault.IsOfOperands : Fault → Prop
  | deletedObject (id : String) : IsOfOperands (.report (.deletedObject id))
  | unboundName (name : Datum) : IsOfOperands (.report (.unboundName name))
  | outOfRange : IsOfOperands .outOfRange

open Edit (FailsOnlyWith)
open Equation (Operator)

variable {bound : Bound} {e : Fault}

/-! ## Voxel sets -/

namespace Fault.IsOfOperands

variable {s t : VoxelSet}

theorem of_checkAlive (h : s.checkAlive = .error e) : e.IsOfOperands := by
  unfold VoxelSet.checkAlive at h
  split_ifs at h
  · cases h
    exact .deletedObject s.id
  · cases h

theorem of_absolute (h : s.absolute = .error e) : e.IsOfOperands :=
  .of_checkAlive (except_bind_pure_eq_error.1 h)

theorem of_universe (h : bound.universe = .error e) : e.IsOfOperands := by
  obtain ⟨_, -, h⟩ := except_exists_of_mapM_eq_error (except_bind_pure_eq_error.1 h)
  exact .of_absolute h

theorem of_derived {voxels : List Voxel} (h : Derived.of voxels = .error e) : e.IsOfOperands := by
  rw [Derived.of_eq_error h]
  exact .outOfRange

theorem of_ofParts {id : String} {origin : Voxel} {fill : List Voxel}
    (h : VoxelSet.ofParts id origin fill = .error e) : e.IsOfOperands :=
  .of_derived (except_bind_pure_eq_error.1 h)

theorem of_partition {region : Region} (h : s.partition t region = .error e) :
    e.IsOfOperands :=
  .of_absolute (except_bind_pure_eq_error.1 h)

/-- Operations with a meaning need only live operands. -/
theorem of_operate {op : Operator} (hop : op.IsSetOperation)
    (h : Evaluation.operate s op t = .error e) : e.IsOfOperands := by
  unfold Evaluation.operate at h
  split_ifs at h
  · exact .of_absolute h
  · cases h
  · obtain h | ⟨_, -, h⟩ := except_bind_eq_error.1 h
    · exact .of_partition h
    obtain h | ⟨_, -, h⟩ := except_bind_eq_error.1 h
    · exact .of_partition h
    cases op with
    | union | inter | diff | symmDiff => cases h
    | unknown => exact hop.elim

end Fault.IsOfOperands

open Fault (IsOfOperands)

namespace VoxelSet

theorem failsOnlyWith_create (origin : Voxel) (fill : List Voxel) :
    (create origin fill).FailsOnlyWith IsOfOperands := by
  intro i
  obtain ⟨id, i', hissue, -⟩ := i.exists_issue
  refine Edit.endsIn_bind.2 (Edit.endsIn_of_eq_ok hissue ?_)
  exact FailsOnlyWith.ofExcept (fun _ => .of_ofParts) i'

theorem failsOnlyWith_release (s : VoxelSet) : s.release.FailsOnlyWith IsOfOperands := by
  refine .ofExcept_bind (fun _ => .of_checkAlive) fun _ _ => .bind ?_ fun _ => .pure
  exact .modify

theorem failsOnlyWith_setFill (fill : List Voxel) :
    (setFill fill).FailsOnlyWith IsOfOperands := by
  refine .get_bind fun s => .ofExcept_bind (fun _ => .of_checkAlive) fun _ _ => ?_
  refine .bind .modify fun _ => .get_bind fun s' => ?_
  refine .ofExcept_bind (fun _ => .of_checkAlive) fun _ _ => ?_
  exact .ofExcept_bind (fun _ => .of_derived) fun _ _ => .set

end VoxelSet

/-! ## Evaluations -/

namespace Evaluation

variable {left right : VoxelSet} {op : Operator}

theorem failsOnlyWith_store (key : OperationKey) (voxels : List Voxel) :
    (store key voxels).FailsOnlyWith IsOfOperands := by
  refine .bind (.onPart (VoxelSet.failsOnlyWith_create .zero voxels)) fun _ => ?_
  exact .bind (.onPart .modify) fun _ => .pure

theorem failsOnlyWith_apply (hop : op.IsSetOperation) :
    (apply left op right).FailsOnlyWith IsOfOperands := by
  refine .get_bind fun p => ?_
  cases p.2.find? left.id op right.id with
  | some result => exact .pure
  | none =>
    exact .ofExcept_bind (fun _ => .of_operate hop) fun voxels _ => failsOnlyWith_store _ voxels

theorem failsOnlyWith_lookUp (name : String) :
    (lookUp bound (.text name)).FailsOnlyWith IsOfOperands := by
  refine .get_bind fun p => ?_
  dsimp only
  split_ifs
  · exact .pure
  · exact .pure
  · cases bound.lookup name with
    | some s => exact .pure
    | none => exact .throw (.unboundName _)

/-- A tree whose levels are complete gives no fault of its own. -/
theorem failsOnlyWith_resolve {p : String → Prop} {d : Datum} (h : d.IsTree p) :
    (resolve bound d).FailsOnlyWith IsOfOperands := by
  induction h with
  | leaf =>
    rw [resolve_text]
    exact failsOnlyWith_lookUp _
  | lone _ ih => rwa [resolve, solve]
  | @binary l r sign op hsign _ _ ihl ihr =>
    have hoperation : operation (.text sign) = .ok op := by
      simp [operation, hsign, pure, Except.pure]
    rw [resolve, solve, hoperation]
    refine .bind ihl fun _ => .ofExcept_bind ?_ fun op' hop' => .bind ihr fun _ => ?_
    · rintro _ ⟨⟩
    · cases hop'
      exact failsOnlyWith_apply (Operator.sign_of_ofSign? hsign).2

end Evaluation

/-! ## Composites -/

namespace Composite

theorem failsOnlyWith_releaseSets (sets : List VoxelSet) :
    (releaseSets sets).FailsOnlyWith IsOfOperands := by
  induction sets with
  | nil => exact .pure
  | cons s rest ih => exact .bind (VoxelSet.failsOnlyWith_release s) fun _ => ih

theorem failsOnlyWith_beginCache (bound : Bound) :
    (beginCache bound).FailsOnlyWith IsOfOperands := by
  refine .get_bind fun p => .ofExcept_bind (fun _ => .of_checkAlive) fun _ _ => ?_
  refine .bind (.get_bind fun p' => .bind (.onPart (failsOnlyWith_releaseSets _)) fun _ => ?_)
    fun _ => .ofExcept_bind (fun _ => .of_universe) fun _ _ => ?_
  · exact .onPart .modify
  refine .bind (.onPart (VoxelSet.failsOnlyWith_create _ _)) fun _ => ?_
  refine .bind (.onPart (VoxelSet.failsOnlyWith_create _ _)) fun _ => ?_
  exact .bind (.onPart .modify) fun _ => .pure

/-- An interpretation of a tree whose levels are complete fails for its operands only. -/
theorem endsIn_interpret_of_isTree (bound : Bound) {q : String → Prop} {items : List Datum}
    {p : Issuer × Composite} (htree : p.2.equation.tree = .list items)
    (h : (Datum.list items).IsTree q) :
    (interpret bound).EndsIn p (fun _ _ => True) fun e _ => e.IsOfOperands := by
  refine Edit.endsIn_bind.2 (((endsIn_beginCache bound p).and
    (failsOnlyWith_beginCache bound p)).imp ?_ fun _ _ h => h.2)
  rintro cache ⟨i₁, c₁⟩ ⟨⟨rfl, -⟩, -⟩
  -- the tree is read after the pass has begun, and it is still the same
  change ((onCache cache (Evaluation.evaluate bound p.2.equation.tree) >>= _).EndsIn _ _ _)
  rw [htree]
  refine FailsOnlyWith.bind (.onPart (Evaluation.failsOnlyWith_resolve h)) (fun result => ?_) _
  refine .ofExcept_bind (fun _ => .of_absolute) fun voxels _ => .get_bind fun p' => ?_
  exact .onPart (.onPart (VoxelSet.failsOnlyWith_setFill _))

end Composite

/-! ## Accepted equations -/

namespace Datum

variable {p : String → Prop} {d : Datum} {b : Bool}

theorem IsOperand.isTree (h : d.IsOperand p b) : d.IsTree p := by
  induction h with
  | universal => exact .leaf (.inl rfl)
  | name _ _ hs => exact .leaf (.inr (.inr hs))
  | binary hop _ _ _ ihl ihr => exact .binary hop ihl ihr

theorem IsReduced.exists_isTree (h : d.IsReduced p) : ∃ items, d = .list items ∧ d.IsTree p := by
  cases h with
  | lone hs => exact ⟨_, rfl, .lone (.leaf hs)⟩
  | operation h => exact ⟨_, rfl, h.isTree⟩

end Datum

namespace Equation

/-- The tree of an accepted equation that is not empty is built, it is reduced and has the names of
the equation, and no interpretation of it meets a malformed level or an unknown operation. -/
theorem isReduced_of_validate {equation : List Char} {tokens : List Token}
    (hvalid : validate equation = .ok tokens) (hne : Text.dropBlanks equation ≠ []) :
    ∃ tree, buildTree tokens = .ok tree ∧ tree.IsReduced (HasName (Text.dropBlanks equation)) ∧
      ∀ (bound : Bound) (p p' : Issuer × Composite) (e : Fault), p.2.equation.tree = tree →
        Composite.interpret bound p = .error e p' →
        (∀ level, e ≠ .report (.malformedLevel level)) ∧
          ∀ token, e ≠ .report (.unknownOperation token) := by
  obtain ⟨hderives, rfl⟩ := validate_eq_ok.1 hvalid
  -- only the names of the equation stand for sets, so the tree has no others
  classical
  let σ : String → Option (Set Unit) := fun name =>
    if HasName (Text.dropBlanks equation) name then some Set.univ else none
  have hσ : ∀ name B, σ name = some B → HasName (Text.dropBlanks equation) name := by
    intro name B hB
    by_contra hname
    simp [σ, hname] at hB
  have hsubset : ∀ name B, σ name = some B → B ⊆ Set.univ := fun _ B _ => Set.subset_univ B
  obtain ⟨A, hA⟩ := (hderives.resolve_left hne).exists_denotes_of_names (U := Set.univ) (σ := σ)
    fun name hname => ⟨Set.univ, if_pos hname⟩
  obtain ⟨tree, htree, htreeA⟩ := hA.exists_buildTree hsubset
  have hreduced := (isReduced_of_buildTree (hA.spells hsubset).ne_nil htree).of_evaluates htreeA hσ
  refine ⟨tree, htree, hreduced, fun bound p p' e hp hrun => ?_⟩
  obtain ⟨items, rfl, hitems⟩ := hreduced.exists_isTree
  have hfault := (Composite.endsIn_interpret_of_isTree bound hp hitems).of_error hrun
  constructor <;> rintro _ rfl <;> cases hfault

/-- The identities leave nothing of `∅ ∪` and of a double negation, and a negated symmetric
difference keeps Ω on its left. -/
theorem isReduced_of_validate_negated :
    validate "∅ ∪ !(a ⊕ !!bc)".toList = .ok [['∅'], ['∪'], ['!', '('], ['a'], ['⊕'],
      ['b', 'c'], [')']] ∧
    Text.dropBlanks "∅ ∪ !(a ⊕ !!bc)".toList ≠ [] ∧
    ∃ tree, buildTree [['∅'], ['∪'], ['!', '('], ['a'], ['⊕'], ['b', 'c'], [')']] = .ok tree ∧
      tree.IsReduced (HasName (Text.dropBlanks "∅ ∪ !(a ⊕ !!bc)".toList)) ∧
      ∀ (bound : Bound) (p p' : Issuer × Composite) (e : Fault), p.2.equation.tree = tree →
        Composite.interpret bound p = .error e p' →
        (∀ level, e ≠ .report (.malformedLevel level)) ∧
          ∀ token, e ≠ .report (.unknownOperation token) := by
  have hvalid : validate "∅ ∪ !(a ⊕ !!bc)".toList = .ok [['∅'], ['∪'], ['!', '('], ['a'], ['⊕'],
      ['b', 'c'], [')']] := by with_unfolding_all rfl
  have hlength : (Text.dropBlanks "∅ ∪ !(a ⊕ !!bc)".toList).length = 11 := by
    with_unfolding_all rfl
  have hne : Text.dropBlanks "∅ ∪ !(a ⊕ !!bc)".toList ≠ [] :=
    List.ne_nil_of_length_eq_add_one hlength
  exact ⟨hvalid, hne, isReduced_of_validate hvalid hne⟩

end Equation
end VoxelAlgebra
