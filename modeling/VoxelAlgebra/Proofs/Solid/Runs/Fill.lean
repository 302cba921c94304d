import VoxelAlgebra.Proofs.Solid.Runs.Basic

/-!
# Successful runs of new layers

A new layer has its vertices at the zero origin, so the voxels of a layer that is made, traced and
filled depend on its vertices only, and not on the identifiers that are given out meanwhile.

## Main definitions

* `Layer.isTraced_of_runs`, `isTraced_of_traceOutline` — the voxels of a new layer.
-/

namespace VoxelAlgebra

variable {i i' : Issuer} {u : Unit} {vertices voxels : List Voxel}

namespace Layer

variable {l : Layer}

/-- A new layer that was traced has the voxels of the outline. -/
theorem outlineFill_of_runs {l₁ : Layer} (hcreate : create vertices i = .ok l i')
    (hedges : generateEdges l = .ok u l₁) : l₁.base.origin = .zero ∧
      l₁.base.absoluteFill = outlineFill vertices ∧
      Derived.of (outlineFill vertices) = .ok l₁.base.derived := by
  obtain ⟨rfl, hbase⟩ := create_eq_ok hcreate
  obtain ⟨-, hzero, -, -⟩ := VoxelSet.create_eq_ok hbase
  obtain ⟨base, hset, rfl⟩ := generateEdges_eq_ok hedges
  have horigin := (VoxelSet.of_setFill hset).1.trans hzero
  have hfill : base.absoluteFill = outlineFill l.vertices :=
    (VoxelSet.absoluteFill_of_zero horigin).trans (VoxelSet.of_setFill hset).2
  exact ⟨horigin, hfill, hfill ▸ (VoxelSet.isSound_of_setFill hset).derived⟩

/-- A new layer that was traced and filled has the voxels of the filled outline. -/
theorem isTraced_of_runs {i₁ i₂ : Issuer} {l₁ l₂ : Layer} (hcreate : create vertices i = .ok l i')
    (hedges : generateEdges l = .ok u l₁) (hfill : fillPolygon (i₁, l₁) = .ok u (i₂, l₂)) :
    IsTraced vertices true l₂.base.absoluteFill := by
  obtain ⟨hzero, -, hd⟩ := outlineFill_of_runs hcreate hedges
  obtain ⟨base, hset, rfl, -⟩ := fillPolygon_eq_ok hfill
  obtain ⟨horigin, hfill⟩ := VoxelSet.of_setFill hset
  exact ⟨l₁.base.derived, hd, by
    rw [if_pos rfl, VoxelSet.absoluteFill_of_zero (horigin.trans hzero), hfill, hzero]⟩

end Layer

/-- What is traced by a layer of its own are the voxels of the outline, or of the filled outline. -/
theorem isTraced_of_traceOutline {filled : Bool}
    (h : traceOutline vertices filled i = .ok voxels i') : IsTraced vertices filled voxels := by
  simp only [traceOutline, Edit.bind_eq_ok, Edit.withSecond_eq_ok, Edit.onSecond_eq_ok,
    Edit.pure_eq_ok] at h
  obtain ⟨l, i₁, hcreate, ⟨_, l₃⟩, i₃, ⟨_, ⟨_, l₁⟩, ⟨hedges, -⟩, hread⟩, _, _, -, rfl, -⟩ := h
  cases filled with
  | false =>
    obtain ⟨-, hfill, hd⟩ := Layer.outlineFill_of_runs hcreate hedges
    simp only [Bool.false_eq_true, if_false, Edit.get_bind, Edit.ofExcept_eq_ok,
      VoxelSet.absolute_eq_ok] at hread
    obtain ⟨⟨-, rfl⟩, -⟩ := hread
    exact ⟨l₁.base.derived, hd, hfill⟩
  | true =>
    simp only [if_true, Edit.bind_eq_ok, Edit.get_bind, Edit.ofExcept_eq_ok,
      VoxelSet.absolute_eq_ok] at hread
    obtain ⟨_, ⟨_, l₂⟩, hrun, ⟨-, rfl⟩, -⟩ := hread
    exact Layer.isTraced_of_runs hcreate hedges hrun

end VoxelAlgebra
