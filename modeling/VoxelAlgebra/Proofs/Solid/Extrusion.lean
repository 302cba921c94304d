import VoxelAlgebra.Proofs.Solid.Runs.Fill
import VoxelAlgebra.Proofs.Solid.Sweep
import VoxelAlgebra.Proofs.Solid.Translation

/-!
# The voxels of extrusions

An extrusion copies its profile to every place of one path, that from the zero point to the vector:
the path from a voxel to its moved twin is the path from the zero point, moved to the voxel. The end
cap is traced and filled through the moved vertices, and so it is the moved fill of the vertices.
Along the zero vector the path is one point only, and the profile and the cap are taken as they are.

## Main definitions

* `Sweep.solidForm`, `Sweep.shellForm` — the points of a solid extrusion and of a shell.
* `Sweep.of_extrude` — the voxels after an extrusion.
* `Sweep.Form.mem_solid`, `Sweep.Form.mem_shell` — the points of a form.
-/

namespace VoxelAlgebra

namespace Sweep

/-- The points of a solid extrusion: every voxel moved along the path of the vector, and the moved
fill. -/
def solidForm (vector : Voxel) (voxels fill : List Voxel) : Set Voxel :=
  {x | (∃ v ∈ voxels, ∃ p ∈ segment .zero vector, x = v + p) ∨ ∃ v ∈ fill, x = v + vector}

/-- The points of a shell: the voxels, the edges moved along the path of the vector without its
ends, and the moved fill. -/
def shellForm (vector : Voxel) (voxels edges fill : List Voxel) : Set Voxel :=
  {x | x ∈ voxels ∨ (∃ e ∈ edges, ∃ p ∈ (segment .zero vector).tail.dropLast, x = e + p) ∨
    ∃ v ∈ fill, x = v + vector}

section

variable {vector x : Voxel} {voxels : List Voxel}

theorem mem_tracks :
    x ∈ tracks vector voxels ↔ ∃ v ∈ voxels, ∃ p ∈ segment .zero vector, x = v + p := by
  simp only [tracks, segment_vector, List.mem_flatMap, List.mem_map, @eq_comm _ x]

theorem mem_map_add : x ∈ voxels.map (· + vector) ↔ ∃ v ∈ voxels, x = v + vector := by
  simp only [List.mem_map, @eq_comm _ x]

theorem mem_innerTracks : x ∈ innerTracks vector voxels ↔
    ∃ e ∈ voxels, ∃ p ∈ (segment .zero vector).tail.dropLast, x = e + p := by
  simp only [innerTracks, segment_vector, ← List.map_tail, ← List.map_dropLast, List.mem_flatMap,
    List.mem_map, @eq_comm _ x]

end

/-! ## Runs -/

variable {i i' : Issuer} {u : Unit} {s s' : Sweep}

/-- The end cap is traced and filled. -/
theorem isTraced_of_buildCap {vertices voxels : List Voxel}
    (hrun : buildCap vertices (i, s) = .ok voxels (i', s')) : IsTraced vertices true voxels := by
  obtain ⟨_, i₁, i₂, created, traced, cap, -, hcreate, hedges, hfill, habsolute, rfl⟩ :=
    buildCap_eq_ok hrun
  obtain ⟨-, rfl⟩ := VoxelSet.absolute_eq_ok.1 habsolute
  exact Layer.isTraced_of_runs hcreate hedges hfill

theorem absoluteFill_of_setAbsolute {voxels : List Voxel}
    (hrun : setAbsolute voxels (i, s) = .ok u (i', s')) :
    s'.base.isDeleted = false ∧ s'.base.absoluteFill = voxels := by
  obtain ⟨-, base, hset, rfl⟩ := setAbsolute_eq_ok hrun
  obtain ⟨horigin, hfill⟩ := VoxelSet.of_setFill hset
  refine ⟨(VoxelSet.isSound_of_setFill hset).isLive, ?_⟩
  rw [VoxelSet.absoluteFill, hfill, horigin]
  simp [Voxel.sub_add_cancel, Function.comp_def]

/-- After an extrusion the voxels are those of a form, each of them once, where the end cap is the
moved fill of the vertices. -/
theorem of_extrude {shell : Bool} {p : Profile} {vertices voxels fill : List Voxel}
    (hvertices : p.vertices = .ok vertices) (hvoxels : p.base.absolute = .ok voxels)
    (hfill : IsTraced vertices true fill) (hrun : extrude shell p (i, s) = .ok u (i', s')) :
    s'.base.isDeleted = false ∧ ∃ all, Form shell p s.vector voxels all ∧
      s'.base.absoluteFill = Voxel.distinct (all (fill.map (· + s.vector))) := by
  obtain ⟨-, _, _, all, lid, ⟨_, _⟩, hvertices', hvoxels', hform, hcap, hset⟩ :=
    extrude_eq_ok.1 hrun
  cases hvertices.symm.trans hvertices'
  cases hvoxels.symm.trans hvoxels'
  obtain ⟨hlive, heq⟩ := absoluteFill_of_setAbsolute hset
  exact ⟨hlive, all, hform, hfill.add (isTraced_of_buildCap hcap) ▸ heq⟩

namespace Form

variable {shell : Bool} {p : Profile} {vector : Voxel} {voxels fill : List Voxel}
  {all : List Voxel → List Voxel}

/-- The points of a form that is solid. -/
theorem mem_solid (h : Form shell p vector voxels all) (hsolid : shell = false ∨ vector = .zero)
    (x : Voxel) : x ∈ all (fill.map (· + vector)) ↔ x ∈ solidForm vector voxels fill := by
  cases h with
  | solid =>
    rw [List.mem_append, mem_tracks, mem_map_add]
    rfl
  | shell hshell hzero => simp [hshell, hzero] at hsolid

/-- The points of a form that is a shell. -/
theorem mem_shell {edges : List Voxel} (h : Form shell p vector voxels all) (hshell : shell = true)
    (hzero : vector ≠ .zero) (hedges : p.edgeVoxels = .ok edges) (x : Voxel) :
    x ∈ all (fill.map (· + vector)) ↔ x ∈ shellForm vector voxels edges fill := by
  cases h with
  | solid hsolid => simp [hshell, hzero] at hsolid
  | shell _ _ hread =>
    cases hedges.symm.trans hread
    rw [List.mem_append, List.mem_append, or_comm, mem_innerTracks, mem_map_add]
    rfl

end Form

end Sweep

end VoxelAlgebra
