import VoxelAlgebra.Proofs.Solid.Outline
import VoxelAlgebra.Proofs.Solid.Ownership

/-!
# Tracing and filling layers

A layer whose vertices are in range can be traced and filled, because an outline stays between its
vertices. The layers that filling makes for single slices are given back at once, so no identifier
is left behind.

## Main definitions

* `Layer.exists_generateEdges`, `Layer.exists_fillPolygon` — tracing and filling a layer.
-/

namespace VoxelAlgebra

variable {i i' : Issuer} {held : Set String} {sets : List VoxelSet}

/-- An outline that is moved stays in range if its vertices do. -/
theorem inRange_add_outlineFill {vertices : List Voxel} {o : Voxel}
    (h : ∀ v ∈ vertices, (v + o).InRange) : ∀ v ∈ outlineFill vertices, (v + o).InRange := by
  intro v hv
  obtain ⟨s, hs, e, he, hbetween⟩ := exists_between_vertices hv
  refine inRange_of_isBetween (h s hs) (h e he) fun a => ?_
  have := hbetween a
  simp only [IsBetween, Voxel.coord_add] at this ⊢
  omega

namespace Layer

/-- A new layer has its vertices as voxels. -/
theorem exists_create {vertices : List Voxel} (h : i.Owns held sets) (hne : vertices ≠ [])
    (hrange : ∀ v ∈ vertices, v.InRange) :
    ∃ base i', create vertices i = .ok { base, vertices } i' ∧ base.origin = .zero ∧
      i'.Owns held (base :: sets) := by
  obtain ⟨base, i', hcreate, horigin, -, -, howns⟩ := h.exists_create .zero
    fun v hv => (Voxel.add_zero v).symm ▸ hrange v hv
  refine ⟨base, i', ?_, horigin, howns⟩
  have hempty : vertices.isEmpty = false := by simpa using hne
  simp only [create, hempty, Bool.false_eq_true, if_false, Edit.bind_eq_ok, Edit.pure_eq_ok]
  exact ⟨base, i', hcreate, rfl, rfl⟩

/-- Tracing the outline of a live layer. -/
theorem exists_generateEdges {l : Layer} (hlive : l.base.isDeleted = false)
    (hrange : ∀ v ∈ l.vertices, (v + l.base.origin).InRange) :
    ∃ base, generateEdges l = .ok () { l with base, edges := namedEdges l.vertices } ∧
      base.IsSound ∧ base.id = l.base.id ∧ base.origin = l.base.origin ∧
      base.fill = outlineFill l.vertices := by
  obtain ⟨base, hset, hbase⟩ := VoxelSet.exists_setFill _ hlive (inRange_add_outlineFill hrange)
  refine ⟨base, ?_, hbase⟩
  simp only [generateEdges, onBase, Edit.get_bind, Edit.bind_eq_ok, Edit.ofExcept_eq_ok,
    VoxelSet.checkAlive_eq_ok, Edit.set_eq_ok, Edit.onPart_eq_ok]
  exact ⟨(), l, ⟨hlive, rfl⟩, (), _, rfl, base, hset, rfl⟩

/-- A new layer through vertices in range can be traced. -/
theorem exists_create_generateEdges {vertices : List Voxel} (h : i.Owns held sets)
    (hne : vertices ≠ []) (hrange : ∀ v ∈ vertices, v.InRange) :
    ∃ l base i', create vertices i = .ok l i' ∧
      generateEdges l = .ok () { base, vertices, edges := namedEdges vertices } ∧
      i'.Owns held (base :: sets) ∧ base.origin = .zero ∧ base.fill = outlineFill vertices := by
  obtain ⟨base, i', hcreate, horigin, howns⟩ := exists_create h hne hrange
  obtain ⟨base', hedges, hsound, hid, horigin', hfill⟩ := exists_generateEdges
    (l := { base, vertices }) (howns.isSound base List.mem_cons_self).isLive
    fun v hv => by simpa [horigin, Voxel.add_zero] using hrange v hv
  exact ⟨_, base', i', hcreate, hedges, howns.change hsound hid, horigin'.trans horigin, hfill⟩

/-- The outline through vertices is traced without leaving anything behind. -/
theorem exists_scratchOutline (vertices : List Voxel) (h : i.Owns held sets) (hne : vertices ≠ [])
    (hrange : ∀ v ∈ vertices, v.InRange) :
    ∃ i', scratchOutline vertices i = .ok (outlineFill vertices) i' ∧ i'.Owns held sets := by
  obtain ⟨l, base, i₁, hcreate, hedges, howns, -, hfill⟩ := exists_create_generateEdges h hne hrange
  obtain ⟨i₂, hrelease, howns₂⟩ := howns.exists_release
  refine ⟨i₂, ?_, howns₂⟩
  simp only [scratchOutline, Edit.bind_eq_ok, Edit.ofExcept_eq_ok, Edit.pure_eq_ok]
  refine ⟨_, i₁, hcreate, (), i₁, ⟨?_, rfl⟩, base.emptied, i₂, ?_, ?_, rfl⟩ <;>
    simp only [Edit.outcome, hedges]
  · exact hrelease
  · exact hfill

/-- The slices of a directory are traced one after the other. -/
theorem exists_sliceOutlines (origin : Voxel) (directory : Directory Voxel) (h : i.Owns held sets)
    (hrange : ∀ entry ∈ directory, ∀ v ∈ entry.2, (v - origin).InRange) :
    ∃ i', sliceOutlines origin directory i = .ok (rowFill origin directory) i' ∧
      i'.Owns held sets := by
  induction directory generalizing i with
  | nil => exact ⟨i, rfl, h⟩
  | cons entry rest ih =>
    obtain ⟨hentry, hrest⟩ := List.forall_mem_cons.1 hrange
    obtain ⟨k, slice⟩ := entry
    cases slice with
    | nil => exact ih h hrest
    | cons v slice =>
      obtain ⟨i₁, hscratch, howns₁⟩ := exists_scratchOutline
        ((v :: slice).map (· - origin)) h (by simp) (by simpa using hentry)
      obtain ⟨i₂, hslices, howns₂⟩ := ih howns₁ hrest
      refine ⟨i₂, ?_, howns₂⟩
      rw [sliceOutlines, Edit.bind_eq_ok]
      · refine ⟨_, i₁, hscratch, ?_⟩
        rw [Edit.bind_eq_ok]
        exact ⟨_, i₂, hslices, rfl⟩
      · nofun

/-- Filling a live layer whose slices are those of voxels `known`. -/
theorem exists_fillPolygon {l : Layer} {known : List Voxel} (h : i.Owns held sets)
    (hlive : l.base.isDeleted = false) (hknown : Derived.of known = .ok l.base.derived)
    (hrange : ∀ v ∈ known, (v - l.base.origin).InRange) :
    ∃ base i', fillPolygon (i, l) = .ok () (i', { l with base }) ∧ i'.Owns held sets ∧
      base.IsSound ∧ base.id = l.base.id ∧ base.origin = l.base.origin ∧
      base.fill = Voxel.distinct (rowFill l.base.origin l.base.derived.directory) := by
  have hmem : ∀ entry ∈ l.base.derived.directory, ∀ v ∈ entry.2, v ∈ known :=
    fun entry hentry v hv => (mem_of_mem_directory hknown hentry v hv).1
  obtain ⟨i', hslices, howns⟩ := exists_sliceOutlines l.base.origin
    l.base.derived.directory h fun entry hentry v hv => hrange v (hmem entry hentry v hv)
  have hfilled : ∀ v ∈ Voxel.distinct (rowFill l.base.origin l.base.derived.directory),
      (v + l.base.origin).InRange := by
    intro v hv
    obtain ⟨entry, hentry, hv⟩ := List.mem_flatMap.1 (Voxel.mem_distinct.1 hv)
    refine inRange_add_outlineFill (fun w hw => ?_) v hv
    obtain ⟨x, hx, rfl⟩ := List.mem_map.1 hw
    rw [Voxel.sub_add_cancel]
    exact (Derived.of_eq_ok hknown).1 x (hmem entry hentry x hx)
  obtain ⟨base, hset, hbase'⟩ := VoxelSet.exists_setFill _ hlive hfilled
  refine ⟨base, i', ?_, howns, hbase'⟩
  simp only [fillPolygon, onBase, Edit.get_bind, Edit.bind_eq_ok, Edit.ofExcept_eq_ok,
    VoxelSet.checkAlive_eq_ok, Edit.onFirst_eq_ok, Edit.onSecond_eq_ok, Edit.onPart_eq_ok]
  exact ⟨(), (i, l), ⟨hlive, rfl⟩, _, (i', l), ⟨hslices, rfl⟩, ⟨base, hset, rfl⟩, rfl⟩

end Layer

end VoxelAlgebra
