import VoxelAlgebra.Proofs.Solid.Runs.Sweep

/-!
# Solid sweeps

A sweep over a profile whose vertices and voxels are in range, before and after the move, can always
be extruded. Its end cap is at hand afterwards, and nothing else that was made on the way.

## Main definitions

* `Sweep.exists_buildCap` — making the end cap.
* `Sweep.IsReadable`, `Sweep.HasEdges` — what a profile needs to be extruded.
* `Sweep.exists_extrusion` — extruding a profile, to a solid one or to a shell.
* `Sweep.exists_release` — the end of a sweep.
-/

namespace VoxelAlgebra.Sweep

variable {i : Issuer} {held : Set String} {others : List VoxelSet} {s : Sweep}

/-- A live end cap is given back. -/
theorem exists_releaseCap (h : i.Owns held (s.sets ++ others)) :
    ∃ i' cap, releaseCap (i, s) = .ok () (i', { s with cap }) ∧
      i'.Owns held (s.base :: others) := by
  cases hcap : s.cap with
  | none =>
    have hrun : releaseCap (i, s) = .ok () (i, { s with cap := s.cap }) := by
      simp [releaseCap, Edit.get_bind, hcap]
    exact ⟨i, s.cap, hrun, owns_of_releaseCap h hrun⟩
  | some cap =>
    have howns := h
    simp only [sets, hcap, Option.elim_some] at howns
    obtain ⟨i', hrelease, -⟩ := (howns.perm (List.Perm.swap cap.base s.base others)).exists_release
    let released : Layer := { cap with base := cap.base.emptied, edges := [] }
    have hrun : releaseCap (i, s) = .ok () (i', { s with cap := some released }) := by
      simp only [releaseCap, Layer.release, Edit.get_bind, hcap, Edit.bind_eq_ok,
        Edit.onFirst_eq_ok, Edit.onSecond_eq_ok, Edit.modify_eq_ok, Edit.pure_eq_ok]
      exact ⟨released, (i', s), ⟨⟨_, i', hrelease, rfl, rfl⟩, rfl⟩, rfl, rfl⟩
    exact ⟨i', some released, hrun, owns_of_releaseCap h hrun⟩

/-- A live sweep gives its end cap back, then itself. -/
theorem exists_release (h : i.Owns held (s.sets ++ others)) :
    ∃ i' s', release (i, s) = .ok () (i', s') ∧ s'.base.isDeleted = true ∧ i'.Owns held others := by
  have hlive : s.base.isDeleted = false := (h.isSound s.base List.mem_cons_self).isLive
  obtain ⟨i₁, cap, hcap, howns⟩ := exists_releaseCap h
  obtain ⟨i₂, hrelease, howns₂⟩ := howns.exists_release
  refine ⟨i₂, { s with cap := none, base := s.base.emptied }, ?_, rfl, howns₂⟩
  simp only [release, Edit.bind_eq_ok, Edit.get_bind, Edit.onFirst_eq_ok, Edit.onSecond_eq_ok,
    Edit.modify_eq_ok, Edit.ofExcept_eq_ok, VoxelSet.checkAlive_eq_ok]
  exact ⟨(), (i, s), ⟨hlive, rfl⟩, (), (i₁, { s with cap }), hcap, (), (i₁, { s with cap := none }),
    ⟨rfl, rfl⟩, s.base.emptied, (i₂, { s with cap := none }), ⟨hrelease, rfl⟩, rfl, rfl⟩

/-- The end cap through vertices in range is made in the place of the one before. -/
theorem exists_buildCap {vertices : List Voxel} (h : i.Owns held (s.sets ++ others))
    (hne : vertices ≠ []) (hrange : ∀ v ∈ vertices, v.InRange) :
    ∃ voxels i' cap, buildCap vertices (i, s) = .ok voxels (i', { s with cap := some cap }) ∧
      ∀ v ∈ voxels, v.InRange := by
  obtain ⟨i₁, released, hrelease, howns₁⟩ := exists_releaseCap h
  obtain ⟨l, base, i₂, hcreate, hedges, howns₂, -, hbase⟩ :=
    Layer.exists_create_generateEdges howns₁ hne hrange
  have hsound := howns₂.isSound base List.mem_cons_self
  obtain ⟨base₂, i₃, hfill, -, hsound₂, -⟩ := Layer.exists_fillPolygon
    (l := { base, vertices, edges := Layer.namedEdges vertices }) howns₂ hsound.isLive
    hsound.derived (VoxelSet.inRange_sub_origin (hbase ▸ inRange_outlineFill hrange))
  let cap : Layer := { base := base₂, vertices, edges := Layer.namedEdges vertices }
  refine ⟨base₂.absoluteFill, i₃, cap, ?_, hsound₂.inRange⟩
  simp only [buildCap, Edit.bind_eq_ok, Edit.onFirst_eq_ok, Edit.onSecond_eq_ok, Edit.modify_eq_ok,
    Edit.onPart_eq_ok, Edit.get_bind, Edit.ofExcept_eq_ok, VoxelSet.absolute_eq_ok]
  exact ⟨(), (i₁, { s with cap := released }), hrelease, _, (i₂, _), ⟨hcreate, rfl⟩, (), (i₂, _),
    ⟨rfl, rfl⟩, (), _, ⟨(i₂, _), ⟨hedges, rfl⟩, rfl⟩, (), _, ⟨(i₃, cap), hfill, rfl⟩, _,
    ⟨⟨hsound₂.isLive, rfl⟩, rfl⟩, rfl⟩

/-- A profile can be swept along a vector if all that is read of it stays in range. -/
structure IsReadable (p : Profile) (vector : Voxel) (vertices fill : List Voxel) : Prop where
  vertices_eq : p.vertices = .ok vertices
  fill_eq : p.base.absolute = .ok fill
  ne_nil : vertices ≠ []
  vertices_inRange : ∀ v ∈ vertices, v.InRange ∧ (v + vector).InRange
  fill_inRange : ∀ v ∈ fill, v.InRange ∧ (v + vector).InRange

/-- The voxels between voxels in range and their moved twins in range are in range. -/
theorem inRange_tracks {vector : Voxel} {voxels : List Voxel}
    (h : ∀ v ∈ voxels, v.InRange ∧ (v + vector).InRange) :
    ∀ v ∈ tracks vector voxels, v.InRange := by
  intro v hv
  obtain ⟨start, hstart, hv⟩ := List.mem_flatMap.1 hv
  obtain ⟨hin, hmoved⟩ := h start hstart
  exact inRange_of_isBetween hin hmoved (isBetween_of_mem_segment hv)

/-- The voxels of the segments without their ends are among those of the segments. -/
theorem innerTracks_subset_tracks (vector : Voxel) (voxels : List Voxel) :
    innerTracks vector voxels ⊆ tracks vector voxels := by
  intro x hx
  obtain ⟨v, hv, hx⟩ := List.mem_flatMap.1 hx
  exact List.mem_flatMap.2 ⟨v, hv, List.mem_of_mem_tail (List.mem_of_mem_dropLast hx)⟩

/-- A live sweep takes voxels in range. -/
theorem exists_setAbsolute {voxels : List Voxel} (i : Issuer) (hlive : s.base.isDeleted = false)
    (hrange : ∀ v ∈ voxels, v.InRange) :
    ∃ base, setAbsolute voxels (i, s) = .ok () (i, { s with base }) := by
  obtain ⟨base, hset, -⟩ := VoxelSet.exists_setFill_absolute hlive hrange
  refine ⟨base, ?_⟩
  simp only [setAbsolute, Edit.onSecond_eq_ok, Edit.onPart_eq_ok, Edit.get_bind]
  exact ⟨⟨base, hset, rfl⟩, trivial⟩

/-- The edges of a profile can be swept to a shell if they are there and stay in range. -/
def HasEdges (p : Profile) (vector : Voxel) : Prop :=
  ∃ edges, p.edgeVoxels = .ok edges ∧ edges ≠ [] ∧
    ∀ v ∈ edges, v.InRange ∧ (v + vector).InRange

/-- With an end cap in range the voxels of some form are in range. -/
theorem exists_form (shell : Bool) {p : Profile} {vector : Voxel} {vertices fill : List Voxel}
    (hp : IsReadable p vector vertices fill)
    (hshell : shell = true → vector ≠ .zero → HasEdges p vector) :
    ∃ all, Form shell p vector fill all ∧
      ∀ lid, (∀ v ∈ lid, v.InRange) → ∀ v ∈ all lid, v.InRange := by
  by_cases h : shell = false ∨ vector = .zero
  · exact ⟨_, .solid h, fun lid hlid =>
      List.forall_mem_append.2 ⟨inRange_tracks hp.fill_inRange, hlid⟩⟩
  · obtain ⟨hmode, hzero⟩ := not_or.1 h
    have hmode : shell = true := by simpa using hmode
    obtain ⟨edges, hedges, hne, hrange⟩ := hshell hmode hzero
    refine ⟨_, .shell hmode hzero hedges hne, fun lid hlid =>
      List.forall_mem_append.2 ⟨List.forall_mem_append.2 ⟨fun v hv => ?_, hlid⟩, fun v hv => ?_⟩⟩
    · exact inRange_tracks hrange v (innerTracks_subset_tracks vector edges hv)
    · exact (hp.fill_inRange v hv).1

/-- A live sweep over such a profile is extruded, and has an end cap then. -/
theorem exists_extrusion (shell : Bool) {p : Profile} {vertices fill : List Voxel}
    (h : i.Owns held (s.sets ++ others)) (hp : IsReadable p s.vector vertices fill)
    (hshell : shell = true → s.vector ≠ .zero → HasEdges p s.vector) :
    ∃ i' s', extrude shell p (i, s) = .ok () (i', s') ∧ s'.cap.isSome := by
  have hlive : s.base.isDeleted = false := (h.isSound s.base List.mem_cons_self).isLive
  obtain ⟨all, hform, hall⟩ := exists_form shell hp hshell
  obtain ⟨lid, i', cap, hcap, hlid⟩ := exists_buildCap (s := { s with isShell := shell }) h
    (by simpa using hp.ne_nil) (List.forall_mem_map.2 fun v hv => (hp.vertices_inRange v hv).2)
  obtain ⟨base, hset⟩ := exists_setAbsolute (s := { s with isShell := shell, cap := some cap }) i'
    hlive fun v hv => hall lid hlid v (Voxel.mem_distinct.1 hv)
  exact ⟨i', _, extrude_eq_ok.2 ⟨hlive, vertices, fill, all, lid, _, hp.vertices_eq, hp.fill_eq,
    hform, hcap, hset⟩, rfl⟩

/-- A live sweep over such a profile is extruded to a solid one. -/
theorem exists_extrude {p : Profile} {vertices fill : List Voxel}
    (h : i.Owns held (s.sets ++ others)) (hp : IsReadable p s.vector vertices fill) :
    ∃ i' s', extrude false p (i, s) = .ok () (i', s') ∧ s'.cap.isSome :=
  exists_extrusion false h hp nofun

end VoxelAlgebra.Sweep
