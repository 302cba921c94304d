import VoxelAlgebra.Proofs.Solid.Runs.Basic

/-!
# Successful runs of sweeps

A sweep owns its own voxels and its end cap. The cap is given back before it is replaced or dropped,
so a successful run ends with at most one cap.

## Main definitions

* `Sweep.sets` — the sets of a sweep.
* `Sweep.buildCap_eq_ok` — how an end cap is made.
* `Sweep.Form`, `Sweep.takeForm` — what an extrusion takes.
* `Sweep.extrude_eq`, `Sweep.extrude_eq_ok` — the two parts of an extrusion, and when it succeeds.
* `Sweep.owns_of_extrude` and its siblings — what a sweep owns after a run.
-/

namespace VoxelAlgebra.Sweep

open VoxelSet (IsChange)

variable {i i' : Issuer} {held : Set String} {others : List VoxelSet} {u : Unit} {s s' : Sweep}

def sets (s : Sweep) : List VoxelSet := s.base :: s.cap.elim [] fun cap => [cap.base]

/-- The sweep is the same but for its end cap. -/
theorem releaseCap_eq_ok (hrun : releaseCap (i, s) = .ok u (i', s')) :
    ∃ cap, s' = { s with cap } := by
  cases hcap : s.cap with
  | none =>
    simp only [releaseCap, Edit.get_bind, hcap, Edit.pure_eq_ok] at hrun
    obtain ⟨-, hend⟩ := hrun
    cases hend
    exact ⟨s.cap, rfl⟩
  | some cap =>
    simp only [releaseCap, Edit.get_bind, hcap, Edit.bind_eq_ok, Edit.onFirst_eq_ok,
      Edit.onSecond_eq_ok, Edit.modify_eq_ok] at hrun
    obtain ⟨_, ⟨_, _⟩, ⟨-, rfl⟩, rfl, -⟩ := hrun
    exact ⟨_, rfl⟩

theorem owns_of_releaseCap (h : i.Owns held (s.sets ++ others))
    (hrun : releaseCap (i, s) = .ok u (i', s')) : i'.Owns held (s.base :: others) := by
  cases hcap : s.cap with
  | none =>
    simp only [releaseCap, Edit.get_bind, hcap, Edit.pure_eq_ok] at hrun
    obtain ⟨-, hend⟩ := hrun
    cases hend
    rwa [sets, hcap] at h
  | some cap =>
    simp only [releaseCap, Edit.get_bind, hcap, Edit.bind_eq_ok, Edit.onFirst_eq_ok,
      Edit.onSecond_eq_ok, Edit.modify_eq_ok] at hrun
    obtain ⟨cap', ⟨i₁, _⟩, ⟨hrelease, rfl⟩, rfl, rfl⟩ := hrun
    simp only [sets, hcap, Option.elim_some] at h
    have howns := h.perm (List.Perm.swap cap.base s.base others)
    exact (Layer.owns_of_release (fun _ => howns) hrelease).2

theorem setAbsolute_eq_ok {voxels : List Voxel}
    (hrun : setAbsolute voxels (i, s) = .ok u (i', s')) :
    i' = i ∧ ∃ base, VoxelSet.setFill (voxels.map (· - s.base.origin)) s.base = .ok u base ∧
      s' = { s with base } := by
  simp only [setAbsolute, Edit.onSecond_eq_ok, Edit.onPart_eq_ok, Edit.get_bind] at hrun
  obtain ⟨⟨base, hset, rfl⟩, rfl⟩ := hrun
  exact ⟨rfl, base, hset, rfl⟩

/-- Going back to the swept set gives the end cap back and drops it. -/
theorem reset_eq_ok {swept : VoxelSet} (hrun : reset swept (i, s) = .ok u (i', s')) :
    ∃ cap base, releaseCap (i, s) = .ok () (i', { s with cap }) ∧ IsChange s.base base ∧
      s' = { s with base, cap := none, isShell := false } := by
  simp only [reset, Edit.bind_eq_ok, Edit.onSecond_eq_ok, Edit.modify_eq_ok,
    Edit.ofExcept_eq_ok] at hrun
  obtain ⟨_, ⟨i₁, s₁⟩, hrelease, _, ⟨_, _⟩, ⟨rfl, rfl⟩, _, _, ⟨-, rfl⟩, hrun⟩ := hrun
  obtain ⟨cap, rfl⟩ := releaseCap_eq_ok hrelease
  obtain ⟨rfl, base, hset, rfl⟩ := setAbsolute_eq_ok hrun
  exact ⟨cap, base, hrelease, VoxelSet.isChange_of_setFill hset, rfl⟩

theorem isChange_of_reset {swept : VoxelSet} (hrun : reset swept (i, s) = .ok u (i', s')) :
    IsChange s.base s'.base := by
  obtain ⟨cap, base, -, hchange, rfl⟩ := reset_eq_ok hrun
  exact hchange

theorem owns_of_reset {swept : VoxelSet}
    (h : s.base.isDeleted = false → i.Owns held (s.sets ++ others))
    (hrun : reset swept (i, s) = .ok u (i', s')) : i'.Owns held (s'.sets ++ others) := by
  obtain ⟨cap, base, hrelease, hchange, rfl⟩ := reset_eq_ok hrun
  exact .of_isChange (fun hlive => owns_of_releaseCap (h hlive) hrelease) hchange

theorem changeVector_eq_ok {vector : List Number} {swept : VoxelSet}
    (hrun : changeVector vector swept (i, s) = .ok u (i', s')) :
    ∃ v, reset swept (i, { s with vector := v }) = .ok u (i', s') := by
  simp only [changeVector, Edit.bind_eq_ok, Edit.get_bind, Edit.onSecond_eq_ok, Edit.modify_eq_ok,
    Edit.ofExcept_eq_ok] at hrun
  obtain ⟨_, _, ⟨-, rfl⟩, v, _, ⟨-, rfl⟩, _, ⟨_, _⟩, ⟨rfl, rfl⟩, hreset⟩ := hrun
  exact ⟨v, hreset⟩

theorem isChange_of_changeVector {vector : List Number} {swept : VoxelSet}
    (hrun : changeVector vector swept (i, s) = .ok u (i', s')) : IsChange s.base s'.base := by
  obtain ⟨v, hreset⟩ := changeVector_eq_ok hrun
  exact isChange_of_reset (s := { s with vector := v }) hreset

theorem owns_of_changeVector {vector : List Number} {swept : VoxelSet}
    (h : s.base.isDeleted = false → i.Owns held (s.sets ++ others))
    (hrun : changeVector vector swept (i, s) = .ok u (i', s')) :
    i'.Owns held (s'.sets ++ others) := by
  obtain ⟨v, hreset⟩ := changeVector_eq_ok hrun
  exact owns_of_reset (s := { s with vector := v }) h hreset

/-- An end cap is made, traced and filled behind the one that is given back. -/
theorem buildCap_eq_ok {vertices voxels : List Voxel}
    (hrun : buildCap vertices (i, s) = .ok voxels (i', s')) :
    ∃ released i₁ i₂ created traced cap,
      releaseCap (i, s) = .ok () (i₁, { s with cap := released }) ∧
      Layer.create vertices i₁ = .ok created i₂ ∧ Layer.generateEdges created = .ok () traced ∧
      Layer.fillPolygon (i₂, traced) = .ok () (i', cap) ∧ cap.base.absolute = .ok voxels ∧
      s' = { s with cap := some cap } := by
  simp only [buildCap, Edit.bind_eq_ok, Edit.onFirst_eq_ok, Edit.onSecond_eq_ok, Edit.modify_eq_ok,
    Edit.onPart_eq_ok, Edit.get_bind, Edit.ofExcept_eq_ok] at hrun
  obtain ⟨_, ⟨i₁, s₁⟩, hrelease, created, ⟨i₂, _⟩, ⟨hcreate, rfl⟩, _, ⟨_, _⟩, ⟨rfl, rfl⟩, _, _,
    ⟨⟨_, traced⟩, ⟨hedges, rfl⟩, rfl⟩, _, _, ⟨⟨i₃, cap⟩, hfill, rfl⟩, _, ⟨habsolute, rfl⟩, hend⟩ :=
    hrun
  cases hend
  obtain ⟨released, rfl⟩ := releaseCap_eq_ok hrelease
  exact ⟨released, i₁, i₂, created, traced, cap, hrelease, hcreate, hedges, hfill, habsolute, rfl⟩

/-- A new end cap takes the place of the one that is given back. -/
theorem owns_of_buildCap {vertices voxels : List Voxel} (h : i.Owns held (s.sets ++ others))
    (hrun : buildCap vertices (i, s) = .ok voxels (i', s')) : i'.Owns held (s'.sets ++ others) := by
  obtain ⟨_, i₁, i₂, created, traced, cap, hrelease, hcreate, hedges, hfill, -, rfl⟩ :=
    buildCap_eq_ok hrun
  have howns := Layer.owns_of_create (owns_of_releaseCap h hrelease) hcreate
  have howns := Issuer.Owns.of_isChange (fun _ => howns) (Layer.isChange_of_generateEdges hedges)
  have howns := Layer.owns_of_fillPolygon (fun _ => howns) hfill
  exact howns.perm (List.Perm.swap s.base cap.base others)

theorem owns_of_setAbsolute {voxels : List Voxel} (h : i.Owns held (s.sets ++ others))
    (hrun : setAbsolute voxels (i, s) = .ok u (i', s')) : i'.Owns held (s'.sets ++ others) := by
  obtain ⟨rfl, base, hset, rfl⟩ := setAbsolute_eq_ok hrun
  exact .of_isChange (fun _ => h) (VoxelSet.isChange_of_setFill hset)

/-- Along the zero vector the voxels are their own tracks. -/
theorem tracks_zero (voxels : List Voxel) : tracks .zero voxels = voxels := by
  simp [tracks, Voxel.add_zero, segment_self]

/-- The voxels that an extrusion takes together with those of its end cap: a solid one along its
vector, and also a shell whose vector is zero, or a shell. -/
inductive Form (shell : Bool) (p : Profile) (vector : Voxel) (fill : List Voxel) :
    (List Voxel → List Voxel) → Prop
  | solid (h : shell = false ∨ vector = .zero) : Form shell p vector fill (tracks vector fill ++ ·)
  | shell {edges : List Voxel} (hshell : shell = true) (hzero : vector ≠ .zero)
      (hedges : p.edgeVoxels = .ok edges) (hne : edges ≠ []) :
      Form shell p vector fill (innerTracks vector edges ++ · ++ fill)

/-- Takes the voxels of a form, in which those of the end cap are `lid`. -/
def takeForm (shell : Bool) (p : Profile) (vector : Voxel) (lid : List Voxel) :
    Edit (Issuer × Sweep) Unit := do
  if shell ∧ vector ≠ .zero then
    let edges ← Edit.ofExcept p.edgeVoxels
    if edges.isEmpty then
      throw (.report
        (.emptyInput ("shell extrusion of layer " ++ p.base.id ++ " edge directory") 1))
    let fill ← Edit.ofExcept p.base.absolute
    setAbsolute (Voxel.distinct (innerTracks vector edges ++ lid ++ fill))
  else
    let fill ← Edit.ofExcept p.base.absolute
    setAbsolute (Voxel.distinct (tracks vector fill ++ lid))

/-- A form is taken when the fill of the profile can be read, and for a shell its edges. -/
theorem takeForm_eq_ok {shell : Bool} {p : Profile} {vector : Voxel} {lid : List Voxel}
    {x y : Issuer × Sweep} : takeForm shell p vector lid x = .ok u y ↔
      ∃ fill all, p.base.absolute = .ok fill ∧ Form shell p vector fill all ∧
        setAbsolute (Voxel.distinct (all lid)) x = .ok u y := by
  rw [takeForm]
  constructor
  · intro hrun
    split_ifs at hrun with h
    · obtain ⟨edges, _, hread, hrun⟩ := Edit.bind_eq_ok.1 hrun
      obtain ⟨hedges, rfl⟩ := Edit.ofExcept_eq_ok.1 hread
      split_ifs at hrun with hempty
      · simp [Edit.bind_eq_ok] at hrun
      · simp only [Edit.bind_eq_ok, Edit.ofExcept_eq_ok] at hrun
        obtain ⟨fill, _, ⟨hfill, rfl⟩, hset⟩ := hrun
        have hne : edges ≠ [] := fun h => hempty (List.isEmpty_iff.2 h)
        exact ⟨fill, _, hfill, .shell h.1 h.2 hedges hne, hset⟩
    · simp only [Edit.bind_eq_ok, Edit.ofExcept_eq_ok] at hrun
      obtain ⟨fill, _, ⟨hfill, rfl⟩, hset⟩ := hrun
      have hsolid : shell = false ∨ vector = .zero := by
        simpa [Classical.or_iff_not_imp_left] using h
      exact ⟨fill, _, hfill, .solid hsolid, hset⟩
  · rintro ⟨fill, all, hfill, hform, hset⟩
    cases hform with
    | solid h =>
      have hsolid : ¬(shell = true ∧ vector ≠ .zero) := by
        simpa [Classical.or_iff_not_imp_left] using h
      simp only [if_neg hsolid, Edit.bind_eq_ok, Edit.ofExcept_eq_ok]
      exact ⟨fill, x, ⟨hfill, rfl⟩, hset⟩
    | @shell edges hshell hzero hedges hne =>
      rw [if_pos ⟨hshell, hzero⟩, Edit.bind_eq_ok]
      refine ⟨edges, x, Edit.ofExcept_eq_ok.2 ⟨hedges, rfl⟩, ?_⟩
      rw [if_neg fun h => hne (List.isEmpty_iff.1 h)]
      simp only [Edit.bind_eq_ok, Edit.ofExcept_eq_ok]
      exact ⟨fill, x, ⟨hfill, rfl⟩, hset⟩

/-- An extrusion makes its end cap at the end of the vector, and then takes the voxels of its form.
The zero vector is no exception: it moves nothing, and every form along it is solid. -/
theorem extrude_eq (shell : Bool) (p : Profile) (i : Issuer) (s : Sweep) :
    extrude shell p (i, s) = (do
      Edit.ofExcept s.base.checkAlive
      Edit.onSecond (modify ({ · with isShell := shell }))
      let vertices ← Edit.ofExcept p.vertices
      let lid ← buildCap (vertices.map (· + s.vector))
      takeForm shell p s.vector lid : Edit (Issuer × Sweep) Unit) (i, s) := by
  rw [extrude, Edit.get_bind]
  cases s.base.checkAlive with
  | error e => rfl
  | ok =>
    cases p.vertices with
    | error e => rfl
    | ok vertices =>
      change (if s.vector = .zero then _ else _ : Edit (Issuer × Sweep) Unit)
        (i, { s with isShell := shell }) =
          (buildCap _ >>= fun lid => takeForm shell p s.vector lid) (i, { s with isShell := shell })
      by_cases hzero : s.vector = .zero
      · have hstays : vertices.map (· + s.vector) = vertices := by simp [hzero, Voxel.add_zero]
        rw [if_pos hzero, hstays]
        simp only [takeForm, hzero, ne_eq, not_true_eq_false, and_false, if_false, tracks_zero]
      · rw [if_neg hzero]
        simp only [takeForm, hzero, ne_eq, not_false_eq_true, and_true]

/-- A sweep is extruded when it is alive, its profile can be read, and its end cap can be made and
the voxels of its form be taken. -/
theorem extrude_eq_ok {shell : Bool} {p : Profile} {x : Issuer × Sweep} :
    extrude shell p (i, s) = .ok u x ↔ s.base.isDeleted = false ∧
      ∃ vertices fill all lid y, p.vertices = .ok vertices ∧ p.base.absolute = .ok fill ∧
        Form shell p s.vector fill all ∧
        buildCap (vertices.map (· + s.vector)) (i, { s with isShell := shell }) = .ok lid y ∧
        setAbsolute (Voxel.distinct (all lid)) y = .ok u x := by
  simp only [extrude_eq, takeForm_eq_ok, Edit.bind_eq_ok, Edit.onSecond_eq_ok, Edit.modify_eq_ok,
    Edit.ofExcept_eq_ok, VoxelSet.checkAlive_eq_ok]
  constructor
  · rintro ⟨_, _, ⟨hlive, rfl⟩, _, ⟨_, _⟩, ⟨rfl, rfl⟩, vertices, _, ⟨hvertices, rfl⟩, lid, y, hcap,
      fill, all, hfill, hform, hset⟩
    exact ⟨hlive, vertices, fill, all, lid, y, hvertices, hfill, hform, hcap, hset⟩
  · rintro ⟨hlive, vertices, fill, all, lid, y, hvertices, hfill, hform, hcap, hset⟩
    exact ⟨(), _, ⟨hlive, rfl⟩, (), (i, _), ⟨rfl, rfl⟩, vertices, _, ⟨hvertices, rfl⟩, lid, y, hcap,
      fill, all, hfill, hform, hset⟩

/-- An extruded sweep is the same but for its voxels, its end cap and its mode. -/
theorem exists_of_extrude {shell : Bool} {profile : Profile}
    (hrun : extrude shell profile (i, s) = .ok u (i', s')) :
    ∃ base cap, IsChange s.base base ∧ s' = { s with base, cap := some cap, isShell := shell } := by
  obtain ⟨-, _, _, _, _, ⟨_, _⟩, -, -, -, hcap, hrun⟩ := extrude_eq_ok.1 hrun
  obtain ⟨_, _, _, _, _, cap, -, -, -, -, -, rfl⟩ := buildCap_eq_ok hcap
  obtain ⟨-, base, hset, rfl⟩ := setAbsolute_eq_ok hrun
  exact ⟨base, cap, VoxelSet.isChange_of_setFill hset, rfl⟩

theorem isChange_of_extrude {shell : Bool} {profile : Profile}
    (hrun : extrude shell profile (i, s) = .ok u (i', s')) : IsChange s.base s'.base := by
  obtain ⟨base, cap, hchange, rfl⟩ := exists_of_extrude hrun
  exact hchange

theorem owns_of_extrude {shell : Bool} {profile : Profile}
    (h : s.base.isDeleted = false → i.Owns held (s.sets ++ others))
    (hrun : extrude shell profile (i, s) = .ok u (i', s')) : i'.Owns held (s'.sets ++ others) := by
  obtain ⟨hlive, _, _, _, _, ⟨_, _⟩, -, -, -, hcap, hset⟩ := extrude_eq_ok.1 hrun
  have howns : i.Owns held (({ s with isShell := shell } : Sweep).sets ++ others) := h hlive
  exact owns_of_setAbsolute (owns_of_buildCap howns hcap) hset

theorem owns_of_release (h : s.base.isDeleted = false → i.Owns held (s.sets ++ others))
    (hrun : release (i, s) = .ok u (i', s')) : s'.base.isDeleted = true ∧ i'.Owns held others := by
  simp only [release, Edit.bind_eq_ok, Edit.get_bind, Edit.onFirst_eq_ok, Edit.onSecond_eq_ok,
    Edit.modify_eq_ok, Edit.ofExcept_eq_ok, VoxelSet.checkAlive_eq_ok] at hrun
  obtain ⟨_, _, ⟨hlive, rfl⟩, _, ⟨i₁, s₁⟩, hcap, _, ⟨_, _⟩, ⟨rfl, rfl⟩, base, ⟨i₂, _⟩,
    ⟨hrelease, rfl⟩, rfl, rfl⟩ := hrun
  obtain ⟨_, rfl⟩ := releaseCap_eq_ok hcap
  exact Issuer.Owns.of_release (fun _ => owns_of_releaseCap (h hlive) hcap) hrelease

/-- A new sweep has no end cap. -/
theorem create_eq_ok {origin vector : List Number} {swept : Option VoxelSet}
    (hrun : create origin vector swept i = .ok s i') :
    s.cap = none ∧ ∃ fill, VoxelSet.createFrom origin fill i = .ok s.base i' := by
  cases swept with
  | none => exact (Edit.throw_eq_ok.1 hrun).elim
  | some swept =>
    simp only [create, Edit.bind_eq_ok, Edit.ofExcept_eq_ok, Edit.pure_eq_ok] at hrun
    obtain ⟨_, _, ⟨-, rfl⟩, _, _, ⟨-, rfl⟩, fill, _, ⟨-, rfl⟩, base, _, hcreate, rfl, rfl⟩ := hrun
    exact ⟨rfl, fill, hcreate⟩

theorem owns_of_create {origin vector : List Number} {swept : Option VoxelSet}
    {sets : List VoxelSet} (h : i.Owns held sets)
    (hrun : create origin vector swept i = .ok s i') : i'.Owns held (s.sets ++ sets) := by
  obtain ⟨hcap, fill, hcreate⟩ := create_eq_ok hrun
  rw [Sweep.sets, hcap]
  exact h.of_createFrom hcreate

end VoxelAlgebra.Sweep
