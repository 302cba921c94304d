import VoxelAlgebra.Proofs.Solid.Representation
import VoxelAlgebra.Proofs.Solid.Sweep

/-!
# The end cap of a sweep

A new end cap takes the place of the one before, which is given back first. Where no layer can be
made through the moved vertices, the sweep goes on referring to the cap that it gave back. From then
on every step that gives the cap back fails. All other steps leave the sweep with a cap that can be
given back or without one, whether they succeed or fail.

## Main definitions

* `Layer.IsCreatable` — vertices that a layer can be made through.
* `Sweep.IsReleasable` — the end cap can be given back.
* `Sweep.LosesCap` — an extrusion that gives the cap back and cannot make another one.
* `Sweep.GoesOn` — what is left of a sweep.
* `Sweep.endsWith_extrude`, `Sweep.endsIn_release` — the outcomes of extruding and of the deletion.
-/

namespace VoxelAlgebra

open VoxelSet (IsSame)

/-! ## Sets and layers -/

namespace VoxelSet

variable {s : VoxelSet} {i : Issuer}

theorem endsIn_setFill (fill : List Voxel) (s : VoxelSet) :
    (setFill fill).EndsIn s (fun _ => IsSame s) fun _ => IsSame s :=
  (isSafe_modify (f := fun s => { s with fill }) (fun _ => ⟨rfl, rfl⟩) (.refl s)).imp
    (fun _ _ h => h) fun _ _ h => h.1

/-- Only a deleted set cannot be deleted. -/
theorem endsIn_release (s : VoxelSet) (i : Issuer) : s.release.EndsIn i
    (fun t i' => s.isDeleted = false ∧ t = s.emptied ∧
      ∀ id, id ∈ i'.inUse ↔ id ∈ i.inUse ∧ id ≠ s.id)
    fun e i' => i' = i ∧ s.isDeleted = true ∧ e = .report (.deletedObject s.id) := by
  simp only [release, Edit.endsIn_bind, Edit.endsIn_ofExcept, Edit.endsIn_pure, checkAlive_eq_ok,
    checkAlive_eq_error, Issuer.release, Edit.endsIn_modify]
  refine ⟨fun _ hlive => ⟨hlive, trivial, fun id => ?_⟩, fun e he => ⟨trivial, he⟩⟩
  simp [Issuer.inUse, Registry.remove, Registry.unregister]

end VoxelSet

namespace Layer

def IsCreatable (vertices : List Voxel) : Prop := vertices ≠ [] ∧ ∀ v ∈ vertices, v.InRange

theorem endsIn_create (vertices : List Voxel) (i : Issuer) : (create vertices).EndsIn i
    (fun l _ => IsCreatable vertices ∧ l.base.isDeleted = false)
    fun _ _ => ¬IsCreatable vertices := by
  by_cases hne : vertices = []
  · subst hne
    exact fun h => h.1 rfl
  · have hempty : ¬vertices.isEmpty = true := by simpa using hne
    simp only [create, if_neg hempty, Edit.endsIn_bind, Edit.endsIn_pure]
    refine Edit.endsIn_iff.2 ⟨fun base i' hcreate => ?_, fun e i' hcreate hvertices => ?_⟩
    · obtain ⟨-, horigin, hfill, hsound⟩ := VoxelSet.create_eq_ok hcreate
      refine ⟨⟨hne, fun v hv => ?_⟩, hsound.isLive⟩
      apply hsound.inRange
      rwa [VoxelSet.absoluteFill_of_zero horigin, hfill]
    · have hrange : ∀ v ∈ vertices, (v + Voxel.zero).InRange := fun v hv => by
        rw [Voxel.add_zero]
        exact hvertices.2 v hv
      obtain ⟨s, i'', hrun⟩ := VoxelSet.exists_create i hrange
      rw [hrun] at hcreate
      cases hcreate

theorem endsIn_generateEdges (l : Layer) : generateEdges.EndsIn l
    (fun _ l' => IsSame l.base l'.base) fun _ l' => IsSame l.base l'.base := by
  simp only [generateEdges, onBase, Edit.endsIn_bind, Edit.endsIn_get, Edit.endsIn_ofExcept,
    Edit.endsIn_set, Edit.endsIn_onPart]
  exact ⟨fun _ _ => VoxelSet.endsIn_setFill _ l.base, fun _ _ => .refl l.base⟩

theorem endsIn_fillPolygon (i : Issuer) (l : Layer) : fillPolygon.EndsIn (i, l)
    (fun _ p => IsSame l.base p.2.base) fun _ p => IsSame l.base p.2.base := by
  simp only [fillPolygon, onBase, Edit.endsIn_bind, Edit.endsIn_get, Edit.endsIn_ofExcept,
    Edit.endsIn_onFirst, Edit.endsIn_onSecond, Edit.endsIn_onPart]
  refine ⟨fun _ _ => ?_, fun _ _ => .refl l.base⟩
  exact Edit.endsIn_of_forall (fun _ _ => VoxelSet.endsIn_setFill _ l.base) fun _ _ => .refl l.base

end Layer

/-! ## The end cap -/

namespace Sweep

variable {s s' : Sweep} {i : Issuer}

/-- A sweep is releasable if it has no end cap or one that can be given back. -/
def IsReleasable (s : Sweep) : Prop := ∀ cap ∈ s.cap, cap.base.isDeleted = false

/-- The sweep whose end cap was given back, and which refers to it still. -/
def withReleasedCap (s : Sweep) : Sweep :=
  { s with cap := s.cap.map fun cap => { cap with base := cap.base.emptied, edges := [] } }

theorem isReleasable_withReleasedCap : s.withReleasedCap.IsReleasable ↔ s.cap = none := by
  cases hcap : s.cap <;> simp [IsReleasable, withReleasedCap, hcap, VoxelSet.emptied]

theorem isReleasable_of_none (hcap : s.cap = none) : s.IsReleasable := by
  simp [IsReleasable, hcap]

theorem withReleasedCap_of_none (hcap : s.cap = none) : s.withReleasedCap = s := by
  obtain ⟨base, vector, cap, isShell⟩ := s
  subst hcap
  rfl

/-- Only a cap that was given back before cannot be given back. -/
theorem endsIn_releaseCap (i : Issuer) (s : Sweep) : releaseCap.EndsIn (i, s)
    (fun _ p => s.IsReleasable ∧ p.2 = s.withReleasedCap ∧
      ∀ id, id ∈ p.1.inUse ↔ id ∈ i.inUse ∧ ∀ cap ∈ s.cap, id ≠ cap.base.id)
    fun e p => p = (i, s) ∧
      ∃ cap ∈ s.cap, cap.base.isDeleted = true ∧ e = .report (.deletedObject cap.base.id) := by
  rw [releaseCap, Edit.endsIn_bind, Edit.endsIn_get]
  cases hcap : s.cap with
  | none =>
    refine ⟨isReleasable_of_none hcap, (withReleasedCap_of_none hcap).symm, fun id => ?_⟩
    simp
  | some cap =>
    simp only [Layer.release, Edit.endsIn_bind, Edit.endsIn_onFirst, Edit.endsIn_onSecond,
      Edit.endsIn_modify, Edit.endsIn_pure]
    refine (VoxelSet.endsIn_release cap.base i).imp ?_ ?_
    · rintro _ i' ⟨hlive, rfl, hinUse⟩
      simp [IsReleasable, withReleasedCap, hcap, hlive, hinUse]
    · rintro e i' ⟨rfl, hdeleted, rfl⟩
      exact ⟨rfl, cap, rfl, hdeleted, rfl⟩

theorem not_isReleasable {cap : Layer} (hcap : cap ∈ s.cap) (hdeleted : cap.base.isDeleted = true) :
    ¬s.IsReleasable := fun h => by
  rw [h cap hcap] at hdeleted
  cases hdeleted

/-- The sweep whose voxels were `base` at another time, as live as before. `P` tells whether it is
releasable. -/
structure GoesOn (base : VoxelSet) (P : Prop) (s : Sweep) : Prop where
  isSame : IsSame base s.base
  isReleasable_iff : s.IsReleasable ↔ P

/-- However the edit ends, the sweep goes on, releasable if and only if `P` holds. -/
def EndsWith {α : Type} (edit : Edit (Issuer × Sweep) α) (i : Issuer) (s : Sweep) (P : Prop) :
    Prop :=
  edit.EndsIn (i, s) (fun _ p => GoesOn s.base P p.2) fun _ p => GoesOn s.base P p.2

def KeepsCap (edit : Edit (Issuer × Sweep) Unit) : Prop :=
  ∀ i s, edit.EndsIn (i, s) (fun _ p => IsSame s.base p.2.base ∧ p.2.cap = s.cap)
    fun _ p => IsSame s.base p.2.base ∧ p.2.cap = s.cap

theorem keepsCap_setAbsolute {voxels : List Voxel} : KeepsCap (setAbsolute voxels) := fun i s => by
  simp only [setAbsolute, Edit.endsIn_onSecond, Edit.endsIn_onPart, Edit.endsIn_bind,
    Edit.endsIn_get]
  exact (VoxelSet.endsIn_setFill _ s.base).imp (fun _ _ h => ⟨h, trivial⟩)
    fun _ _ h => ⟨h, trivial⟩

theorem keepsCap_throw_bind {e : Fault} {f : Unit → Edit (Issuer × Sweep) Unit} :
    KeepsCap (throw e >>= f) := fun _ s => Edit.endsIn_bind.2 ⟨.refl s.base, rfl⟩

theorem KeepsCap.ofExcept_bind {α : Type} {x : Except Fault α}
    {f : α → Edit (Issuer × Sweep) Unit} (h : ∀ a, KeepsCap (f a)) :
    KeepsCap (Edit.ofExcept x >>= f) := fun i s => by
  rw [Edit.endsIn_bind, Edit.endsIn_ofExcept]
  exact ⟨fun a _ => h a i s, fun _ _ => ⟨.refl s.base, rfl⟩⟩

/-- Going back to the swept set drops the cap that was given back. -/
theorem endsWith_reset (swept : VoxelSet) (i : Issuer) (s : Sweep) :
    EndsWith (reset swept) i s s.IsReleasable := by
  rw [EndsWith, reset, Edit.endsIn_bind]
  refine (endsIn_releaseCap i s).imp ?_ ?_
  · rintro _ ⟨i', _⟩ ⟨hcap, rfl, -⟩
    simp only [Edit.endsIn_bind, Edit.endsIn_onSecond, Edit.endsIn_modify, Edit.endsIn_ofExcept]
    have hdropped : ∀ t : Sweep, IsSame s.base t.base ∧ t.cap = none →
        GoesOn s.base s.IsReleasable t := by
      rintro t ⟨hsame, hnone⟩
      exact ⟨hsame, iff_of_true (isReleasable_of_none hnone) hcap⟩
    refine ⟨fun voxels _ => ?_, fun _ _ => hdropped _ ⟨.refl s.base, rfl⟩⟩
    exact (keepsCap_setAbsolute i' _).imp (fun _ p => hdropped p.2) fun _ p => hdropped p.2
  · rintro e _ ⟨rfl, -⟩
    exact ⟨.refl s.base, Iff.rfl⟩

theorem endsWith_changeVector (vector : List Number) (swept : VoxelSet) (i : Issuer) (s : Sweep) :
    EndsWith (changeVector vector swept) i s s.IsReleasable := by
  have hstays : GoesOn s.base s.IsReleasable s := ⟨.refl s.base, Iff.rfl⟩
  simp only [EndsWith, changeVector, Edit.endsIn_bind, Edit.endsIn_get, Edit.endsIn_ofExcept,
    Edit.endsIn_onSecond, Edit.endsIn_modify]
  exact ⟨fun _ _ => ⟨fun v _ => endsWith_reset swept i { s with vector := v }, fun _ _ => hstays⟩,
    fun _ _ => hstays⟩

/-- Where no layer can be made through the vertices, the cap that was given back stays. -/
theorem endsWith_buildCap (vertices : List Voxel) (i : Issuer) (s : Sweep) :
    EndsWith (buildCap vertices) i s
      (s.IsReleasable ∧ (s.cap = none ∨ Layer.IsCreatable vertices)) := by
  rw [EndsWith, buildCap, Edit.endsIn_bind]
  refine (endsIn_releaseCap i s).imp ?_ ?_
  · rintro _ ⟨i', _⟩ ⟨hcap, rfl, -⟩
    rw [Edit.endsIn_bind, Edit.endsIn_onFirst]
    refine (Layer.endsIn_create vertices i').imp ?_ ?_
    · rintro cap i'' ⟨hvertices, hlive⟩
      have hbuilt : ∀ c : Layer, IsSame cap.base c.base →
          GoesOn s.base (s.IsReleasable ∧ (s.cap = none ∨ Layer.IsCreatable vertices))
            { s.withReleasedCap with cap := some c } := by
        intro c hsame
        refine ⟨.refl s.base, iff_of_true ?_ ⟨hcap, .inr hvertices⟩⟩
        rintro _ ⟨⟩
        exact hsame.isDeleted.trans hlive
      simp only [Edit.endsIn_bind, Edit.endsIn_onSecond, Edit.endsIn_onPart, Edit.endsIn_modify,
        Edit.endsIn_get, Edit.endsIn_ofExcept, Option.getD_some]
      refine (Layer.endsIn_generateEdges cap).imp (fun _ traced htraced => ?_) fun _ => hbuilt
      refine (Layer.endsIn_fillPolygon i'' traced).imp (fun _ p hfilled => ?_) fun _ p hfilled => ?_
      · have hend := hbuilt p.2 (htraced.trans hfilled)
        exact ⟨fun _ _ => hend, fun _ _ => hend⟩
      · exact hbuilt p.2 (htraced.trans hfilled)
    · -- The cap before was given back, and nothing has taken its place.
      intro e i'' hvertices
      refine ⟨.refl s.base, ?_⟩
      rw [isReleasable_withReleasedCap]
      exact ⟨fun h => ⟨hcap, .inl h⟩, fun h => h.2.resolve_right hvertices⟩
  · rintro e _ ⟨rfl, cap, hcap, hdeleted, -⟩
    have hnot := not_isReleasable hcap hdeleted
    exact ⟨.refl s.base, iff_of_false hnot fun h => hnot h.1⟩

/-! ## Extruding and deleting -/

/-- Extruding the profile gives back the end cap, and no other can be made. -/
def LosesCap (s : Sweep) (profile : Profile) : Prop :=
  s.cap.isSome ∧ ∃ vertices, profile.vertices = .ok vertices ∧
    ¬Layer.IsCreatable (vertices.map (· + s.vector))

/-- What comes after the end cap was made leaves it. -/
theorem endsWith_buildCap_bind {vertices : List Voxel}
    {edit : List Voxel → Edit (Issuer × Sweep) Unit} (h : ∀ cap, KeepsCap (edit cap)) (i : Issuer)
    (s : Sweep) : EndsWith (buildCap vertices >>= edit) i s
      (s.IsReleasable ∧ (s.cap = none ∨ Layer.IsCreatable vertices)) := by
  rw [EndsWith, Edit.endsIn_bind]
  refine (endsWith_buildCap vertices i s).imp (fun cap p hp => ?_) fun _ _ hp => hp
  have hkeeps : ∀ q : Issuer × Sweep, IsSame p.2.base q.2.base ∧ q.2.cap = p.2.cap →
      GoesOn s.base (s.IsReleasable ∧ (s.cap = none ∨ Layer.IsCreatable vertices)) q.2 := by
    rintro q ⟨hsame, hcap⟩
    refine ⟨hp.isSame.trans hsame, ?_⟩
    rw [IsReleasable, hcap]
    exact hp.isReleasable_iff
  exact (h cap p.1 p.2).imp (fun _ => hkeeps) fun _ => hkeeps

theorem keepsCap_takeForm {shell : Bool} {profile : Profile} {vector : Voxel} {lid : List Voxel} :
    KeepsCap (takeForm shell profile vector lid) := by
  rw [takeForm]
  split_ifs
  · refine .ofExcept_bind fun edges => ?_
    split_ifs
    · exact keepsCap_throw_bind
    · exact .ofExcept_bind fun fill => keepsCap_setAbsolute
  · exact .ofExcept_bind fun fill => keepsCap_setAbsolute

theorem not_losesCap_iff {profile : Profile} {vertices : List Voxel}
    (hvertices : profile.vertices = .ok vertices) : ¬s.LosesCap profile ↔
      s.cap = none ∨ Layer.IsCreatable (vertices.map (· + s.vector)) := by
  rw [LosesCap, hvertices, not_and_or, Option.not_isSome_iff_eq_none]
  simp

/-- Whether it succeeds or fails, extruding leaves an end cap that can be given back, unless there
was none before or the new one cannot be made. -/
theorem endsWith_extrude (shell : Bool) (profile : Profile) (i : Issuer)
    (hlive : s.base.isDeleted = false) :
    EndsWith (extrude shell profile) i s (s.IsReleasable ∧ ¬s.LosesCap profile) := by
  have halive : s.base.checkAlive = .ok () := VoxelSet.checkAlive_eq_ok.2 hlive
  rw [EndsWith, Edit.endsIn_congr (extrude_eq shell profile i s)]
  simp only [Edit.endsIn_bind, halive, Edit.endsIn_ofExcept_ok, Edit.endsIn_onSecond,
    Edit.endsIn_modify]
  refine Edit.endsIn_ofExcept.2 ⟨fun vertices hvertices => ?_, fun e he => ?_⟩
  · rw [not_losesCap_iff hvertices, ← Edit.endsIn_bind]
    exact endsWith_buildCap_bind (fun lid => keepsCap_takeForm) i { s with isShell := shell }
  · refine ⟨.refl s.base, (and_iff_left ?_).symm⟩
    rintro ⟨-, vertices, hvertices, -⟩
    rw [he] at hvertices
    cases hvertices

theorem of_create {origin vector : List Number} {swept : Option VoxelSet} {i' : Issuer}
    (hrun : create origin vector swept i = .ok s i') :
    s.base.isDeleted = false ∧ s.cap = none := by
  obtain ⟨hcap, fill, hcreate⟩ := create_eq_ok hrun
  exact ⟨(VoxelSet.isSound_of_createFrom hcreate).isLive, hcap⟩

/-- Extruding keeps the vector. -/
theorem vector_of_extrude {shell : Bool} {profile : Profile} {i' : Issuer} {u : Unit}
    (hrun : extrude shell profile (i, s) = .ok u (i', s')) : s'.vector = s.vector := by
  obtain ⟨base, cap, -, rfl⟩ := exists_of_extrude hrun
  rfl

/-- A live sweep is deleted if its end cap can be given back; otherwise nothing changes. -/
theorem endsIn_release (i : Issuer) (hlive : s.base.isDeleted = false) : release.EndsIn (i, s)
    (fun _ p => s.IsReleasable ∧ p.2.base.isDeleted = true ∧ ∀ id, id ∈ p.1.inUse ↔
      id ∈ i.inUse ∧ id ≠ s.base.id ∧ ∀ cap ∈ s.cap, id ≠ cap.base.id)
    fun e p => p = (i, s) ∧
      ∃ cap ∈ s.cap, cap.base.isDeleted = true ∧ e = .report (.deletedObject cap.base.id) := by
  have halive : s.base.checkAlive = .ok () := VoxelSet.checkAlive_eq_ok.2 hlive
  simp only [release, Edit.endsIn_bind, Edit.endsIn_get, halive, Edit.endsIn_ofExcept_ok]
  refine (endsIn_releaseCap i s).imp ?_ fun _ _ h => h
  rintro _ ⟨i', _⟩ ⟨hcap, rfl, hinUse⟩
  simp only [Edit.endsIn_onFirst, Edit.endsIn_onSecond, Edit.endsIn_modify]
  refine (VoxelSet.endsIn_release s.base i').imp ?_ ?_
  · rintro _ i'' ⟨-, rfl, hbase⟩
    refine ⟨hcap, rfl, fun id => ?_⟩
    rw [hbase, hinUse]
    tauto
  · rintro e i'' ⟨-, hdeleted, -⟩
    rw [hlive] at hdeleted
    cases hdeleted

end Sweep
end VoxelAlgebra
