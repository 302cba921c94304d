import VoxelAlgebra.Proofs.Solid.Cap
import VoxelAlgebra.Proofs.World.Ownership

/-!
# Deleting a sweep

A sweep is extruded, gets another vector or goes over to another layer, and the layers are moved and
traced and filled. Some of this fails where coordinates go out of range. The sweep can be deleted
afterwards unless one of the extrusions lost its end cap: it found a cap and vertices that cannot be
moved along the vector. After that the deletion fails however often it is tried.

## Main definitions

* `World.Operation.IsSweeping` — the operations on a sweep and on the layers that it sweeps.
* `World.Operation.LosesCap`, `World.LosesCap` — one operation loses the end cap, one of many does.
* `World.SweepsOn` — what is left of a sweep.
* `World.sweepsOn_attempt`, `World.sweepsOn_attemptAll` — after one operation, and after many.
* `World.endsIn_delete` — the outcome of the deletion.
-/

namespace VoxelAlgebra.World

open Sweep (GoesOn)

variable {w w₀ w₁ : World} {h k : Handle} {s : Sweep} {swept : Handle} {base : VoxelSet} {P : Prop}
  {o : Solid}

/-! ## Operations -/

/-- The operations on a sweep and on the layers that it sweeps. None of them makes or deletes an
object. -/
def Operation.IsSweeping : Operation → Prop
  | setOrigin .. | changeVertices .. | generateEdges _ | fillPolygon _ | changeVector ..
  | changeSwept .. | extrude .. => True
  | _ => False

/-- The operation extrudes the sweep `h`, which gives back its end cap and cannot make another. -/
def Operation.LosesCap (h : Handle) (w : World) : Operation → Prop
  | extrude k _ => k = h ∧ ∃ s swept o, w.solids[h]? = some (.sweep s swept) ∧
    w.solids[swept]? = some o ∧ s.LosesCap o.profile
  | _ => False

/-- At `h` there is still the sweep whose voxels were `base`, and `P` tells whether it is
releasable. -/
def SweepsOn (h : Handle) (base : VoxelSet) (P : Prop) (w : World) : Prop :=
  ∃ s swept, w.solids[h]? = some (.sweep s swept) ∧ GoesOn base P s

def KeepsSweep {α : Type} (h : Handle) (base : VoxelSet) (P : Prop) (w : World)
    (edit : Edit World α) : Prop :=
  edit.EndsIn w (fun _ => SweepsOn h base P) fun _ => SweepsOn h base P

namespace SweepsOn

theorem refl (hs : w.solids[h]? = some (.sweep s swept)) : SweepsOn h s.base s.IsReleasable w :=
  ⟨s, swept, hs, .refl s.base, Iff.rfl⟩

theorem put (hs : w.solids[h]? = some o) (hgoes : GoesOn base P s) (i : Issuer) :
    SweepsOn h base P (World.put h (.sweep s swept) { w with issuer := i }) :=
  ⟨s, swept, solids_put (w := { w with issuer := i }) hs _, hgoes⟩

theorem put_of_ne (hw : SweepsOn h base P w) (hne : k ≠ h) (o : Solid) (i : Issuer) :
    SweepsOn h base P (World.put k o { w with issuer := i }) := by
  obtain ⟨s, swept, hs, hgoes⟩ := hw
  refine ⟨s, swept, ?_, hgoes⟩
  rw [solids_put_of_ne hne]
  exact hs

/-- An edit of another object. -/
theorem onPartOf_of_ne {α τ : Type} {part : τ} {write : τ → Solid} {edit : Edit (Issuer × τ) α}
    (hw : SweepsOn h base P w) (hne : k ≠ h) : KeepsSweep h base P w (onPartOf k part write edit) :=
  Edit.endsIn_onPart.2 (Edit.endsIn_of_forall (fun _ p => hw.put_of_ne hne (write p.2) p.1)
    fun _ p => hw.put_of_ne hne (write p.2) p.1)

/-- An edit of the sweep itself. -/
theorem onPartOf (hs : w.solids[h]? = some o) {edit : Edit (Issuer × Sweep) Unit}
    (hedit : s.EndsWith edit w.issuer P) :
    KeepsSweep h s.base P w (World.onPartOf h s (fun s => .sweep s swept) edit) :=
  Edit.endsIn_onPart.2 (hedit.imp (fun _ p hp => put hs hp p.1) fun _ p hp => put hs hp p.1)

end SweepsOn

/-! ## One operation -/

/-- An edit of a layer is not one of the sweep. -/
theorem keepsSweep_onLayer (hs : w.solids[h]? = some (.sweep s swept)) (hw : SweepsOn h base P w)
    (k : Handle) (edit : Edit (Issuer × Layer) Unit) :
    KeepsSweep h base P w (onLayer k edit) := by
  rw [KeepsSweep, onLayer, Edit.endsIn_bind, endsIn_solid]
  refine ⟨fun o ho => ?_, fun _ => hw⟩
  cases o with
  | layer l =>
    refine hw.onPartOf_of_ne fun hk => ?_
    rw [hk, hs] at ho
    cases ho
  | set | line | composite | sweep | loft => exact hw

theorem keepsSweep_setOrigin (hs : w.solids[h]? = some (.sweep s swept)) (k : Handle)
    (origin : List Number) :
    KeepsSweep h s.base s.IsReleasable w (onSet k (VoxelSet.setOriginFrom origin)) := by
  have hw := SweepsOn.refl hs
  refine endsIn_onSet (fun _ => hw) fun o ho => ?_
  have hput : ∀ t, o.base.IsSame t →
      SweepsOn h s.base s.IsReleasable (put k (o.withBase t) w) := by
    intro t hsame
    by_cases hk : k = h
    · rw [hk, hs] at ho
      cases ho
      rw [hk]
      exact .put hs (s := { s with base := t }) ⟨hsame, Iff.rfl⟩ w.issuer
    · exact hw.put_of_ne hk _ w.issuer
  exact ((VoxelSet.Change.setOrigin origin).isSafe_run o.base).imp (fun _ => hput)
    fun _ t ht => hput t ht.1

/-- An edit of a sweep, whether of this one or of another, that leaves its end cap as good as it
was. -/
theorem keepsSweep_onPartOf {t : Sweep} {j : Handle} {edit : Edit (Issuer × Sweep) Unit}
    (hs : w.solids[h]? = some (.sweep s swept)) (ht : w.solids[k]? = some (.sweep t j))
    (hedit : t.EndsWith edit w.issuer t.IsReleasable) :
    KeepsSweep h s.base s.IsReleasable w (onPartOf k t (fun t => .sweep t j) edit) := by
  by_cases hk : k = h
  · subst hk
    rw [hs] at ht
    cases ht
    exact SweepsOn.onPartOf hs hedit
  · exact (SweepsOn.refl hs).onPartOf_of_ne hk

theorem keepsSweep_changeVector (hs : w.solids[h]? = some (.sweep s swept)) (k : Handle)
    (vector : List Number) :
    KeepsSweep h s.base s.IsReleasable w (changeVector k vector) := by
  have hw := SweepsOn.refl hs
  rw [KeepsSweep, changeVector, Edit.endsIn_bind, endsIn_solid]
  refine ⟨fun o ho => ?_, fun _ => hw⟩
  cases o with
  | sweep t j =>
    rw [Edit.endsIn_bind]
    refine endsIn_base.imp ?_ fun _ _ h => h ▸ hw
    rintro set _ rfl
    exact keepsSweep_onPartOf hs ho (Sweep.endsWith_changeVector vector set _ t)
  | set | line | layer | composite | loft => exact hw

/-- A sweep takes the other object up before it goes back to its voxels. -/
theorem keepsSweep_changeSwept (hs : w.solids[h]? = some (.sweep s swept)) (k l : Handle) :
    KeepsSweep h s.base s.IsReleasable w (changeSwept k l) := by
  have hw := SweepsOn.refl hs
  rw [KeepsSweep, changeSwept, Edit.endsIn_bind, endsIn_solid]
  refine ⟨fun o ho => ?_, fun _ => hw⟩
  cases o with
  | sweep t j =>
    simp only [Edit.endsIn_bind, Edit.endsIn_ofExcept, Edit.endsIn_modify]
    refine ⟨fun _ _ => ?_, fun _ _ => hw⟩
    obtain ⟨swept', hs'⟩ : ∃ swept', (put k (.sweep t l) w).solids[h]? =
        some (.sweep s swept') := by
      by_cases hk : k = h
      · subst hk
        rw [hs] at ho
        cases ho
        exact ⟨l, solids_put hs _⟩
      · exact ⟨swept, (solids_put_of_ne hk _ _).trans hs⟩
    refine endsIn_base.imp ?_ fun _ _ h => h ▸ SweepsOn.refl hs'
    rintro set _ rfl
    exact keepsSweep_onPartOf hs' (solids_put ho _) (Sweep.endsWith_reset set _ t)
  | set | line | layer | composite | loft => exact hw

theorem Operation.losesCap_extrude_iff {shell : Bool} (hs : w.solids[h]? = some (.sweep s swept))
    (ho : w.solids[swept]? = some o) :
    (extrude h shell).LosesCap h w ↔ s.LosesCap o.profile := by
  refine ⟨?_, fun hloses => ⟨rfl, s, swept, o, hs, ho, hloses⟩⟩
  rintro ⟨-, s', j, o', hs', ho', hloses⟩
  rw [hs] at hs'
  cases hs'
  rw [ho] at ho'
  cases ho'
  exact hloses

theorem keepsSweep_extrude (hs : w.solids[h]? = some (.sweep s swept))
    (hlive : s.base.isDeleted = false) (k : Handle) (shell : Bool) :
    KeepsSweep h s.base (s.IsReleasable ∧ ¬(Operation.extrude k shell).LosesCap h w) w
      (extrude k shell) := by
  have hstays (hkeeps : ¬(Operation.extrude k shell).LosesCap h w) :
      SweepsOn h s.base (s.IsReleasable ∧ ¬(Operation.extrude k shell).LosesCap h w) w :=
    ⟨s, swept, hs, .refl s.base, (and_iff_left hkeeps).symm⟩
  rw [KeepsSweep, extrude, Edit.endsIn_bind, endsIn_solid]
  by_cases hk : k = h
  · subst hk
    refine ⟨fun o ho => ?_, fun hnone => ?_⟩
    · rw [hs] at ho
      cases ho
      rw [Edit.endsIn_bind]
      refine endsIn_profile.imp ?_ ?_
      · rintro _ _ ⟨rfl, o, ho, rfl⟩
        rw [Operation.losesCap_extrude_iff hs ho]
        exact SweepsOn.onPartOf hs (Sweep.endsWith_extrude shell o.profile _ hlive)
      · rintro _ _ ⟨rfl, hnone⟩
        refine hstays ?_
        rintro ⟨-, s', j, o, hs', ho, -⟩
        rw [hs] at hs'
        cases hs'
        rw [hnone] at ho
        cases ho
    · rw [hs] at hnone
      cases hnone
  · have hw := hstays fun hloses => hk hloses.1
    refine ⟨fun o ho => ?_, fun _ => hw⟩
    cases o with
    | sweep t j =>
      rw [Edit.endsIn_bind]
      refine endsIn_profile.imp ?_ fun _ _ h => h.1 ▸ hw
      rintro p _ ⟨rfl, -⟩
      exact hw.onPartOf_of_ne hk
    | set | line | layer | composite | loft => exact hw

/-- However an operation ends, the live sweep goes on, and its end cap can be given back as before
unless the operation loses it. -/
theorem sweepsOn_attempt {op : Operation} (hop : op.IsSweeping)
    (hs : w.solids[h]? = some (.sweep s swept)) (hlive : s.base.isDeleted = false) :
    SweepsOn h s.base (s.IsReleasable ∧ ¬op.LosesCap h w) (attempt op w) := by
  have hkeeps : ∀ {edit : Edit World Unit}, KeepsSweep h s.base s.IsReleasable w edit →
      KeepsSweep h s.base (s.IsReleasable ∧ ¬False) w edit := by
    simp
  have hw := SweepsOn.refl hs
  refine Edit.EndsIn.outcome
    (P := SweepsOn h s.base (s.IsReleasable ∧ ¬op.LosesCap h w)) ?_
  cases op with
  | setOrigin k origin => exact hkeeps (keepsSweep_setOrigin hs k origin)
  | changeVertices k vertices => exact hkeeps (keepsSweep_onLayer hs hw k _)
  | generateEdges k => exact hkeeps (keepsSweep_onLayer hs hw k _)
  | fillPolygon k => exact hkeeps (keepsSweep_onLayer hs hw k _)
  | changeVector k vector => exact hkeeps (keepsSweep_changeVector hs k vector)
  | changeSwept k l => exact hkeeps (keepsSweep_changeSwept hs k l)
  | extrude k shell => exact keepsSweep_extrude hs hlive k shell
  | _ => exact hop.elim

/-! ## Many operations -/

def attemptAll (ops : List Operation) (w : World) : World :=
  ops.foldl (fun w op => attempt op w) w

/-- One of the operations, made one after the other, loses the end cap of the sweep `h`. -/
def LosesCap (h : Handle) : List Operation → World → Prop
  | [], _ => False
  | op :: rest, w => op.LosesCap h w ∨ LosesCap h rest (attempt op w)

theorem sweepsOn_attemptAll {ops : List Operation} (hops : ∀ op ∈ ops, op.IsSweeping)
    (hs : w.solids[h]? = some (.sweep s swept)) (hlive : s.base.isDeleted = false) :
    SweepsOn h s.base (s.IsReleasable ∧ ¬LosesCap h ops w) (attemptAll ops w) := by
  induction ops generalizing w s swept with
  | nil => exact ⟨s, swept, hs, .refl s.base, by simp [LosesCap]⟩
  | cons op rest ih =>
    obtain ⟨hop, hrest⟩ := List.forall_mem_cons.1 hops
    obtain ⟨s₁, swept₁, hs₁, hgoes⟩ := sweepsOn_attempt hop hs hlive
    have hlive₁ : s₁.base.isDeleted = false := hgoes.isSame.isDeleted.trans hlive
    obtain ⟨s₂, swept₂, hs₂, hgoes₂⟩ := ih hrest hs₁ hlive₁
    refine ⟨s₂, swept₂, hs₂, hgoes.isSame.trans hgoes₂.isSame, ?_⟩
    rw [hgoes₂.isReleasable_iff, hgoes.isReleasable_iff, LosesCap, not_or, and_assoc]

/-! ## The deletion -/

/-- A live sweep is deleted if its end cap can be given back; otherwise nothing changes. -/
theorem endsIn_delete (hs : w.solids[h]? = some (.sweep s swept))
    (hlive : s.base.isDeleted = false) : (delete h).EndsIn w
      (fun _ w' => s.IsReleasable ∧ ∀ id, id ∈ w'.issuer.inUse ↔
        id ∈ w.issuer.inUse ∧ id ≠ s.base.id ∧ ∀ cap ∈ s.cap, id ≠ cap.base.id)
      fun e w' => ¬s.IsReleasable ∧ w' = w ∧
        ∃ cap ∈ s.cap, e = .report (.deletedObject cap.base.id) := by
  rw [delete, endsIn_solid_bind hs]
  refine Edit.endsIn_onPart.2 ((Sweep.endsIn_release w.issuer hlive).imp ?_ ?_)
  · rintro _ p ⟨hcap, -, hinUse⟩
    exact ⟨hcap, hinUse⟩
  · rintro e _ ⟨rfl, cap, hcap, hdeleted, rfl⟩
    exact ⟨Sweep.not_isReleasable hcap hdeleted, put_self hs, cap, hcap, rfl⟩

/-- A new sweep is live and has no end cap. -/
theorem exists_of_createSweep {origin vector : List Number}
    (hcreate : createSweep origin vector (some swept) w₀ = .ok h w₁) :
    ∃ s, w₁.solids[h]? = some (.sweep s swept) ∧ s.base.isDeleted = false ∧ s.cap = none := by
  simp only [createSweep, Edit.bind_eq_ok, onIssuer_eq_ok, add_eq_ok] at hcreate
  obtain ⟨set, _, -, s, _, ⟨i, hrun, rfl⟩, rfl, rfl⟩ := hcreate
  obtain ⟨hlive, hcap⟩ := Sweep.of_create hrun
  exact ⟨s, by simp, hlive, hcap⟩

/-- However the operations on a new sweep and on the layers that it sweeps end, the sweep is live
and has no end cap or a live one, unless an extrusion lost its cap. If none did, the deletion gives
back the identifiers of the sweep and of its cap. If one did, the deletion fails at the cap and
changes nothing. -/
theorem delete_of_attempts {origin vector : List Number} {ops : List Operation}
    (hcreate : createSweep origin vector (some swept) w₀ = .ok h w₁)
    (hops : ∀ op ∈ ops, op.IsSweeping) :
    ∃ s k, (attemptAll ops w₁).solids[h]? = some (.sweep s k) ∧ s.base.isDeleted = false ∧
      ((∀ cap ∈ s.cap, cap.base.isDeleted = false) ↔ ¬LosesCap h ops w₁) ∧
      (¬LosesCap h ops w₁ → ∃ w, delete h (attemptAll ops w₁) = .ok () w ∧
        ∀ id, id ∈ w.issuer.inUse ↔ id ∈ (attemptAll ops w₁).issuer.inUse ∧ id ≠ s.base.id ∧
          ∀ cap ∈ s.cap, id ≠ cap.base.id) ∧
      (LosesCap h ops w₁ → ∃ cap ∈ s.cap, delete h (attemptAll ops w₁) =
        .error (.report (.deletedObject cap.base.id)) (attemptAll ops w₁)) := by
  obtain ⟨s₁, hs₁, hlive₁, hcap₁⟩ := exists_of_createSweep hcreate
  obtain ⟨s, k, hs, hsame, hiff⟩ := sweepsOn_attemptAll hops hs₁ hlive₁
  rw [and_iff_right (Sweep.isReleasable_of_none hcap₁)] at hiff
  have hlive : s.base.isDeleted = false := hsame.isDeleted.trans hlive₁
  have hdelete := endsIn_delete hs hlive
  refine ⟨s, k, hs, hlive, hiff, fun hkeeps => ?_, fun hloses => ?_⟩
  · cases hrun : delete h (attemptAll ops w₁) with
    | ok u w => exact ⟨w, rfl, (hdelete.of_ok hrun).2⟩
    | error e w => exact absurd (hiff.2 hkeeps) (hdelete.of_error hrun).1
  · cases hrun : delete h (attemptAll ops w₁) with
    | ok u w => exact absurd hloses (hiff.1 (hdelete.of_ok hrun).1)
    | error e w =>
      obtain ⟨-, rfl, cap, hcap, rfl⟩ := hdelete.of_error hrun
      exact ⟨cap, hcap, rfl⟩

/-- A point is swept by one step, then moved to the last place in range and swept again. -/
theorem delete_of_attempts_lost : ∃ w₀ w₁ : World,
    let ops : List Operation := [.extrude 1 false, .setOrigin 0 [0, 0, 0x7fffffffffffffff],
      .extrude 1 false]
    createSweep [0, 0, 0] [0, 0, 1] (some 0) w₀ = .ok 1 w₁ ∧ (∀ op ∈ ops, op.IsSweeping) ∧
    LosesCap 1 ops w₁ ∧ ∃ s k cap, (attemptAll ops w₁).solids[1]? = some (.sweep s k) ∧
      s.base.isDeleted = false ∧ cap ∈ s.cap ∧ delete 1 (attemptAll ops w₁) =
        .error (.report (.deletedObject cap.base.id)) (attemptAll ops w₁) := by
  obtain ⟨w₀, hw₀, w₁, s, l, t, hcreate, hs, hlive, hvector, hl, hread, hmove, hvertices⟩ :
      ∃ w₀ : World, w₀.Reached .hexadecimal ∧
        ∃ (w₁ : World) (s : Sweep) (l : Layer) (t : VoxelSet),
        createSweep [0, 0, 0] [0, 0, 1] (some 0) w₀ = .ok 1 w₁ ∧
        w₁.solids[1]? = some (.sweep s 0) ∧ s.base.isDeleted = false ∧ s.vector = ⟨0, 0, 1⟩ ∧
        w₁.solids[0]? = some (.layer l) ∧
        Sweep.IsReadable (Solid.layer l).profile s.vector [.zero] [.zero] ∧
        VoxelSet.setOriginFrom [0, 0, 0x7fffffffffffffff] l.base = .ok () t ∧
        (Solid.layer { l with base := t }).profile.vertices =
          .ok [⟨0, 0, 0x7fffffffffffffff⟩] := by
    refine exists_reached [.createLayer [0, 0, 0] [[0, 0, 0]]] (by cbv) ?_
    exact ⟨_, _, _, _, by cbv, by rfl, by rfl, by rfl, by rfl,
      by exact ⟨rfl, rfl, by decide, by decide, by decide⟩, by cbv, by rfl⟩
  have hsound : w₁.IsSound := hw₀.isSound.createSweep hcreate
  obtain ⟨i, s', hextrude, hcap⟩ := Sweep.exists_extrude (hsound.owns_of_isLive hs hlive) hread
  let w₂ : World := put 1 (.sweep s' 0) { w₁ with issuer := i }
  let w₃ : World := put 0 (.layer { l with base := t }) w₂
  have hs₂ : w₂.solids[1]? = some (.sweep s' 0) := solids_put (w := { w₁ with issuer := i }) hs _
  have hl₂ : w₂.solids[0]? = some (.layer l) := (solids_put_of_ne (by decide) _ _).trans hl
  have hs₃ : w₃.solids[1]? = some (.sweep s' 0) := (solids_put_of_ne (by decide) _ _).trans hs₂
  have hl₃ : w₃.solids[0]? = some (.layer { l with base := t }) := solids_put hl₂ _
  have hfirst : attempt (.extrude 1 false) w₁ = w₂ := attempt_of_eq_ok
    (extrude_eq_ok.2 ⟨s, 0, .layer l, hs, hl, onPartOf_eq_ok.2 ⟨i, s', hextrude, rfl⟩⟩)
  have hsecond : attempt (.setOrigin 0 [0, 0, 0x7fffffffffffffff]) w₂ = w₃ := attempt_of_eq_ok
    (Edit.bind_eq_ok.2 ⟨.layer l, w₂, solid_eq_ok.2 ⟨hl₂, rfl⟩,
      onPartOf_eq_ok.2 ⟨w₂.issuer, t, Edit.onSecond_eq_ok.2 ⟨hmove, rfl⟩, rfl⟩⟩)
  have hthird : (Operation.extrude 1 false).LosesCap 1 w₃ := by
    refine (Operation.losesCap_extrude_iff hs₃ hl₃).2 ⟨hcap, _, hvertices, fun hcreatable => ?_⟩
    rw [Sweep.vector_of_extrude hextrude, hvector] at hcreatable
    exact absurd (hcreatable.2 _ (List.mem_singleton_self _)) (by decide)
  have hops : ∀ op ∈ [Operation.extrude 1 false, .setOrigin 0 [0, 0, 0x7fffffffffffffff],
      .extrude 1 false], op.IsSweeping := by
    simp [Operation.IsSweeping]
  have hloses : LosesCap 1 [.extrude 1 false, .setOrigin 0 [0, 0, 0x7fffffffffffffff],
      .extrude 1 false] w₁ := by
    refine .inr (.inr (.inl ?_))
    rw [hfirst, hsecond]
    exact hthird
  obtain ⟨s₄, k, hs₄, hlive₄, -, -, hfails⟩ := delete_of_attempts hcreate hops
  obtain ⟨cap, hcap₄, hdelete⟩ := hfails hloses
  exact ⟨w₀, w₁, hcreate, hops, hloses, s₄, k, cap, hs₄, hlive₄, hcap₄, hdelete⟩

end VoxelAlgebra.World
