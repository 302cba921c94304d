import VoxelAlgebra.Proofs.Solid.Representation
import VoxelAlgebra.Proofs.World.Building

/-!
# Identifiers of shapes

Tracing and filling layers, extruding, and building lofts make many sets that are given back before
the operation ends. However many of these operations succeed one after the other, the objects stay
the ones that they were, and in use are their identifiers and those of their parts: one for the end
cap of each sweep, and one for each section of a loft.

## Main definitions

* `World.Operation.IsShape` — the operations on shapes.
* `World.ReshapesTo` — worlds with the same objects, of which shapes may have changed.
* `World.reshapesTo_of_run`, `World.reshapesTo_of_runAll` — one operation, and many.
* `World.exists_delete_live` — what the deletion of an object gives back.
* `World.inUse_iff_of_runAll` — the identifiers in use after any operations on shapes.
-/

namespace VoxelAlgebra

open VoxelSet (IsChange IsSame)

theorem VoxelSet.IsChange.isSame {s t : VoxelSet} (h : IsChange s t) : IsSame s t :=
  ⟨h.id, h.isSound.isLive.trans h.isLive.symm⟩

/-- An object and what an operation on shapes makes of it. Layers, sweeps and lofts stay the same
objects, and other objects stay as they are. A sweep may go on with another object. -/
inductive Solid.ReshapesTo : Solid → Solid → Prop
  | same (o : Solid) : ReshapesTo o o
  | layer {l l' : Layer} : IsSame l.base l'.base → ReshapesTo (.layer l) (.layer l')
  | sweep {s s' : Sweep} {swept swept' : Handle} : IsSame s.base s'.base →
    ReshapesTo (.sweep s swept) (.sweep s' swept')
  | loft {l l' : Loft} {profiles : List Handle} : IsSame l.base l'.base →
    ReshapesTo (.loft l profiles) (.loft l' profiles)

theorem Solid.ReshapesTo.trans {o o' o'' : Solid} (h : ReshapesTo o o') (h' : ReshapesTo o' o'') :
    ReshapesTo o o'' := by
  cases h with
  | same => exact h'
  | layer h =>
    cases h' with
    | same => exact .layer h
    | layer h' => exact .layer (h.trans h')
  | sweep h =>
    cases h' with
    | same => exact .sweep h
    | sweep h' => exact .sweep (h.trans h')
  | loft h =>
    cases h' with
    | same => exact .loft h
    | loft h' => exact .loft (h.trans h')

namespace World

variable {w₀ w w' w'' : World} {h : Handle} {o o' : Solid} {u : Unit}

/-- The operations on shapes. None of them makes or deletes an object. -/
def Operation.IsShape : Operation → Prop
  | generateEdges _ | fillPolygon _ | changeVector .. | changeSwept .. | extrude ..
  | generateSections .. | resetSections _ => True
  | _ => False

/-- Worlds with the same objects in the same places. -/
def ReshapesTo (w w' : World) : Prop :=
  ∀ k : Handle, Option.Rel Solid.ReshapesTo w.solids[k]? w'.solids[k]?

namespace ReshapesTo

theorem refl (w : World) : w.ReshapesTo w := fun k => by
  cases w.solids[k]? with
  | none => exact .none
  | some o => exact .some (.same o)

theorem trans (hw : w.ReshapesTo w') (hw' : w'.ReshapesTo w'') : w.ReshapesTo w'' := fun k => by
  have hk := hw k
  have hk' := hw' k
  generalize w.solids[k]? = x, w'.solids[k]? = y, w''.solids[k]? = z at hk hk'
  cases hk with
  | none => exact hk'
  | some h =>
    cases hk' with
    | some h' => exact .some (h.trans h')

theorem put (ho : w.solids[h]? = some o) (hreshape : o.ReshapesTo o') (i : Issuer) :
    w.ReshapesTo (World.put h o' { w with issuer := i }) := fun k => by
  obtain rfl | hne := eq_or_ne h k
  · rw [solids_put (w := { w with issuer := i }) ho, ho]
    exact .some hreshape
  · rw [solids_put_of_ne hne]
    exact refl w k

theorem onLayer {edit : Edit (Issuer × Layer) Unit} (hrun : World.onLayer h edit w = .ok u w')
    (hedit : ∀ i i' l l', edit (i, l) = .ok u (i', l') → IsChange l.base l'.base) :
    w.ReshapesTo w' := by
  obtain ⟨l, hl, hrun⟩ := onLayer_eq_ok.1 hrun
  obtain ⟨i, l', hlayer, rfl⟩ := onPartOf_eq_ok.1 hrun
  exact .put hl (.layer (hedit _ _ _ _ hlayer).isSame) i

theorem onLoft {edit : List Profile → Edit (Issuer × Loft) Unit}
    (hrun : World.onLoft h edit w = .ok u w')
    (hedit : ∀ profiles i i' l l', edit profiles (i, l) = .ok u (i', l') →
      IsChange l.base l'.base) : w.ReshapesTo w' := by
  obtain ⟨l, handles, profiles, hl, -, hrun⟩ := onLoft_eq_ok.1 hrun
  obtain ⟨i, l', hloft, rfl⟩ := onPartOf_eq_ok.1 hrun
  exact .put hl (.loft (hedit _ _ _ _ _ hloft).isSame) i

theorem onSweep {s : Sweep} {swept : Handle} {edit : Edit (Issuer × Sweep) Unit}
    (hs : w.solids[h]? = some (.sweep s swept))
    (hrun : onPartOf h s (fun s => .sweep s swept) edit w = .ok u w')
    (hedit : ∀ i i' s', edit (i, s) = .ok u (i', s') → IsChange s.base s'.base) :
    w.ReshapesTo w' := by
  obtain ⟨i, s', hsweep, rfl⟩ := onPartOf_eq_ok.1 hrun
  exact .put hs (.sweep (hedit _ _ _ hsweep).isSame) i

theorem changeVector {vector : List Number} (hrun : World.changeVector h vector w = .ok u w') :
    w.ReshapesTo w' := by
  obtain ⟨s, swept, o, hs, -, hrun⟩ := changeVector_eq_ok.1 hrun
  exact .onSweep hs hrun fun _ _ _ => Sweep.isChange_of_changeVector

theorem changeSwept {swept : Handle} (hrun : World.changeSwept h swept w = .ok u w') :
    w.ReshapesTo w' := by
  obtain ⟨s, old, o, hs, -, -, hrun⟩ := changeSwept_eq_ok.1 hrun
  have hput : w.ReshapesTo (World.put h (.sweep s swept) w) :=
    .put hs (.sweep (.refl s.base)) w.issuer
  exact hput.trans (.onSweep (solids_put hs _) hrun fun _ _ _ => Sweep.isChange_of_reset)

theorem extrude {shell : Bool} (hrun : World.extrude h shell w = .ok u w') :
    w.ReshapesTo w' := by
  obtain ⟨s, swept, o, hs, -, hrun⟩ := extrude_eq_ok.1 hrun
  exact .onSweep hs hrun fun _ _ _ => Sweep.isChange_of_extrude

end ReshapesTo

/-- A successful operation on shapes leaves every object in its place. -/
theorem reshapesTo_of_run {op : Operation} (hop : op.IsShape) (hrun : op.run w = .ok u w') :
    w.ReshapesTo w' := by
  cases op with
  | generateEdges =>
    refine .onLayer hrun fun _ _ _ _ hlayer => ?_
    exact Layer.isChange_of_generateEdges (Edit.onSecond_eq_ok.1 hlayer).1
  | fillPolygon => exact .onLayer hrun fun _ _ _ _ => Layer.isChange_of_fillPolygon
  | changeVector => exact .changeVector hrun
  | changeSwept => exact .changeSwept hrun
  | extrude => exact .extrude hrun
  | generateSections =>
    exact .onLoft hrun fun _ _ _ _ _ hloft => (Loft.isBuilt_of_generateEdges hloft).1
  | resetSections =>
    refine .onLoft hrun fun _ _ _ _ _ hloft => ?_
    obtain ⟨base, rfl, hchange⟩ := Loft.resetSections_eq_ok hloft
    exact hchange
  | _ => exact hop.elim

theorem reshapesTo_of_runAll {ops : List Operation} (hops : ∀ op ∈ ops, op.IsShape)
    (hrun : runAll ops w = .ok u w') : w.ReshapesTo w' := by
  induction ops generalizing w with
  | nil =>
    obtain ⟨-, rfl⟩ := Edit.pure_eq_ok.1 hrun
    exact .refl w
  | cons op rest ih =>
    obtain ⟨hop, hrest⟩ := List.forall_mem_cons.1 hops
    obtain ⟨_, w₁, hfirst, hrun⟩ := Edit.bind_eq_ok.1 hrun
    exact (reshapesTo_of_run hop hfirst).trans (ih hrest hrun)

/-- A live sweep over a profile that stays in range can be extruded. -/
theorem exists_extrude {s : Sweep} {swept : Handle} {vertices fill : List Voxel} (hw : w.IsSound)
    (hs : w.solids[h]? = some (.sweep s swept)) (hlive : s.base.isDeleted = false)
    (ho : w.solids[swept]? = some o) (hp : Sweep.IsReadable o.profile s.vector vertices fill) :
    ∃ i s', extrude h false w = .ok () (put h (.sweep s' swept) { w with issuer := i }) ∧
      s'.cap.isSome := by
  have howns : w.issuer.Owns ∅ (s.sets ++ w.others h) := hw.owns_of_isLive hs hlive
  obtain ⟨i, s', hrun, hcap⟩ := Sweep.exists_extrude howns hp
  exact ⟨i, s', extrude_eq_ok.2 ⟨s, swept, o, hs, ho, onPartOf_eq_ok.2 ⟨i, s', hrun, rfl⟩⟩, hcap⟩

/-! ## Identifiers in use -/

/-- In use are the identifiers of the live objects and of their parts. -/
theorem IsSound.inUse_iff (hw : w.IsSound) (id : String) : id ∈ w.issuer.inUse ↔
    ∃ o ∈ w.solids, o.base.isDeleted = false ∧ (o.base.id = id ∨ ∃ s ∈ o.parts, s.id = id) := by
  have hsets : ∀ o : Solid, (∃ s ∈ o.sets, s.id = id) ↔
      o.base.isDeleted = false ∧ (o.base.id = id ∨ ∃ s ∈ o.parts, s.id = id) := fun o => by
    cases hdeleted : o.base.isDeleted <;> simp [Solid.sets, hdeleted]
  have hids : id ∈ VoxelSet.ids w.sets ↔ ∃ o ∈ w.solids, ∃ s ∈ o.sets, s.id = id := by
    simp only [VoxelSet.mem_ids, sets, List.mem_flatMap, Array.mem_toList_iff]
    constructor
    · rintro ⟨s, ⟨o, ho, hs⟩, hid⟩
      exact ⟨o, ho, s, hs, hid⟩
    · rintro ⟨o, ho, s, hs, hid⟩
      exact ⟨s, ⟨o, ho, hs⟩, hid⟩
  rw [hw.inUse, Set.mem_empty_iff_false, false_or, hids]
  simp only [hsets]

/-- The deletion of a live object gives back its identifier and those of its parts. Every other live
object keeps its own. -/
theorem exists_delete_live (hw : w.IsSound) (ho : w.solids[h]? = some o)
    (hlive : o.base.isDeleted = false) : ∃ w', delete h w = .ok () w' ∧
      (∀ id, id ∈ w'.issuer.inUse ↔
        id ∈ w.issuer.inUse ∧ id ≠ o.base.id ∧ ∀ s ∈ o.parts, s.id ≠ id) ∧
      ∀ k ≠ h, ∀ o', w.solids[k]? = some o' → o'.base.isDeleted = false →
        o'.base.id ∈ w'.issuer.inUse := by
  have howns := hw.owns_of_isLive ho hlive
  obtain ⟨i, o', hdelete, -, hleft⟩ := exists_delete ho howns
  refine ⟨_, hdelete, fun id => ?_, fun k hk o' ho' hlive' => ?_⟩
  · refine (howns.inUse_iff_of_append hleft id).trans (and_congr_right fun _ => ?_)
    rw [VoxelSet.mem_ids, List.exists_mem_cons_iff, not_or, eq_comm]
    simp only [not_exists, not_and, ne_eq]
  · have hmem : o'.base ∈ w.others h :=
      mem_others ho' hk (Solid.sets_of_isLive hlive' ▸ List.mem_cons_self)
    exact (hleft.inUse _).2 (.inr ⟨o'.base, hmem, rfl⟩)

/-- After any successful operations on shapes the objects are the ones from before. In use are
exactly their identifiers and those of their parts, all of them different; the building of a loft
ends with one section less than there are profiles. The deletion of a live object takes its
identifier and those of its parts, and of no other object. -/
theorem inUse_iff_of_runAll {source : IdSource} {ops : List Operation} (hw : w₀.Reached source)
    (hops : ∀ op ∈ ops, op.IsShape) (hrun : runAll ops w₀ = .ok () w) :
    w₀.ReshapesTo w ∧
    (∀ id, id ∈ w.issuer.inUse ↔
      ∃ o ∈ w.solids, o.base.isDeleted = false ∧ (o.base.id = id ∨ ∃ s ∈ o.parts, s.id = id)) ∧
    (w.sets.map VoxelSet.id).Nodup ∧
    (∀ h shell w', (Operation.generateSections h shell).run w = .ok () w' →
      ∃ l profiles, w'.solids[h]? = some (.loft l profiles) ∧
        l.sections.length = profiles.length - 1) ∧
    ∀ h o, w.solids[h]? = some o → o.base.isDeleted = false → ∃ w', delete h w = .ok () w' ∧
      (∀ id, id ∈ w'.issuer.inUse ↔
        id ∈ w.issuer.inUse ∧ id ≠ o.base.id ∧ ∀ s ∈ o.parts, s.id ≠ id) ∧
      ∀ k ≠ h, ∀ o', w.solids[k]? = some o' → o'.base.isDeleted = false →
        o'.base.id ∈ w'.issuer.inUse := by
  have hsound : w.IsSound := (hw.runAll hrun).isSound
  refine ⟨reshapesTo_of_runAll hops hrun, hsound.inUse_iff, hsound.nodup,
    fun h shell w' hsections => ?_, fun h o ho hlive => exists_delete_live hsound ho hlive⟩
  obtain ⟨l, handles, profiles, hl, hprofiles, hsections⟩ := onLoft_eq_ok.1 hsections
  have hlength := (profiles_eq_ok.1 hprofiles).2.length_eq.symm
  obtain ⟨i, l', hbuild, rfl⟩ := onPartOf_eq_ok.1 hsections
  refine ⟨l', handles, solids_put hl _, ?_⟩
  have hkeys := congrArg List.length (Loft.isBuilt_of_generateEdges hbuild).2.keys
  rwa [List.length_map, List.length_range, hlength] at hkeys

/-- A point is swept, which gives the sweep an end cap, and a loft over two points is built. -/
theorem inUse_iff_of_runAll_points : ∃ w₀ w : World, w₀.Reached .hexadecimal ∧
    (∀ op ∈ [Operation.extrude 2 false, .generateSections 3 false], op.IsShape) ∧
    runAll [.extrude 2 false, .generateSections 3 false] w₀ = .ok () w ∧
    (∃ s, w.solids[2]? = some (.sweep s 0) ∧ s.cap.isSome) ∧
    w₀.ReshapesTo w ∧
    (∀ id, id ∈ w.issuer.inUse ↔
      ∃ o ∈ w.solids, o.base.isDeleted = false ∧ (o.base.id = id ∨ ∃ s ∈ o.parts, s.id = id)) ∧
    (w.sets.map VoxelSet.id).Nodup ∧
    (∀ h shell w', (Operation.generateSections h shell).run w = .ok () w' →
      ∃ l profiles, w'.solids[h]? = some (.loft l profiles) ∧
        l.sections.length = profiles.length - 1) ∧
    ∀ h o, w.solids[h]? = some o → o.base.isDeleted = false → ∃ w', delete h w = .ok () w' ∧
      (∀ id, id ∈ w'.issuer.inUse ↔
        id ∈ w.issuer.inUse ∧ id ≠ o.base.id ∧ ∀ s ∈ o.parts, s.id ≠ id) ∧
      ∀ k ≠ h, ∀ o', w.solids[k]? = some o' → o'.base.isDeleted = false →
        o'.base.id ∈ w'.issuer.inUse := by
  obtain ⟨w₀, hw, s, l, o₀, o₁, vertices, fill, hs, hslive, hl, hllive, ho₀, ho₁, hread, hread₀,
      hread₁⟩ : ∃ w₀ : World, w₀.Reached .hexadecimal ∧
        ∃ (s : Sweep) (l : Loft) (o₀ o₁ : Solid) (vertices fill : List Voxel),
        w₀.solids[2]? = some (.sweep s 0) ∧ s.base.isDeleted = false ∧
        w₀.solids[3]? = some (.loft l [0, 1]) ∧ l.base.isDeleted = false ∧
        w₀.solids[0]? = some o₀ ∧ w₀.solids[1]? = some o₁ ∧
        Sweep.IsReadable o₀.profile s.vector vertices fill ∧
        Loft.IsReadable o₀.profile ∧ Loft.IsReadable o₁.profile := by
    refine exists_reached [.createLayer [0, 0, 0] [[0, 0, 0]], .createLayer [0, 0, 2] [[1, 0, 0]],
      .createSweep [0, 0, 0] [0, 3, 0] (some 0), .createLoft [0, 0, 0] [0, 1]] (by cbv) ?_
    exact ⟨_, _, _, _, [.zero], [.zero], rfl, rfl, rfl, rfl, rfl, rfl,
      ⟨rfl, rfl, by decide, by decide, by decide⟩, ⟨_, rfl, by decide⟩, ⟨_, rfl, by decide⟩⟩
  obtain ⟨i, s', hextrude, hcap⟩ := exists_extrude hw.isSound hs hslive ho₀ hread
  let w₁ : World := put 2 (.sweep s' 0) { w₀ with issuer := i }
  have hw₁ : w₁.Reached .hexadecimal := hw.step (.extrude 2 false) hextrude
  have hsame : ∀ k ≠ 2, w₁.solids[k]? = w₀.solids[k]? := fun k hk => solids_put_of_ne hk.symm _ _
  obtain ⟨w, hsections⟩ := exists_generateEdges false hw₁.isSound
    ((hsame 3 (by decide)).trans hl) hllive (by
      simpa [hsame] using ⟨⟨o₀, ho₀, hread₀⟩, o₁, ho₁, hread₁⟩)
  have hops : ∀ op ∈ [Operation.extrude 2 false, .generateSections 3 false], op.IsShape := by
    simp [Operation.IsShape]
  have hrun : runAll [.extrude 2 false, .generateSections 3 false] w₀ = .ok () w :=
    Edit.bind_eq_ok.2 ⟨(), w₁, hextrude, Edit.bind_eq_ok.2 ⟨(), w, hsections, rfl⟩⟩
  have hswept : w.solids[2]? = some (.sweep s' 0) := by
    obtain ⟨_, _, _, -, -, hbuild⟩ := onLoft_eq_ok.1 hsections
    obtain ⟨i', l', -, rfl⟩ := onPartOf_eq_ok.1 hbuild
    rw [solids_put_of_ne (by decide)]
    exact solids_put hs _
  exact ⟨w₀, w, hw, hops, hrun, ⟨s', hswept, hcap⟩, inUse_iff_of_runAll hw hops hrun⟩

end World
end VoxelAlgebra
