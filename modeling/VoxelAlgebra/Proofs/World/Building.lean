import VoxelAlgebra.Proofs.Solid.Building
import VoxelAlgebra.Proofs.World.Operations

/-!
# Building lofts in a world

Whenever the building of a loft succeeds, its fill and its two views show the same voxels. When it
stops because a profile cannot be read, the line, the composite and the unfinished section of the
workshop stay in use: they belong to no object, so no deletion gives them back.

## Main definitions

* `World.onLoft_eq` — an edit of a loft whose profiles can be read.
* `World.generateEdges_agrees` — the voxels and the views of a loft.
* `World.generateEdges_stops` — what a loft leaves in use whose building stops.
-/

namespace VoxelAlgebra

namespace World

variable {w w' : World} {h : Handle} {l : Loft} {handles : List Handle} {layers : List Layer}
  {shell : Bool} {u : Unit}

/-- The profiles of objects can be read. -/
theorem exists_profiles {P : Profile → Prop}
    (hhandles : ∀ k ∈ handles, ∃ o, w.solids[k]? = some o ∧ P o.profile) :
    ∃ profiles, handles.mapM profile w = .ok profiles w ∧ ∀ p ∈ profiles, P p := by
  simp only [profiles_eq_ok, true_and]
  induction handles with
  | nil => exact ⟨[], .nil, fun _ hp => absurd hp List.not_mem_nil⟩
  | cons k rest ih =>
    obtain ⟨⟨o, ho, hp⟩, hrest⟩ := List.forall_mem_cons.1 hhandles
    obtain ⟨profiles, hprofiles, hall⟩ := ih hrest
    exact ⟨o.profile :: profiles, .cons ⟨o, ho, rfl⟩ hprofiles, List.forall_mem_cons.2 ⟨hp, hall⟩⟩

theorem onLoft_eq {α : Type} {edit : List Profile → Edit (Issuer × Loft) α}
    {profiles : List Profile} (hl : w.solids[h]? = some (.loft l handles))
    (hprofiles : handles.mapM profile w = .ok profiles w) :
    onLoft h edit w = onPartOf h l (fun l => .loft l handles) (edit profiles) w := by
  have hsolid : solid h w = .ok (.loft l handles) w := solid_eq_ok.2 ⟨hl, rfl⟩
  rw [onLoft]
  simp only [bind, EStateM.bind, hsolid, hprofiles]

/-- A live loft over profiles that can be read and are in range can be built. -/
theorem exists_generateEdges (shell : Bool) (hw : w.IsSound)
    (hl : w.solids[h]? = some (.loft l handles)) (hlive : l.base.isDeleted = false)
    (hhandles : ∀ k ∈ handles, ∃ o, w.solids[k]? = some o ∧ Loft.IsReadable o.profile) :
    ∃ w', onLoft h (Loft.generateEdges shell) w = .ok () w' := by
  have howns : w.issuer.Owns ∅ (l.sets ++ w.others h) := hw.owns_of_isLive hl hlive
  obtain ⟨profiles, hprofiles, hreadable⟩ := exists_profiles hhandles
  obtain ⟨i', l', hrun⟩ := Loft.exists_generateEdges shell howns hreadable
  exact ⟨_, onLoft_eq_ok.2 ⟨l, handles, profiles, hl, hprofiles,
    onPartOf_eq_ok.2 ⟨i', l', hrun, rfl⟩⟩⟩

/-- Whenever a loft is built, it has a section between every two consecutive profiles. Its voxels
are those of the sections, and so are the voxels of its two views; neither the fill nor the view of
all voxels has one twice. -/
theorem generateEdges_agrees (hl : w.solids[h]? = some (.loft l handles))
    (hrun : onLoft h (Loft.generateEdges shell) w = .ok () w') :
    ∃ l' fill voxels directory, w'.solids[h]? = some (.loft l' handles) ∧
      l'.sections.map Prod.fst = List.range (handles.length - 1) ∧
      l'.base.absolute = .ok fill ∧ l'.allVoxels = .ok voxels ∧
      l'.sectionVoxels = .ok directory ∧
      directory.map Prod.fst = List.range (handles.length - 1) ∧
      fill.Nodup ∧ voxels.Nodup ∧
      (∀ v, v ∈ fill ↔ ∃ s ∈ l'.sections.map Prod.snd, v ∈ s.voxels) ∧
      (∀ v, v ∈ voxels ↔ v ∈ fill) ∧ ∀ v, v ∈ fill ↔ ∃ e ∈ directory, v ∈ e.2 := by
  obtain ⟨_, _, profiles, hl', hprofiles, hrun⟩ := onLoft_eq_ok.1 hrun
  cases hl.symm.trans hl'
  have hlength := (profiles_eq_ok.1 hprofiles).2.length_eq.symm
  obtain ⟨i', l', hgenerate, rfl⟩ := onPartOf_eq_ok.1 hrun
  have hbuilt := hlength ▸ (Loft.isBuilt_of_generateEdges hgenerate).2
  have hdirectory : ∀ v, (∃ e ∈ l'.sections.map fun e => (e.1, e.2.absoluteFill), v ∈ e.2) ↔
      v ∈ l'.base.absoluteFill := fun v => by
    simp only [hbuilt.mem_iff, List.mem_map, exists_exists_and_eq_and]
  refine ⟨l', l'.base.absoluteFill, _, _, solids_put hl _, hbuilt.keys,
    VoxelSet.absolute_eq_ok.2 ⟨hbuilt.isLive, rfl⟩, ?_, hbuilt.sectionVoxels_eq, ?_, hbuilt.nodup,
    Voxel.nodup_distinct ((l'.sections.map fun e => (e.1, e.2.absoluteFill)).flatMap Prod.snd),
    hbuilt.mem_iff, fun v => ?_, fun v => (hdirectory v).symm⟩
  · rw [Loft.allVoxels, hbuilt.sectionVoxels_eq]
    rfl
  · rw [List.map_map]
    exact hbuilt.keys
  · rw [Voxel.mem_distinct, List.mem_flatMap, hdirectory]

/-- A hollow loft at an origin of its own, over three points of which two are at one height. -/
theorem generateEdges_agrees_hollow : ∃ (w w' : World) (l : Loft),
    w.solids[3]? = some (.loft l [0, 1, 2]) ∧
    onLoft 3 (Loft.generateEdges true) w = .ok () w' ∧
    ∃ l' fill voxels directory, w'.solids[3]? = some (.loft l' [0, 1, 2]) ∧
      l'.sections.map Prod.fst = List.range ([0, 1, 2].length - 1) ∧
      l'.base.absolute = .ok fill ∧ l'.allVoxels = .ok voxels ∧
      l'.sectionVoxels = .ok directory ∧
      directory.map Prod.fst = List.range ([0, 1, 2].length - 1) ∧
      fill.Nodup ∧ voxels.Nodup ∧
      (∀ v, v ∈ fill ↔ ∃ s ∈ l'.sections.map Prod.snd, v ∈ s.voxels) ∧
      (∀ v, v ∈ voxels ↔ v ∈ fill) ∧ ∀ v, v ∈ fill ↔ ∃ e ∈ directory, v ∈ e.2 := by
  obtain ⟨w, hw, l, o₀, o₁, o₂, hl, hlive, ho₀, ho₁, ho₂, hread₀, hread₁, hread₂⟩ :
      ∃ w : World, w.Reached .hexadecimal ∧ ∃ (l : Loft) (o₀ o₁ o₂ : Solid),
        w.solids[3]? = some (.loft l [0, 1, 2]) ∧ l.base.isDeleted = false ∧
        w.solids[0]? = some o₀ ∧ w.solids[1]? = some o₁ ∧ w.solids[2]? = some o₂ ∧
        Loft.IsReadable o₀.profile ∧ Loft.IsReadable o₁.profile ∧ Loft.IsReadable o₂.profile := by
    refine exists_reached [.createLayer [0, 0, 0] [[0, 0, 0]],
      .createLayer [0, 0, 2] [[1, 0, 0]], .createLayer [0, 0, 2] [[2, 0, 0]],
      .createLoft [5, 0, 0] [0, 1, 2]] (by cbv) ?_
    exact ⟨_, _, _, _, rfl, rfl, rfl, rfl, rfl, ⟨_, rfl, by decide⟩, ⟨_, rfl, by decide⟩,
      ⟨_, rfl, by decide⟩⟩
  have hhandles : ∀ k ∈ [0, 1, 2], ∃ o, w.solids[k]? = some o ∧ Loft.IsReadable o.profile := by
    simpa using ⟨⟨o₀, ho₀, hread₀⟩, ⟨o₁, ho₁, hread₁⟩, o₂, ho₂, hread₂⟩
  obtain ⟨w', hrun⟩ := exists_generateEdges true hw.isSound hl hlive hhandles
  exact ⟨w, w', l, hl, hrun, generateEdges_agrees hl hrun⟩

/-! ## Lofts that stop -/

/-- Where the building of a loft stops, the loft is live, and at least five sets are at hand besides
those of the objects. -/
theorem endsIn_generateEdges (shell : Bool) (hw : w.IsSound)
    (hl : w.solids[h]? = some (.loft l handles)) (hlive : l.base.isDeleted = false)
    (hhandles : ∀ k ∈ handles, ∃ o, w.solids[k]? = some o) :
    (onLoft h (Loft.generateEdges shell)).EndsIn w (fun _ _ => True) fun _ w' =>
      ∃ (l' : Loft) (scratch : List VoxelSet), 5 ≤ scratch.length ∧
        w'.solids[h]? = some (.loft l' handles) ∧ l'.base.isDeleted = false ∧
        w'.issuer.Owns ∅ (scratch ++ (l'.sets ++ w'.others h)) := by
  have howns : w.issuer.Owns ∅ (l.sets ++ w.others h) := hw.owns_of_isLive hl hlive
  obtain ⟨profiles, hprofiles, -⟩ := exists_profiles (P := fun _ => True) fun k hk =>
    (hhandles k hk).imp fun _ ho => ⟨ho, trivial⟩
  obtain ⟨i₁, base, hreset, howns₁, -, -⟩ := Loft.exists_resetSections howns
  have hbase := (howns₁.isSound base List.mem_cons_self).isLive
  rw [Edit.EndsIn, onLoft_eq hl hprofiles]
  refine Edit.endsIn_onPart.2 ((Loft.endsIn_generateEdges shell profiles hlive hreset hbase
    howns₁).imp (fun _ _ _ => trivial) ?_)
  rintro _ ⟨i, _⟩ ⟨⟨new, rfl, hstops⟩, -⟩
  obtain ⟨scratch, hlength, hscratch⟩ := hstops.exists_scratch
  refine ⟨_, scratch, hlength, solids_put hl _, hbase, ?_⟩
  rw [others_put]
  exact hscratch.perm (List.perm_middle.append_left scratch)

/-- Where the building of a loft stops, at least five sets are in use that belong to no object: the
line and the composite of the workshop, the universal and the null set of the composite, and the
unfinished section. The deletion of the loft succeeds, but does not give them back. -/
theorem generateEdges_stops (hw : w.IsSound) (hl : w.solids[h]? = some (.loft l handles))
    (hlive : l.base.isDeleted = false) (hhandles : ∀ k ∈ handles, ∃ o, w.solids[k]? = some o)
    {e : Fault} (hrun : onLoft h (Loft.generateEdges shell) w = .error e w') :
    ∃ scratch w'', 5 ≤ scratch.length ∧ w'.issuer.Owns ∅ (scratch ++ w'.sets) ∧
      delete h w' = .ok () w'' ∧ w''.issuer.Owns ∅ (scratch ++ w''.sets) := by
  obtain ⟨l', scratch, hlength, hl', hlive', howns⟩ :=
    (endsIn_generateEdges shell hw hl hlive hhandles).of_error hrun
  obtain ⟨i, o, hdelete, hdeleted, hleft⟩ :=
    exists_delete hl' (howns.perm (List.perm_append_comm_assoc _ _ _))
  refine ⟨scratch, _, hlength, ?_, hdelete,
    hleft.perm ((sets_put_of_isDeleted hl' hdeleted i).symm.append_left _)⟩
  have hsets := sets_perm hl'
  rw [Solid.sets_of_isLive (o := .loft l' handles) hlive'] at hsets
  exact howns.perm (hsets.symm.append_left _)

/-- A loft over two layers of which one was deleted. Its building leaves seven identifiers in use
for two live objects, and six after the deletion of the loft, when one layer is left. -/
theorem generateEdges_stops_deleted : ∃ (w w₁ w₂ : World) (l : Loft) (e : Fault),
    w.IsSound ∧ w.solids[2]? = some (.loft l [0, 1]) ∧ l.base.isDeleted = false ∧
    (∀ k ∈ [0, 1], ∃ o, w.solids[k]? = some o) ∧
    onLoft 2 (Loft.generateEdges false) w = .error e w₁ ∧
    w₁.issuer.inUse.length = 7 ∧ w₁.sets.length = 2 ∧
    delete 2 w₁ = .ok () w₂ ∧ w₂.issuer.inUse.length = 6 ∧ w₂.sets.length = 1 ∧
    ∃ scratch w'', 5 ≤ scratch.length ∧ w₁.issuer.Owns ∅ (scratch ++ w₁.sets) ∧
      delete 2 w₁ = .ok () w'' ∧ w''.issuer.Owns ∅ (scratch ++ w''.sets) := by
  obtain ⟨w, hw, w₁, w₂, l, e, o₀, o₁, hl, hlive, ho₀, ho₁, hrun, huse₁, hsets₁, hdelete, huse₂,
      hsets₂⟩ : ∃ w : World, w.Reached .unary ∧
        ∃ (w₁ w₂ : World) (l : Loft) (e : Fault) (o₀ o₁ : Solid),
        w.solids[2]? = some (.loft l [0, 1]) ∧ l.base.isDeleted = false ∧
        w.solids[0]? = some o₀ ∧ w.solids[1]? = some o₁ ∧
        onLoft 2 (Loft.generateEdges false) w = .error e w₁ ∧
        w₁.issuer.inUse.length = 7 ∧ w₁.sets.length = 2 ∧
        delete 2 w₁ = .ok () w₂ ∧ w₂.issuer.inUse.length = 6 ∧ w₂.sets.length = 1 := by
    refine exists_reached [.createLayer [0, 0, 0] [[0, 0, 0]],
      .createLayer [0, 0, 2] [[0, 0, 0]], .createLoft [0, 0, 0] [0, 1], .delete 1] (by cbv) ?_
    exact ⟨_, _, _, _, _, _, rfl, rfl, rfl, rfl, by cbv, by rfl, by rfl, by cbv, by rfl, by rfl⟩
  have hhandles : ∀ k ∈ [0, 1], ∃ o, w.solids[k]? = some o := by
    simpa using ⟨⟨o₀, ho₀⟩, o₁, ho₁⟩
  exact ⟨w, w₁, w₂, l, e, hw.isSound, hl, hlive, hhandles, hrun, huse₁, hsets₁, hdelete, huse₂,
    hsets₂, generateEdges_stops hw.isSound hl hlive hhandles hrun⟩

end World
end VoxelAlgebra
