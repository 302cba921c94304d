import VoxelAlgebra.Proofs.Solid.HullSlices
import VoxelAlgebra.Solid.Loft
import VoxelAlgebra.Solid.Sweep

/-!
# Successful runs

What a successful run leaves at hand, whatever was computed on the way. A change of a live set
leaves a sound set with the same identifier, a new object has a fresh identifier, and sets that were
made only for the run are given back. Every operation refuses an object that was deleted.

## Main definitions

* `VoxelSet.IsChange` — a live set and what it was changed to.
* `Issuer.Owns.of_isChange`, `Issuer.Owns.of_create` — changed and new sets at hand.
* `Layer.generateEdges_eq_ok`, `Layer.fillPolygon_eq_ok` — a layer that was traced or filled.
-/

namespace VoxelAlgebra

variable {i i' : Issuer} {held : Set String} {rest : List VoxelSet} {u : Unit}

/-! ## Voxel sets -/

namespace VoxelSet

variable {s t : VoxelSet}

/-- A live set was changed to a sound one with the same identifier. -/
structure IsChange (s t : VoxelSet) : Prop where
  isLive : s.isDeleted = false
  isSound : t.IsSound
  id : t.id = s.id

theorem isChange_of_recompute (h : recompute s = .ok u t) : IsChange s t := by
  obtain ⟨hlive, d, -, rfl⟩ := recompute_eq_ok.1 h
  exact ⟨hlive, isSound_of_recompute h, rfl⟩

theorem isChange_of_setFill {fill : List Voxel} (h : setFill fill s = .ok u t) : IsChange s t := by
  obtain ⟨hlive, d, -, rfl⟩ := setFill_eq_ok.1 h
  exact ⟨hlive, isSound_of_setFill h, rfl⟩

/-- A set with other voxels keeps its origin. -/
theorem of_setFill {fill : List Voxel} (h : setFill fill s = .ok u t) :
    t.origin = s.origin ∧ t.fill = fill := by
  obtain ⟨-, d, -, rfl⟩ := setFill_eq_ok.1 h
  exact ⟨rfl, rfl⟩

theorem isChange_of_addFill {more : List Voxel} (h : addFill more s = .ok u t) : IsChange s t := by
  obtain ⟨hlive, d, -, rfl⟩ := addFill_eq_ok.1 h
  exact ⟨hlive, isSound_of_addFill h, rfl⟩

theorem isChange_of_setOriginFrom {origin : List Number} (h : setOriginFrom origin s = .ok u t) :
    IsChange s t := by
  simp only [setOriginFrom, setOrigin, Edit.get_bind, Edit.bind_eq_ok, Edit.ofExcept_eq_ok,
    Edit.modify_eq_ok, checkAlive_eq_ok] at h
  obtain ⟨_, _, ⟨hlive, rfl⟩, _, _, ⟨-, rfl⟩, _, _, ⟨-, rfl⟩, _, _, rfl, h⟩ := h
  obtain ⟨-, hsound, hid⟩ := isChange_of_recompute h
  exact ⟨hlive, hsound, hid⟩

theorem isChange_of_setFillFrom {fill : List (List Number)} (h : setFillFrom fill s = .ok u t) :
    IsChange s t := by
  simp only [setFillFrom, Edit.get_bind, Edit.bind_eq_ok, Edit.ofExcept_eq_ok] at h
  obtain ⟨_, _, ⟨-, rfl⟩, _, _, ⟨-, rfl⟩, h⟩ := h
  exact isChange_of_setFill h

theorem exists_of_appendRows {rows : List (List Number)} (h : appendRows rows s = .ok u t) :
    ∃ fill, t = { s with fill } := by
  induction rows generalizing s with
  | nil =>
    obtain ⟨-, rfl⟩ := Edit.pure_eq_ok.1 h
    exact ⟨_, rfl⟩
  | cons row rows ih =>
    simp only [appendRows, Edit.bind_eq_ok, Edit.ofExcept_eq_ok, Edit.modify_eq_ok] at h
    obtain ⟨_, _, ⟨-, rfl⟩, _, _, rfl, hrest⟩ := h
    obtain ⟨fill, hfill⟩ := ih hrest
    exact ⟨fill, hfill⟩

theorem isChange_of_addFillFrom {more : List (List Number)} (h : addFillFrom more s = .ok u t) :
    IsChange s t := by
  simp only [addFillFrom, Edit.get_bind, Edit.bind_eq_ok, Edit.ofExcept_eq_ok,
    checkAlive_eq_ok] at h
  obtain ⟨_, _, ⟨hlive, rfl⟩, _, _, happend, h⟩ := h
  obtain ⟨fill, rfl⟩ := exists_of_appendRows happend
  obtain ⟨-, hsound, hid⟩ := isChange_of_recompute h
  exact ⟨hlive, hsound, hid⟩

theorem isSound_of_ofParts {id : String} {origin : Voxel} {fill : List Voxel}
    (h : ofParts id origin fill = .ok s) : s.id = id ∧ s.IsSound := by
  rw [ofParts, except_bind_eq_ok] at h
  obtain ⟨d, hd, h⟩ := h
  cases h
  exact ⟨rfl, rfl, hd⟩

end VoxelSet

open VoxelSet (IsChange)

namespace Issuer.Owns

variable {s t : VoxelSet} {sets : List VoxelSet}

/-- A changed set is at hand if the set was when it was live. -/
theorem of_isChange (h : s.isDeleted = false → i.Owns held (s :: rest)) (hchange : IsChange s t) :
    i.Owns held (t :: rest) :=
  (h hchange.isLive).change hchange.isSound hchange.id

/-- A set that was made with an issued identifier is at hand. -/
theorem of_ofParts {id : String} {origin : Voxel} {fill : List Voxel} (h : i.Owns held sets)
    (hissue : Issuer.issue i = .ok id i') (hs : VoxelSet.ofParts id origin fill = .ok s) :
    i'.Owns held (s :: sets) := by
  obtain ⟨rfl, hsound⟩ := VoxelSet.isSound_of_ofParts hs
  exact h.issue (issues_of_issue hissue) hsound

theorem of_create {origin : Voxel} {fill : List Voxel} (h : i.Owns held sets)
    (hrun : VoxelSet.create origin fill i = .ok s i') : i'.Owns held (s :: sets) := by
  obtain ⟨hissues, -, -, hsound⟩ := VoxelSet.create_eq_ok hrun
  exact h.issue hissues hsound

theorem of_createFrom {origin : List Number} {fill : List (List Number)} (h : i.Owns held sets)
    (hrun : VoxelSet.createFrom origin fill i = .ok s i') : i'.Owns held (s :: sets) := by
  simp only [VoxelSet.createFrom, Edit.bind_eq_ok, Edit.ofExcept_eq_ok, except_bind_eq_ok] at hrun
  obtain ⟨id, _, hissue, ⟨_, -, _, -, hs⟩, rfl⟩ := hrun
  exact h.of_ofParts hissue hs

/-- A set that was deleted was at hand. -/
theorem of_release (h : s.isDeleted = false → i.Owns held (s :: rest))
    (hrun : s.release i = .ok t i') : t.isDeleted = true ∧ i'.Owns held rest := by
  have hlive : s.isDeleted = false := by
    simp only [VoxelSet.release, Edit.bind_eq_ok, Edit.ofExcept_eq_ok,
      VoxelSet.checkAlive_eq_ok] at hrun
    obtain ⟨_, _, ⟨hlive, -⟩, -⟩ := hrun
    exact hlive
  obtain ⟨i₁, hrelease, howns⟩ := (h hlive).exists_release
  rw [hrun] at hrelease
  cases hrelease
  exact ⟨rfl, howns⟩

theorem of_releaseSets (h : i.Owns held (sets ++ rest))
    (hrun : Composite.releaseSets sets i = .ok u i') : i'.Owns held rest := by
  obtain ⟨i₁, hrelease, howns⟩ := h.exists_releaseSets
  rw [hrun] at hrelease
  cases hrelease
  exact howns

end Issuer.Owns

/-! ## Lines -/

namespace Line

variable {l l' : Line}

theorem isChange_of_generate (h : generate l = .ok u l') : IsChange l.base l'.base := by
  simp only [generate, onBase, Edit.get_bind, Edit.bind_eq_ok, Edit.ofExcept_eq_ok,
    Edit.onPart_eq_ok] at h
  obtain ⟨_, _, ⟨-, rfl⟩, base, hset, rfl⟩ := h
  exact VoxelSet.isChange_of_setFill hset

theorem isChange_of_changeEndpoints {endpoints : List (List Number)}
    (h : changeEndpoints endpoints l = .ok u l') : IsChange l.base l'.base := by
  simp only [changeEndpoints, onBase, Edit.get_bind, Edit.bind_eq_ok, Edit.ofExcept_eq_ok,
    Edit.modify_eq_ok, Edit.onPart_eq_ok] at h
  obtain ⟨_, _, ⟨-, rfl⟩, _, _, ⟨-, rfl⟩, _, _, rfl, base, hset, rfl⟩ := h
  exact VoxelSet.isChange_of_setFill hset

theorem owns_of_create {origin : List Number} {endpoints : List (List Number)} {doublePass : Bool}
    {sets : List VoxelSet} (h : i.Owns held sets)
    (hrun : create origin endpoints doublePass i = .ok l i') : i'.Owns held (l.base :: sets) := by
  simp only [create, Edit.bind_eq_ok, Edit.ofExcept_eq_ok, except_bind_eq_ok,
    Edit.pure_eq_ok] at hrun
  obtain ⟨_, _, ⟨-, rfl⟩, id, _, hissue, s, _, ⟨⟨_, -, hs⟩, rfl⟩, rfl, rfl⟩ := hrun
  exact h.of_ofParts hissue hs

end Line

/-! ## Layers -/

namespace Layer

variable {l l' : Layer}

theorem isChange_of_changeVertices {rows : List (List Number)}
    (h : changeVertices rows l = .ok u l') : IsChange l.base l'.base := by
  simp only [changeVertices, onBase, Edit.get_bind, Edit.bind_eq_ok, Edit.ofExcept_eq_ok,
    Edit.modify_eq_ok, Edit.onPart_eq_ok] at h
  obtain ⟨_, _, ⟨-, rfl⟩, _, _, ⟨-, rfl⟩, _, _, rfl, base, hset, rfl⟩ := h
  exact VoxelSet.isChange_of_setFill hset

/-- A new layer has its vertices as voxels, at the zero origin. -/
theorem create_eq_ok {vertices : List Voxel} (h : create vertices i = .ok l i') :
    l.vertices = vertices ∧ VoxelSet.create .zero vertices i = .ok l.base i' := by
  unfold create at h
  split_ifs at h
  · simp [Edit.bind_eq_ok] at h
  · simp only [Edit.bind_eq_ok, Edit.pure_eq_ok] at h
    obtain ⟨s, _, hcreate, rfl, rfl⟩ := h
    exact ⟨rfl, hcreate⟩

theorem owns_of_create {vertices : List Voxel} {sets : List VoxelSet} (h : i.Owns held sets)
    (hrun : create vertices i = .ok l i') : i'.Owns held (l.base :: sets) :=
  h.of_create (create_eq_ok hrun).2

/-- Tracing keeps the vertices and the origin. -/
theorem generateEdges_eq_ok (h : generateEdges l = .ok u l') :
    ∃ base, VoxelSet.setFill (outlineFill l.vertices) l.base = .ok u base ∧
      l' = { l with base, edges := namedEdges l.vertices } := by
  simp only [generateEdges, onBase, Edit.get_bind, Edit.bind_eq_ok, Edit.ofExcept_eq_ok,
    Edit.set_eq_ok, Edit.onPart_eq_ok] at h
  obtain ⟨_, _, ⟨-, rfl⟩, _, _, rfl, base, hset, rfl⟩ := h
  exact ⟨base, hset, rfl⟩

theorem isChange_of_generateEdges (h : generateEdges l = .ok u l') : IsChange l.base l'.base := by
  obtain ⟨base, hset, rfl⟩ := generateEdges_eq_ok h
  exact VoxelSet.isChange_of_setFill hset

theorem owns_of_createFrom {origin : List Number} {vertices : List (List Number)}
    {sets : List VoxelSet} (h : i.Owns held sets)
    (hrun : createFrom origin vertices i = .ok l i') : i'.Owns held (l.base :: sets) := by
  simp only [createFrom, Edit.bind_eq_ok, Edit.ofExcept_eq_ok, except_bind_eq_ok,
    Edit.pure_eq_ok] at hrun
  obtain ⟨_, _, ⟨-, rfl⟩, id, _, hissue, s, _, ⟨⟨_, -, hs⟩, rfl⟩, rfl, rfl⟩ := hrun
  exact h.of_ofParts hissue hs

theorem owns_of_release (h : l.base.isDeleted = false → i.Owns held (l.base :: rest))
    (hrun : l.release i = .ok l' i') : l'.base.isDeleted = true ∧ i'.Owns held rest := by
  simp only [release, Edit.bind_eq_ok, Edit.pure_eq_ok] at hrun
  obtain ⟨s, _, hrelease, rfl, rfl⟩ := hrun
  exact Issuer.Owns.of_release h hrelease

/-- The outline through vertices is traced by a layer that is given back. -/
theorem scratchOutline_eq_ok {vertices voxels : List Voxel} {sets : List VoxelSet}
    (h : i.Owns held sets) (hrun : scratchOutline vertices i = .ok voxels i') :
    voxels = outlineFill vertices ∧ i'.Owns held sets := by
  simp only [scratchOutline, Edit.bind_eq_ok, Edit.ofExcept_eq_ok, Edit.pure_eq_ok] at hrun
  obtain ⟨l, i₁, hcreate, _, _, ⟨houtcome, rfl⟩, s, _, hrelease, rfl, rfl⟩ := hrun
  cases hedges : generateEdges l with
  | error e l' => simp [Edit.outcome, hedges] at houtcome
  | ok _ l' =>
    obtain ⟨base, hset, rfl⟩ := generateEdges_eq_ok hedges
    have howns := Issuer.Owns.of_isChange (fun _ => owns_of_create h hcreate)
      (VoxelSet.isChange_of_setFill hset)
    simp only [Edit.outcome, hedges] at hrelease ⊢
    refine ⟨?_, (Issuer.Owns.of_release (fun _ => howns) hrelease).2⟩
    rw [(VoxelSet.of_setFill hset).2, (create_eq_ok hcreate).1]

/-- The outlines of all slices are traced, and nothing is left behind. -/
theorem sliceOutlines_eq_ok {origin : Voxel} {directory : Directory Voxel} {voxels : List Voxel}
    {sets : List VoxelSet} (h : i.Owns held sets)
    (hrun : sliceOutlines origin directory i = .ok voxels i') :
    voxels = rowFill origin directory ∧ i'.Owns held sets := by
  induction directory generalizing i voxels with
  | nil =>
    obtain ⟨rfl, rfl⟩ := Edit.pure_eq_ok.1 hrun
    exact ⟨rfl, h⟩
  | cons entry directory ih =>
    obtain ⟨k, slice⟩ := entry
    cases slice with
    | nil => exact ih h hrun
    | cons v slice =>
      rw [sliceOutlines] at hrun
      · simp only [Edit.bind_eq_ok, Edit.pure_eq_ok] at hrun
        obtain ⟨_, i₁, hscratch, _, _, hslices, rfl, rfl⟩ := hrun
        obtain ⟨rfl, howns⟩ := scratchOutline_eq_ok h hscratch
        obtain ⟨rfl, howns⟩ := ih howns hslices
        exact ⟨rfl, howns⟩
      · exact List.cons_ne_nil v slice

/-- Filling keeps all but the voxels, and leaves at hand what was at hand. -/
theorem fillPolygon_eq_ok (hrun : fillPolygon (i, l) = .ok u (i', l')) :
    ∃ base, VoxelSet.setFill
        (Voxel.distinct (rowFill l.base.origin l.base.derived.directory)) l.base = .ok u base ∧
      l' = { l with base } ∧ ∀ held sets, i.Owns held sets → i'.Owns held sets := by
  simp only [fillPolygon, onBase, Edit.get_bind, Edit.bind_eq_ok, Edit.ofExcept_eq_ok,
    Edit.onFirst_eq_ok, Edit.onSecond_eq_ok, Edit.onPart_eq_ok] at hrun
  obtain ⟨_, _, ⟨-, rfl⟩, _, ⟨_, _⟩, ⟨hslices, rfl⟩, ⟨base, hset, rfl⟩, rfl⟩ := hrun
  obtain ⟨rfl, -⟩ := sliceOutlines_eq_ok (.of_inUse i) hslices
  exact ⟨base, hset, rfl, fun held sets h => (sliceOutlines_eq_ok h hslices).2⟩

theorem isChange_of_fillPolygon (hrun : fillPolygon (i, l) = .ok u (i', l')) :
    IsChange l.base l'.base := by
  obtain ⟨base, hset, rfl, -⟩ := fillPolygon_eq_ok hrun
  exact VoxelSet.isChange_of_setFill hset

theorem owns_of_fillPolygon (h : l.base.isDeleted = false → i.Owns held (l.base :: rest))
    (hrun : fillPolygon (i, l) = .ok u (i', l')) : i'.Owns held (l'.base :: rest) := by
  obtain ⟨base, hset, rfl, howns⟩ := fillPolygon_eq_ok hrun
  exact .of_isChange (fun hlive => howns held _ (h hlive)) (VoxelSet.isChange_of_setFill hset)

end Layer

end VoxelAlgebra
