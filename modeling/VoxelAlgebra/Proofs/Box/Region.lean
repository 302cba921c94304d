import VoxelAlgebra.Proofs.Box.Intersection
import VoxelAlgebra.Proofs.Box.Slices

/-!
# Regions meet where their boxes do

A region is a union of boxes, and the overlap of two regions is the union of the overlaps of their
boxes. Boxes that are apart have no overlap, and the overlap of boxes that meet has exactly the
points of both. So a point is in the overlap of two regions if and only if it is in both of them.

## Main definitions

* `Box.exists_contains_overlap?_iff` — the points in the overlap of two boxes.
* `Region.IsUpright` — a region whose boxes are not inverted.
* `Region.contains_overlap_iff` — the points in the overlap of two regions.
-/

namespace VoxelAlgebra

/-- Extents that are the least ones of something are not inverted. -/
theorem Extents.IsLeast.isUpright {e : Extents} {voxels : List Voxel} (h : e.IsLeast voxels) :
    e.IsUpright := fun a => by
  obtain ⟨v, hv, hlow⟩ := h.low a
  exact hlow ▸ (h.holds v hv a).2

namespace Box

variable {b o : Extents}

theorem overlap?_eq_none (hb : b.IsUpright) (ho : o.IsUpright) (hmeet : ¬(b.meet o).IsUpright) :
    (ofExtents b).overlap? (ofExtents o) = none := by
  have hintersect : Id.run (intersect b.reading o.reading) =
      Id.run (correct 8 (Id.run (clip b.reading o.reading))) := rfl
  rw [overlap?, corner_ofExtents, corner_ofExtents, hintersect, run_clip_of_apart hb ho hmeet,
    correct_none, Id.run_pure]

/-- The overlap of two boxes contains the points that are in both. -/
theorem exists_contains_overlap?_iff (hb : b.IsUpright) (ho : o.IsUpright) {v : Voxel} :
    (∃ box, (ofExtents b).overlap? (ofExtents o) = some box ∧ box.contains v) ↔
      b.Holds v ∧ o.Holds v := by
  refine ⟨fun ⟨box, hbox, hv⟩ => ?_, fun ⟨hvb, hvo⟩ => contains_overlap? hvb hvo⟩
  by_cases hmeet : (b.meet o).IsUpright
  · obtain ⟨box', hbox', hcorners⟩ := exists_overlap? hmeet
    obtain rfl := Option.some.inj (hbox.symm.trans hbox')
    rw [contains_iff, hcorners, Extents.corners_flb, Extents.corners_brt] at hv
    exact (b.holds_meet_iff o v).1 hv
  · rw [overlap?_eq_none hb ho hmeet] at hbox
    cases hbox

end Box

namespace Region

def IsUpright (r : Region) : Prop := ∀ box ∈ r, ∃ e : Extents, box = Box.ofExtents e ∧ e.IsUpright

theorem contains_iff {r : Region} {v : Voxel} : r.contains v ↔ ∃ box ∈ r, box.contains v := by
  rw [contains, List.any_eq_true]

/-- A point is in the overlap of two regions if and only if it is in both. -/
theorem contains_overlap_iff {r₁ r₂ : Region} (h₁ : r₁.IsUpright) (h₂ : r₂.IsUpright) {v : Voxel} :
    (r₁.overlap r₂).contains v ↔ r₁.contains v ∧ r₂.contains v := by
  simp only [contains_iff, overlap, List.mem_flatMap, List.mem_filterMap]
  constructor
  · rintro ⟨box, ⟨b₁, hb₁, b₂, hb₂, hbox⟩, hv⟩
    obtain ⟨e₁, rfl, he₁⟩ := h₁ b₁ hb₁
    obtain ⟨e₂, rfl, he₂⟩ := h₂ b₂ hb₂
    obtain ⟨hv₁, hv₂⟩ := (Box.exists_contains_overlap?_iff he₁ he₂).1 ⟨box, hbox, hv⟩
    exact ⟨⟨_, hb₁, (Box.contains_ofExtents e₁ v).2 hv₁⟩,
      _, hb₂, (Box.contains_ofExtents e₂ v).2 hv₂⟩
  · rintro ⟨⟨b₁, hb₁, hv₁⟩, b₂, hb₂, hv₂⟩
    obtain ⟨e₁, rfl, he₁⟩ := h₁ b₁ hb₁
    obtain ⟨e₂, rfl, he₂⟩ := h₂ b₂ hb₂
    obtain ⟨box, hbox, hv⟩ := (Box.exists_contains_overlap?_iff he₁ he₂).2
      ⟨(Box.contains_ofExtents e₁ v).1 hv₁, (Box.contains_ofExtents e₂ v).1 hv₂⟩
    exact ⟨box, ⟨_, hb₁, _, hb₂, hbox⟩, hv⟩

end Region

/-- The boxes of slices are not inverted. -/
theorem AreBoxesOf.isUpright {entries : List (Int × List Voxel)} {boxes : Region}
    (h : AreBoxesOf entries boxes) : Region.IsUpright boxes := by
  unfold AreBoxesOf at h
  generalize (entries.filter fun entry => entry.2 ≠ []) = slices at h
  induction h with
  | nil => exact fun box hbox => absurd hbox List.not_mem_nil
  | cons hbox _ ih =>
    obtain ⟨e, rfl, hleast⟩ := hbox
    exact List.forall_mem_cons.2 ⟨⟨e, rfl, hleast.isUpright⟩, ih⟩

end VoxelAlgebra
