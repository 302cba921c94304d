import VoxelAlgebra.Proofs.Box.Region
import VoxelAlgebra.Proofs.World.Operations

/-!
# Splitting one set by another

A composite splits the voxels of one set into those that another set has and those that it has not.
Only voxels in the region where the slices of the two sets meet are looked up. In a world that was
built by operations every set is cut into slices that cover its voxels, along whatever axis, so no
common voxel is outside the region, whichever of the two sets it was worked out from. The region
has no more points than it should have either: they are the points that a slice of each set covers,
whether the set has a voxel there or not.

## Main definitions

* `VoxelSet.meetingRegions` — the two regions, worked out from either set.
* `World.contains_overlapRegion_iff` — the points of the regions.
* `World.partition_agrees` — splitting with either region is splitting by membership.
-/

namespace VoxelAlgebra

namespace VoxelSet

variable {s t : VoxelSet}

def meetingRegions (s t : VoxelSet) : List Region := [s.overlapRegion t, t.overlapRegion s]

/-- A common voxel of two sets is in both regions. -/
theorem contains_of_mem_meetingRegions (hs : s.IsSound) (ht : t.IsSound) {v : Voxel}
    (hvs : v ∈ s.absoluteFill) (hvt : v ∈ t.absoluteFill) :
    ∀ region ∈ s.meetingRegions t, region.contains v := by
  intro region hregion
  obtain rfl | hregion := List.mem_cons.1 hregion
  · exact contains_overlapRegion hs ht hvs hvt
  · rw [List.mem_singleton.1 hregion]
    exact contains_overlapRegion ht hs hvt hvs

/-- The boxes of the slices of a set are not inverted. -/
theorem IsSound.isUpright (hs : s.IsSound) : s.derived.region.IsUpright := by
  obtain ⟨-, ⟨-, hd⟩ | ⟨e, hd⟩⟩ := Derived.of_eq_ok hs.derived
  · rw [hd]
    exact fun box hbox => absurd hbox List.not_mem_nil
  · exact hd.region.isUpright

end VoxelSet

namespace World

variable {w : World} {s t : VoxelSet}

/-- The region of two sets of a world contains the points that the slices of both cover, and so it
does not matter which of the two sets it is worked out from. -/
theorem contains_overlapRegion_iff {source : IdSource} (hw : w.Reached source) (hs : s ∈ w.sets)
    (ht : t ∈ w.sets) (p : Voxel) :
    ((s.overlapRegion t).contains p ↔
      s.derived.region.contains p ∧ t.derived.region.contains p) ∧
    ((t.overlapRegion s).contains p ↔ (s.overlapRegion t).contains p) := by
  have hsound : ∀ u ∈ w.sets, u.IsSound := fun u hu => hw.isSound.isSound u hu
  have hst : (s.overlapRegion t).contains p ↔
      s.derived.region.contains p ∧ t.derived.region.contains p :=
    Region.contains_overlap_iff (hsound s hs).isUpright (hsound t ht).isUpright
  have hts : (t.overlapRegion s).contains p ↔
      t.derived.region.contains p ∧ s.derived.region.contains p :=
    Region.contains_overlap_iff (hsound t ht).isUpright (hsound s hs).isUpright
  exact ⟨hst, by rw [hts, hst, and_comm]⟩

/-- Slices along `x` and flat slices along `z` that only touch, at a point that is not a voxel of
the first set but in the box of one of its slices. -/
theorem contains_overlapRegion_iff_touching : ∃ (w : World) (s t : VoxelSet),
    w.Reached .hexadecimal ∧ s ∈ w.sets ∧ t ∈ w.sets ∧
    s.derived.axes.first = .x ∧ t.derived.axes.first = .z ∧
    s.absoluteFill = [⟨0, 0, 0⟩, ⟨0, 2, 0⟩, ⟨3, 0, 0⟩] ∧
    (s.overlapRegion t).contains ⟨0, 1, 0⟩ ∧ (t.overlapRegion s).contains ⟨0, 1, 0⟩ := by
  obtain ⟨w, hw, s, t, hs, ht, hfirst, hfirst', hfill, hp, hp'⟩ :
      ∃ w : World, w.Reached .hexadecimal ∧ ∃ s t : VoxelSet,
        w.sets[0]? = some s ∧ w.sets[1]? = some t ∧
        s.derived.axes.first = .x ∧ t.derived.axes.first = .z ∧
        s.absoluteFill = [⟨0, 0, 0⟩, ⟨0, 2, 0⟩, ⟨3, 0, 0⟩] ∧
        s.derived.region.contains ⟨0, 1, 0⟩ ∧ t.derived.region.contains ⟨0, 1, 0⟩ := by
    refine exists_reached [.createSet [0, 0, 0] [[0, 0, 0], [0, 2, 0], [3, 0, 0]],
      .createSet [0, 1, 0] [[0, 0, 0], [0, 0, 4]]] (by cbv) ?_
    exact ⟨_, _, rfl, rfl, rfl, rfl, rfl, rfl, rfl⟩
  have hs' := List.mem_of_getElem? hs
  have ht' := List.mem_of_getElem? ht
  obtain ⟨hmeets, hcomm⟩ := contains_overlapRegion_iff hw hs' ht' ⟨0, 1, 0⟩
  have hmeet := hmeets.2 ⟨hp, hp'⟩
  exact ⟨w, s, t, hw, hs', ht', hfirst, hfirst', hfill, hmeet, hcomm.2 hmeet⟩

/-- Splitting a set by another one of the same world gives the voxels that the other set has and
those that it has not, each in their order and as often as they occur. -/
theorem partition_agrees {source : IdSource} (hw : w.Reached source) (hs : s ∈ w.sets)
    (ht : t ∈ w.sets) : ∃ voxels others, s.absolute = .ok voxels ∧ t.absolute = .ok others ∧
      ∀ region ∈ s.meetingRegions t, s.partition t region =
        .ok (voxels.filter (· ∈ others), voxels.filter (· ∉ others)) := by
  have hsound : ∀ u ∈ w.sets, u.IsSound := fun u hu => hw.isSound.isSound u hu
  have hs' := hsound s hs
  have ht' := hsound t ht
  refine ⟨s.absoluteFill, t.absoluteFill, VoxelSet.absolute_eq_ok.2 ⟨hs'.isLive, rfl⟩,
    VoxelSet.absolute_eq_ok.2 ⟨ht'.isLive, rfl⟩, fun region hregion => ?_⟩
  apply VoxelSet.partition_eq hs' ht'
  intro v hvs hvt
  exact VoxelSet.contains_of_mem_meetingRegions hs' ht' hvs hvt region hregion

/-- A row along one axis with a voxel that occurs twice, and a row along another axis at another
origin, which have one voxel in common. -/
theorem partition_agrees_crossing : ∃ (w : World) (s t : VoxelSet),
    w.Reached .hexadecimal ∧ s ∈ w.sets ∧ t ∈ w.sets ∧
    s.derived.axes.first = .x ∧ t.derived.axes.first = .y ∧
    s.absoluteFill = [⟨1, 0, 0⟩, ⟨0, 0, 0⟩, ⟨2, 0, 0⟩, ⟨1, 0, 0⟩] ∧
    (∃ voxels others, s.absolute = .ok voxels ∧ t.absolute = .ok others ∧
      ∀ region ∈ s.meetingRegions t, s.partition t region =
        .ok (voxels.filter (· ∈ others), voxels.filter (· ∉ others))) := by
  obtain ⟨w, hw, s, t, hs, ht, haxes⟩ : ∃ w : World, w.Reached .hexadecimal ∧ ∃ s t : VoxelSet,
      w.sets[0]? = some s ∧ w.sets[1]? = some t ∧
      s.derived.axes.first = .x ∧ t.derived.axes.first = .y ∧
      s.absoluteFill = [⟨1, 0, 0⟩, ⟨0, 0, 0⟩, ⟨2, 0, 0⟩, ⟨1, 0, 0⟩] := by
    refine exists_reached [.createSet [0, 0, 0] [[1, 0, 0], [0, 0, 0], [2, 0, 0], [1, 0, 0]],
      .createSet [1, .whole (-1), 0] [[0, 0, 0], [0, 1, 0], [0, 3, 0]]] (by cbv) ?_
    exact ⟨_, _, rfl, rfl, rfl, rfl, rfl⟩
  have hs' := List.mem_of_getElem? hs
  have ht' := List.mem_of_getElem? ht
  exact ⟨w, s, t, hw, hs', ht', haxes.1, haxes.2.1, haxes.2.2, partition_agrees hw hs' ht'⟩

end World
end VoxelAlgebra
