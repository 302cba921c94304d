import VoxelAlgebra.Proofs.World.Operations

/-!
# Finding a voxel

A set finds a point through the slice of its coordinate on the first axis, by binary search for the
other two coordinates. The directory that is searched was derived from the absolute voxels at the
last operation. So in a world that was built by operations the search finds a place exactly for the
voxels of the set, and the voxel at that place of the slice is the one that was looked for.

## Main definitions

* `VoxelSet.exists_slice_of_find` — the voxel at the place that was found.
* `World.find_agrees` — finding is membership in the absolute voxels.
-/

namespace VoxelAlgebra

namespace Directory

variable {d : Directory Voxel} {o : AxisOrder} {p : Voxel} {i : Nat}

/-- The place that is found is in the slice of the point, and a voxel is there that agrees with the
point on the axes of the search. -/
theorem exists_slice_of_indexOf? (h : Id.run (d.indexOf? o p) = some i) :
    ∃ slice v, d.lookup (p.coord o.first) = some slice ∧ slice[i]? = some v ∧
      sliceKey o v = sliceKey o p := by
  rw [run_indexOf?, Option.bind_eq_some_iff] at h
  obtain ⟨slice, hslice, hsearch⟩ := h
  obtain ⟨v, hv, hkey⟩ := key_of_search hsearch
  exact ⟨slice, v, hslice, hv, hkey⟩

/-- The voxels of a slice have its coordinate on the first axis. -/
theorem first_of_mem_lookup {low high k : Int} {voxels slice : List Voxel}
    (h : (directoryOf o low high voxels).lookup k = some slice) {v : Voxel} (hv : v ∈ slice) :
    v.coord o.first = k := by
  rw [directoryOf, lookup_map] at h
  split_ifs at h with hk
  obtain rfl := Option.some.inj h
  exact (mem_bucket.1 (mem_sortedSlice.1 hv)).2

end Directory

namespace VoxelSet

variable {s : VoxelSet} {p : Voxel} {i : Nat}

/-- The voxel at the place that was found is the one that was looked for. -/
theorem exists_slice_of_find (hs : s.IsSound) (h : Id.run (s.find p) = some i) :
    ∃ slice, s.derived.directory.lookup (p.coord s.derived.axes.first) = some slice ∧
      slice[i]? = some p := by
  obtain ⟨-, ⟨-, hd⟩ | ⟨e, hd⟩⟩ := Derived.of_eq_ok hs.derived
  · simp [find, hd, Derived.empty] at h
  · have hfind : Id.run (s.find p) = Id.run (s.derived.directory.indexOf? s.derived.axes p) := by
      simp [find, hd.box]
    rw [hfind] at h
    obtain ⟨slice, v, hslice, hv, hkey⟩ := Directory.exists_slice_of_indexOf? h
    have hfirst : v.coord s.derived.axes.first = p.coord s.derived.axes.first := by
      rw [hd.directory, ← hd.axes] at hslice
      exact Directory.first_of_mem_lookup hslice (List.mem_of_getElem? hv)
    have ho : s.derived.axes.IsOrder := hd.axes ▸ AxisOrder.isOrder_byDecreasing _
    -- the slice settles the first coordinate and the key the other two
    have hvp : v = p :=
      ho.ext_coord hfirst (congrArg Prod.fst hkey) (congrArg Prod.snd hkey)
    exact ⟨slice, hslice, hvp ▸ hv⟩

end VoxelSet

namespace World

variable {w : World} {s : VoxelSet}

/-- A set of a world finds no place for a point that is not among its absolute voxels, and for one
that is it finds a place of its slice where it occurs. -/
theorem find_agrees {source : IdSource} (hw : w.Reached source) (hs : s ∈ w.sets) (p : Voxel) :
    ∃ voxels, s.absolute = .ok voxels ∧ (Id.run (s.find p) = none ↔ p ∉ voxels) ∧
      (∀ i, Id.run (s.find p) = some i →
        ∃ slice, s.derived.directory.lookup (p.coord s.derived.axes.first) = some slice ∧
          slice[i]? = some p) ∧
      s.checkAlive = .ok () ∧ (s.contains p ↔ p ∈ voxels) := by
  have hsound : s.IsSound := hw.isSound.isSound s hs
  have hmem : s.contains p ↔ p ∈ s.absoluteFill := VoxelSet.contains_iff hsound p
  have hnone : Id.run (s.find p) = none ↔ p ∉ s.absoluteFill := by
    rw [← hmem, VoxelSet.contains, Option.not_isSome_iff_eq_none]
  exact ⟨s.absoluteFill, VoxelSet.absolute_eq_ok.2 ⟨hsound.isLive, rfl⟩, hnone,
    fun _ => VoxelSet.exists_slice_of_find hsound, VoxelSet.checkAlive_eq_ok.2 hsound.isLive, hmem⟩

/-- A set away from the zero origin with an empty slice between its voxels, of which one occurs
twice: that one is found, and a point of the empty slice is not. -/
theorem find_agrees_twice : ∃ (w : World) (s : VoxelSet) (i : Nat) (slice : List Voxel),
    w.Reached .hexadecimal ∧ s ∈ w.sets ∧
    s.absoluteFill = [⟨0, 0, 2⟩, ⟨0, 5, 3⟩, ⟨0, 5, 2⟩, ⟨0, 5, 3⟩] ∧
    s.derived.directory.lookup 4 = some [] ∧ Id.run (s.find (⟨0, 4, 3⟩ : Voxel)) = none ∧
    Id.run (s.find (⟨0, 5, 3⟩ : Voxel)) = some i ∧
    s.derived.directory.lookup 5 = some slice ∧ slice[i]? = some ⟨0, 5, 3⟩ := by
  obtain ⟨w, hw, s, hs, hfill, haxis, hempty⟩ : ∃ w : World, w.Reached .hexadecimal ∧
      ∃ s : VoxelSet, w.sets[0]? = some s ∧
        s.absoluteFill = [⟨0, 0, 2⟩, ⟨0, 5, 3⟩, ⟨0, 5, 2⟩, ⟨0, 5, 3⟩] ∧
        s.derived.axes.first = .y ∧ s.derived.directory.lookup 4 = some [] := by
    refine exists_reached [.createSet [0, 0, 2] [[0, 0, 0], [0, 5, 1], [0, 5, 0], [0, 5, 1]]]
      (by cbv) ?_
    exact ⟨_, rfl, rfl, rfl, rfl⟩
  have hs' := List.mem_of_getElem? hs
  obtain ⟨voxels, hvoxels, hfind, hplace, -, -⟩ := find_agrees hw hs' ⟨0, 5, 3⟩
  obtain ⟨voxels', hvoxels', hmissing, -, -, -⟩ := find_agrees hw hs' ⟨0, 4, 3⟩
  obtain rfl := (VoxelSet.absolute_eq_ok.1 hvoxels).2
  obtain rfl := (VoxelSet.absolute_eq_ok.1 hvoxels').2
  obtain ⟨i, hi⟩ : ∃ i, Id.run (s.find (⟨0, 5, 3⟩ : Voxel)) = some i :=
    Option.ne_none_iff_exists'.1 fun hnone => hfind.1 hnone (by rw [hfill]; decide)
  obtain ⟨slice, hslice, hv⟩ := hplace i hi
  rw [haxis] at hslice
  exact ⟨w, s, i, slice, hw, hs', hfill, hempty, hmissing.2 (by rw [hfill]; decide), hi, hslice, hv⟩

end World
end VoxelAlgebra
