import VoxelAlgebra.Proofs.Solid.HullSlices

/-!
# Moved voxels

When voxels are moved by a vector, everything that is worked out from them goes along: the first
occurrences, the traced outlines, and the slices with the order in each of them. The axes that the
voxels are sliced and sorted by depend on the ranges only and stay the same. So a polygon can be
moved before it is traced and filled, or afterwards.

## Main definitions

* `Voxel.distinct_add`, `outlineFill_add` — first occurrences and outlines.
* `Derived.directory_add` — the slices of moved voxels.
* `IsTraced.add` — the traced or filled polygon through moved vertices.
-/

namespace VoxelAlgebra

variable {t : Voxel} {voxels : List Voxel}

/-! ## Outlines -/

namespace Voxel

theorem distinctFrom_add {seen seen' : Std.HashSet Voxel} (h : ∀ v, v + t ∈ seen' ↔ v ∈ seen)
    (voxels : List Voxel) :
    distinctFrom seen' (voxels.map (· + t)) = (distinctFrom seen voxels).map (· + t) := by
  induction voxels generalizing seen seen' with
  | nil => rfl
  | cons w rest ih =>
    simp only [List.map_cons, distinctFrom, h w]
    split_ifs with hw
    · exact ih h
    · have hinsert : ∀ v, v + t ∈ seen'.insert (w + t) ↔ v ∈ seen.insert w := fun v => by
        simp [h v]
      rw [List.map_cons, ih hinsert]

/-- The first occurrences of moved voxels. -/
theorem distinct_add (t : Voxel) (voxels : List Voxel) :
    distinct (voxels.map (· + t)) = (distinct voxels).map (· + t) :=
  distinctFrom_add (fun v => by simp) voxels

end Voxel

theorem outline_add (t : Voxel) (vertices : List Voxel) :
    outline (vertices.map (· + t)) = (outline vertices).map (List.map (· + t)) := by
  rw [outline, outline, ← List.map_tail, ← List.map_take, ← List.map_append, List.zipWith_map,
    List.map_zipWith]
  simp only [segment_add]

/-- The voxels of an outline through moved vertices. -/
theorem outlineFill_add (t : Voxel) (vertices : List Voxel) :
    outlineFill (vertices.map (· + t)) = (outlineFill vertices).map (· + t) := by
  rw [outlineFill, outlineFill, ← Voxel.distinct_add, List.map_append, outline_add]
  simp only [List.flatMap_map, List.map_flatMap, List.map_tail, List.map_dropLast]

/-! ## Slices -/

namespace Extents

def add (e : Extents) (t : Voxel) : Extents := ⟨e.low + t, e.high + t⟩

theorem axisOrder_add (e : Extents) (t : Voxel) : (e.add t).axisOrder = e.axisOrder := by
  have hrange : (e.add t).range = e.range := by
    funext a
    simp [Extents.range, add]
  rw [axisOrder, hrange, axisOrder]

theorem IsLeast.add {e : Extents} (h : e.IsLeast voxels) (t : Voxel) :
    (e.add t).IsLeast (voxels.map (· + t)) where
  holds := List.forall_mem_map.2 fun v hv a => by
    have := h.holds v hv a
    simp only [Extents.add, Voxel.coord_add]
    omega
  low a := by
    obtain ⟨v, hv, hlow⟩ := h.low a
    exact ⟨v + t, List.mem_map_of_mem hv, by simp [Extents.add, hlow]⟩
  high a := by
    obtain ⟨v, hv, hhigh⟩ := h.high a
    exact ⟨v + t, List.mem_map_of_mem hv, by simp [Extents.add, hhigh]⟩

end Extents

theorem coordinatesBetween_add (low high c : Int) :
    coordinatesBetween (low + c) (high + c) = (coordinatesBetween low high).map (· + c) := by
  have hlength : high + c - (low + c) = high - low := by omega
  rw [coordinatesBetween, coordinatesBetween, hlength, List.map_map]
  exact List.map_congr_left fun i _ => by
    rw [Function.comp_apply]
    omega

theorem bucket_add (o : AxisOrder) (k : Int) (t : Voxel) (voxels : List Voxel) :
    bucket o (k + t.coord o.first) (voxels.map (· + t)) = (bucket o k voxels).map (· + t) := by
  rw [bucket, bucket, List.filter_map]
  congr 1
  exact List.filter_congr fun v _ => by simp

/-- Moving voxels does not change how they are sorted. -/
theorem sliceLe_add (o : AxisOrder) (v w t : Voxel) :
    sliceLe o (v + t) (w + t) = sliceLe o v w := by
  rw [Bool.eq_iff_iff, sliceLe, sliceLe, pairLe_iff, pairLe_iff]
  simp [sliceKey]

theorem sortedSlice_add (o : AxisOrder) (t : Voxel) (voxels : List Voxel) :
    sortedSlice o (voxels.map (· + t)) = (sortedSlice o voxels).map (· + t) :=
  (List.map_mergeSort fun v _ w _ => (sliceLe_add o v w t).symm).symm

def Directory.add (d : Directory Voxel) (c : Int) (t : Voxel) : Directory Voxel :=
  d.map fun entry => (entry.1 + c, entry.2.map (· + t))

theorem directoryOf_add (o : AxisOrder) (low high : Int) (t : Voxel) (voxels : List Voxel) :
    directoryOf o (low + t.coord o.first) (high + t.coord o.first) (voxels.map (· + t)) =
      (directoryOf o low high voxels).add (t.coord o.first) t := by
  rw [directoryOf, directoryOf, Directory.add, coordinatesBetween_add, List.map_map, List.map_map]
  exact List.map_congr_left fun k _ => by
    rw [Function.comp_apply, Function.comp_apply, bucket_add, sortedSlice_add]

/-- The slices of moved voxels are the moved slices, along the same axes. -/
theorem Derived.directory_add {d d' : Derived} (h : Derived.of voxels = .ok d)
    (h' : Derived.of (voxels.map (· + t)) = .ok d') :
    d'.axes = d.axes ∧ d'.directory = d.directory.add (t.coord d.axes.first) t := by
  obtain ⟨-, ⟨rfl, hd⟩ | ⟨e, hd⟩⟩ := Derived.of_eq_ok h
  · cases h'
    rw [hd]
    exact ⟨rfl, rfl⟩
  · have hd' := Derived.describes_of_isLeast h' (hd.isLeast.add t)
    rw [hd'.axes, hd'.directory, hd.directory, hd.axes, e.axisOrder_add]
    refine ⟨rfl, ?_⟩
    rw [← directoryOf_add, Extents.add, Voxel.coord_add, Voxel.coord_add]

/-! ## Filled polygons -/

theorem rowFill_add (d : Directory Voxel) (c : Int) (t : Voxel) :
    rowFill .zero (d.add c t) = (rowFill .zero d).map (· + t) := by
  simp only [rowFill, Directory.add, List.flatMap_map, List.map_flatMap, Voxel.sub_zero,
    List.map_id', outlineFill_add]

/-- Through moved vertices the moved voxels are traced, and filled. -/
theorem IsTraced.add {vertices moved : List Voxel} {filled : Bool}
    (h : IsTraced vertices filled voxels) (h' : IsTraced (vertices.map (· + t)) filled moved) :
    moved = voxels.map (· + t) := by
  obtain ⟨d, hd, rfl⟩ := h
  obtain ⟨d', hd', rfl⟩ := h'
  rw [outlineFill_add] at hd'
  cases filled with
  | false => exact outlineFill_add t vertices
  | true =>
    rw [if_pos rfl, if_pos rfl, (Derived.directory_add hd hd').2, rowFill_add, Voxel.distinct_add]

end VoxelAlgebra
