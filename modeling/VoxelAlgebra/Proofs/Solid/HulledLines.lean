import VoxelAlgebra.Proofs.Solid.HullSlices

/-!
# Hulled lines

The lines between two lists of vertices pass every coordinate between the vertices, so they have the
extents of the vertices and a voxel in each slice. The hulls of the slices keep this: they have
vertices around every voxel of their slice, and neither an outline nor its rows leave the extents of
the vertices. So the voxels of the hulls have the same extents, are sliced by the same axes, and
again have a voxel in each slice.

The hull of a slice depends on the voxels of the slice only, not on their order. So an outline is
part of the filled hull of the same slice, even if both come from different runs.

## Main definitions

* `AreLines` — the voxels of all lines between two lists of vertices.
* `AreLines.isLeast`, `AreLines.exists_coord` — their extents, and a voxel in each slice.
* `IsHulled.isLeast`, `IsHulled.ne_nil_of_mem_directory` — the same of the hulls of their slices.
* `IsHulled.subset_of_outlines` — outlines are part of what is traced either way.
* `Loft.IsSection` — a section between vertices, with its lines, extents and slices.
-/

namespace VoxelAlgebra

variable {e : Extents} {v : Voxel} {a : Axis} {k : Int}

/-! ## Lines between vertices -/

def AreLines (starts finishes lines : List Voxel) : Prop :=
  ∀ v, v ∈ lines ↔ ∃ s ∈ starts, ∃ f ∈ finishes, v ∈ segment s f

theorem IsBetween.split {m n : Int} (h : IsBetween m n k) (l : Int) :
    IsBetween m l k ∨ IsBetween l n k := by
  unfold IsBetween at *
  omega

/-- What is between two voxels on every axis is held by the extents that hold these. -/
theorem Extents.Holds.of_isBetween {s f : Voxel} (hs : e.Holds s) (hf : e.Holds f)
    (h : ∀ a, IsBetween (s.coord a) (f.coord a) (v.coord a)) : e.Holds v := by
  intro a
  have hsa := hs a
  have hfa := hf a
  have hva := h a
  unfold IsBetween at hva
  omega

section Lines

variable {starts finishes lines : List Voxel}

/-- A number between two vertices is between a start and a finish. -/
theorem exists_isBetween (hstarts : starts ≠ []) (hfinishes : finishes ≠ []) {x y : Voxel}
    (hx : x ∈ starts ++ finishes) (hy : y ∈ starts ++ finishes)
    (hk : IsBetween (x.coord a) (y.coord a) k) :
    ∃ s ∈ starts, ∃ f ∈ finishes, IsBetween (s.coord a) (f.coord a) k := by
  obtain ⟨s, hs⟩ := List.exists_mem_of_ne_nil starts hstarts
  obtain ⟨f, hf⟩ := List.exists_mem_of_ne_nil finishes hfinishes
  obtain hx | hx := List.mem_append.1 hx <;> obtain hy | hy := List.mem_append.1 hy
  · -- Both are starts, so the number is between one of them and any finish.
    obtain h | h := hk.split (f.coord a)
    · exact ⟨x, hx, f, hf, h⟩
    · exact ⟨y, hy, f, hf, h.symm⟩
  · exact ⟨x, hx, y, hy, hk⟩
  · exact ⟨y, hy, x, hx, hk.symm⟩
  · obtain h | h := hk.split (s.coord a)
    · exact ⟨s, hs, x, hx, h.symm⟩
    · exact ⟨s, hs, y, hy, h⟩

namespace AreLines

theorem mem_of_mem (h : AreLines starts finishes lines) (hstarts : starts ≠ [])
    (hfinishes : finishes ≠ []) : ∀ v ∈ starts ++ finishes, v ∈ lines := by
  intro v hv
  obtain ⟨s, hs⟩ := List.exists_mem_of_ne_nil starts hstarts
  obtain ⟨f, hf⟩ := List.exists_mem_of_ne_nil finishes hfinishes
  obtain hv | hv := List.mem_append.1 hv
  · exact (h v).2 ⟨v, hv, f, hf, start_mem_segment v f⟩
  · exact (h v).2 ⟨s, hs, v, hv, finish_mem_segment s v⟩

/-- Lines have the extents of their vertices. -/
theorem isLeast (h : AreLines starts finishes lines) (hstarts : starts ≠ [])
    (hfinishes : finishes ≠ []) (he : e.IsLeast (starts ++ finishes)) : e.IsLeast lines := by
  refine he.of_subset (h.mem_of_mem hstarts hfinishes) fun v hv => ?_
  obtain ⟨s, hs, f, hf, hv⟩ := (h v).1 hv
  exact (he.holds s (List.mem_append_left _ hs)).of_isBetween
    (he.holds f (List.mem_append_right _ hf)) (isBetween_of_mem_segment hv)

/-- Lines pass every coordinate within their extents. -/
theorem exists_coord (h : AreLines starts finishes lines) (hstarts : starts ≠ [])
    (hfinishes : finishes ≠ []) (he : e.IsLeast (starts ++ finishes))
    (hk : e.low.coord a ≤ k ∧ k ≤ e.high.coord a) : ∃ v ∈ lines, v.coord a = k := by
  obtain ⟨x, hx, hlow⟩ := he.low a
  obtain ⟨y, hy, hhigh⟩ := he.high a
  have hxy : IsBetween (x.coord a) (y.coord a) k := .inl (by omega)
  obtain ⟨s, hs, f, hf, hsf⟩ := exists_isBetween hstarts hfinishes hx hy hxy
  obtain ⟨v, hv, hvk⟩ := exists_mem_segment_coord hsf
  exact ⟨v, (h v).2 ⟨s, hs, f, hf, hv⟩, hvk⟩

end AreLines

end Lines

/-! ## Traced outlines -/

theorem holds_outlineFill {vertices : List Voxel} (h : ∀ v ∈ vertices, e.Holds v) :
    ∀ v ∈ outlineFill vertices, e.Holds v := by
  intro v hv
  obtain ⟨s, hs, f, hf, hbetween⟩ := exists_between_vertices hv
  exact (h s hs).of_isBetween (h f hf) hbetween

namespace IsTraced

variable {vertices voxels : List Voxel} {filled : Bool}

/-- Filling keeps the outline. -/
theorem outline_subset (h : IsTraced vertices filled voxels) :
    ∀ v ∈ outlineFill vertices, v ∈ voxels := by
  obtain ⟨d, hd, rfl⟩ := h
  intro v hv
  cases filled with
  | false => exact hv
  | true => exact Voxel.mem_distinct.2 (subset_rowFill hd hv)

/-- Neither an outline nor its rows leave the extents of the vertices. -/
theorem holds (h : IsTraced vertices filled voxels) (he : ∀ v ∈ vertices, e.Holds v) :
    ∀ v ∈ voxels, e.Holds v := by
  obtain ⟨d, hd, rfl⟩ := h
  have houtline := holds_outlineFill he
  intro v hv
  cases filled with
  | false => exact houtline v hv
  | true =>
    obtain ⟨entry, hentry, hv⟩ := List.mem_flatMap.1 (Voxel.mem_distinct.1 hv)
    simp only [Voxel.sub_zero, List.map_id'] at hv
    exact holds_outlineFill (fun w hw => houtline w (mem_of_mem_directory hd hentry w hw).1) v hv

end IsTraced

/-! ## Hulls of slices -/

section Hull

variable {slice slice' : List Voxel}

/-- The hull of a slice has vertices around each voxel of the slice, on every axis. -/
theorem exists_hullVertices_around (hplace : ∀ v ∈ slice, v.coord a = k) (hv : v ∈ slice)
    (b : Axis) : (∃ w ∈ hullVertices a k slice, w.coord b ≤ v.coord b) ∧
      ∃ w ∈ hullVertices a k slice, v.coord b ≤ w.coord b := by
  obtain ⟨hu, hv'⟩ := exists_hullVertices (a := a) (k := k) hv
  obtain rfl | rfl | rfl := a.eq_or_plane b
  · obtain ⟨w, hw, -⟩ := hu.1
    have hwk := (coord_hullVertices w hw).trans (hplace v hv).symm
    exact ⟨⟨w, hw, hwk.le⟩, w, hw, hwk.ge⟩
  · exact hu
  · exact hv'

/-- Only the voxels of a slice matter for its hull. -/
theorem hullVertices_congr (h : ∀ v, v ∈ slice ↔ v ∈ slice') :
    hullVertices a k slice = hullVertices a k slice' := by
  have hmem : ∀ p, p ∈ slice.map (projectAlong a) ↔ p ∈ slice'.map (projectAlong a) := fun p => by
    simp only [List.mem_map, h]
  rw [hullVertices, hull_congr hmem, hullVertices]

end Hull

/-- Only the voxels matter for the axes, not their order or number. -/
theorem axes_congr {voxels voxels' : List Voxel} {d d' : Derived} (hd : Derived.of voxels = .ok d)
    (hd' : Derived.of voxels' = .ok d') (hmem : ∀ v, v ∈ voxels ↔ v ∈ voxels') (hv : v ∈ voxels) :
    d'.axes = d.axes := by
  obtain ⟨-, ⟨rfl, -⟩ | ⟨e, he⟩⟩ := Derived.of_eq_ok hd
  · cases hv
  · rw [he.axes, (Derived.describes_of_isLeast hd' (he.isLeast.congr hmem)).axes]

namespace IsHulled

variable {lines lines' voxels voxels' : List Voxel} {d d' : Derived} {filled : Bool}

/-- The hull of the slice of a voxel has vertices around it, which are lines' voxels too. -/
theorem exists_around (hd : Derived.of lines = .ok d)
    (h : IsHulled d.axes.first filled d.directory voxels) (hv : v ∈ lines) (b : Axis) :
    (∃ w ∈ voxels, w ∈ lines ∧ w.coord d.axes.first = v.coord d.axes.first ∧
      w.coord b ≤ v.coord b) ∧
    ∃ w ∈ voxels, w ∈ lines ∧ w.coord d.axes.first = v.coord d.axes.first ∧
      v.coord b ≤ w.coord b := by
  have hentry := exists_slice_of_mem hd hv
  have hslice := mem_of_mem_directory hd hentry
  have hplace := fun w hw => (hslice w hw).2
  have hmem := (mem_slice_iff hd hentry).2 ⟨hv, rfl⟩
  obtain ⟨traced, htraced, hsub⟩ := h.exists_traced _ hentry (List.ne_nil_of_mem hmem)
  have hvertex := fun w hw =>
    hsub w (htraced.outline_subset w (mem_outlineFill_of_mem (v := w) hw))
  have hline := fun w hw => (hslice w (mem_of_mem_hullVertices hplace hw)).1
  obtain ⟨⟨w, hw, hle⟩, x, hx, hge⟩ := exists_hullVertices_around hplace hmem b
  exact ⟨⟨w, hvertex w hw, hline w hw, coord_hullVertices w hw, hle⟩,
    x, hvertex x hx, hline x hx, coord_hullVertices x hx, hge⟩

/-- The hulls of slices have the extents of the voxels that were sliced. -/
theorem isLeast (hd : Derived.of lines = .ok d)
    (h : IsHulled d.axes.first filled d.directory voxels) (he : e.IsLeast lines) :
    e.IsLeast voxels where
  holds v hv := by
    obtain ⟨entry, hentry, -, traced, htraced, hv⟩ := h.mem_traced v hv
    have hslice := mem_of_mem_directory hd hentry
    refine htraced.holds (fun w hw => he.holds w (hslice w ?_).1) v hv
    exact mem_of_mem_hullVertices (fun x hx => (hslice x hx).2) hw
  low b := by
    obtain ⟨v, hv, hlow⟩ := he.low b
    obtain ⟨w, hw, hline, -, hle⟩ := (h.exists_around hd hv b).1
    have := (he.holds w hline b).1
    exact ⟨w, hw, by omega⟩
  high b := by
    obtain ⟨v, hv, hhigh⟩ := he.high b
    obtain ⟨w, hw, hline, -, hle⟩ := (h.exists_around hd hv b).2
    have := (he.holds w hline b).2
    exact ⟨w, hw, by omega⟩

/-- If the voxels that were sliced pass every coordinate, then no slice of the hulls is empty. -/
theorem ne_nil_of_mem_directory (hd : Derived.of lines = .ok d) (hd' : Derived.of voxels = .ok d')
    (h : IsHulled d.axes.first filled d.directory voxels) (he : e.IsLeast lines)
    (hcoord : ∀ k, e.low.coord d.axes.first ≤ k ∧ k ≤ e.high.coord d.axes.first →
      ∃ v ∈ lines, v.coord d.axes.first = k) : ∀ entry ∈ d'.directory, entry.2 ≠ [] := by
  have haxes := (Derived.describes_of_isLeast hd he).axes
  rw [(Derived.describes_of_isLeast hd' (h.isLeast hd he)).directory, ← haxes]
  intro entry hentry
  obtain ⟨k, hk, rfl⟩ := List.mem_map.1 hentry
  obtain ⟨v, hv, rfl⟩ := hcoord k (mem_coordinatesBetween.1 hk)
  obtain ⟨w, hw, -, hplace, -⟩ := (h.exists_around hd hv d.axes.first).1
  exact List.ne_nil_of_mem (mem_sortedSlice.2 (mem_bucket.2 ⟨hw, hplace⟩))

/-- The outlines of the hulls of slices are part of what is traced of the hulls of the same slices,
filled or not. -/
theorem subset_of_outlines (hd : Derived.of lines = .ok d) (hd' : Derived.of lines' = .ok d')
    (hmem : ∀ v, v ∈ lines ↔ v ∈ lines') (h : IsHulled d.axes.first false d.directory voxels)
    (h' : IsHulled d'.axes.first filled d'.directory voxels') : ∀ v ∈ voxels, v ∈ voxels' := by
  intro v hv
  obtain ⟨entry, hentry, hne, traced, ⟨_, -, rfl⟩, hv⟩ := h.mem_traced v hv
  have hslice : ∀ w, w ∈ entry.2 ↔ w ∈ lines ∧ w.coord d.axes.first = entry.1 :=
    fun _ => mem_slice_iff hd hentry
  obtain ⟨x, hx⟩ := List.exists_mem_of_ne_nil entry.2 hne
  obtain ⟨hline, hplace⟩ := (hslice x).1 hx
  have haxes := axes_congr hd hd' hmem hline
  have hentry' := exists_slice_of_mem hd' ((hmem x).1 hline)
  have hslice' := fun w => mem_slice_iff (v := w) hd' hentry'
  rw [haxes, hplace] at hentry' hslice'
  rw [haxes] at h'
  obtain ⟨traced', htraced', hsub⟩ := h'.exists_traced _ hentry'
    (List.ne_nil_of_mem ((hslice' x).2 ⟨(hmem x).1 hline, hplace⟩))
  have hsame : ∀ w, w ∈ entry.2 ↔ w ∈ sortedSlice d.axes (bucket d.axes entry.1 lines') :=
    fun w => by rw [hslice, hslice', hmem]
  rw [← hullVertices_congr hsame] at htraced'
  exact hsub v (htraced'.outline_subset v hv)

end IsHulled

/-! ## Sections -/

/-- A section between vertices: the hulls of the slices of all lines between them, each voxel
once. -/
structure Loft.IsSection (shell : Bool) (starts finishes : List Voxel) (s : VoxelSet) : Prop where
  isSound : s.IsSound
  nodup : s.absoluteFill.Nodup
  exists_lines : ∃ lines d, AreLines starts finishes lines ∧ Derived.of lines = .ok d ∧
    IsHulled d.axes.first (!shell) d.directory s.absoluteFill

namespace Loft.IsSection

variable {starts finishes : List Voxel} {s t : VoxelSet} {shell : Bool}

/-- A section has the extents of its vertices, and no slice of it is empty. -/
theorem exists_isLeast (h : IsSection shell starts finishes s) (hstarts : starts ≠ [])
    (hfinishes : finishes ≠ []) : ∃ e : Extents, e.IsLeast (starts ++ finishes) ∧
      e.IsLeast s.absoluteFill ∧ ∀ entry ∈ s.derived.directory, entry.2 ≠ [] := by
  obtain ⟨lines, d, hlines, hd, hhulled⟩ := h.exists_lines
  obtain ⟨e, he⟩ := Extents.exists_isLeast (List.append_ne_nil_of_left_ne_nil hstarts finishes)
  have hleast := hlines.isLeast hstarts hfinishes he
  exact ⟨e, he, hhulled.isLeast hd hleast, hhulled.ne_nil_of_mem_directory hd h.isSound.derived
    hleast fun k hk => hlines.exists_coord hstarts hfinishes he hk⟩

/-- A solid section has all lines between its vertices. -/
theorem segment_subset (h : IsSection false starts finishes s) {x y : Voxel} (hx : x ∈ starts)
    (hy : y ∈ finishes) : segment x y ⊆ s.absoluteFill := by
  obtain ⟨lines, d, hlines, hd, hhulled⟩ := h.exists_lines
  exact fun v hv => hhulled.covers hd v ((hlines v).2 ⟨x, hx, y, hy, hv⟩)

/-- A hollow section is part of the section, hollow or solid, between the same vertices. -/
theorem subset_of_shell (h : IsSection true starts finishes s)
    (h' : IsSection shell starts finishes t) : s.absoluteFill ⊆ t.absoluteFill := by
  obtain ⟨lines, d, hlines, hd, hhulled⟩ := h.exists_lines
  obtain ⟨lines', d', hlines', hd', hhulled'⟩ := h'.exists_lines
  exact fun v hv => hhulled.subset_of_outlines hd hd' (fun v => (hlines v).trans (hlines' v).symm)
    hhulled' v hv

end Loft.IsSection
end VoxelAlgebra
