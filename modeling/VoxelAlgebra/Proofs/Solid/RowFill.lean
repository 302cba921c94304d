import VoxelAlgebra.Proofs.Solid.Translation

/-!
# Filled rows

The voxels of a plane vary along two axes: the one that they are sliced by, and another one along
which each slice is sorted. So the outline through a slice is the row from its first voxel to its
last, and filling gives exactly the points between two voxels of a row, whatever the outline of the
voxels is. The filled rows have the extents of the voxels and are sliced by the same axes, so
filling them again adds nothing.

## Main definitions

* `IsInRow` — a point between two voxels of a row.
* `mem_rowFill_iff` — the points of filled rows.
* `isInRow_of_filled`, `axes_of_filled` — filling a second time.
* `Layer.exists_fillRows` — filling a flat layer.
-/

namespace VoxelAlgebra

/-- A point between two voxels that have its coordinate on an axis `a`. -/
def IsInRow (a : Axis) (voxels : List Voxel) (p : Voxel) : Prop :=
  ∃ v ∈ voxels, ∃ w ∈ voxels, v.coord a = p.coord a ∧ p.coord a = w.coord a ∧
    ∀ b, v.coord b ≤ p.coord b ∧ p.coord b ≤ w.coord b

theorem isInRow_of_mem {a : Axis} {voxels : List Voxel} {p : Voxel} (h : p ∈ voxels) :
    IsInRow a voxels p :=
  ⟨p, h, p, h, rfl, rfl, fun _ => ⟨Int.le_refl _, Int.le_refl _⟩⟩

/-- Points between points of rows are points of the same rows. -/
theorem IsInRow.trans {a : Axis} {voxels filled : List Voxel} {p : Voxel}
    (h : IsInRow a filled p) (hfilled : ∀ q ∈ filled, IsInRow a voxels q) : IsInRow a voxels p := by
  obtain ⟨v, hv, w, hw, hvp, hpw, hbetween⟩ := h
  obtain ⟨v', hv', _, _, hvv', -, hlow⟩ := hfilled v hv
  obtain ⟨_, _, w', hw', -, hww', hhigh⟩ := hfilled w hw
  refine ⟨v', hv', w', hw', hvv'.trans hvp, hpw.trans hww', fun b => ?_⟩
  have hlow := (hlow b).1
  have hhigh := (hhigh b).2
  have hbetween := hbetween b
  omega

/-- Where two voxels of a row differ on one axis only, all points between them are in the row. -/
theorem isInRow_of_ends {a m : Axis} {voxels : List Voxel} {s e p : Voxel} (ha : a ≠ m)
    (hs : s ∈ voxels) (he : e ∈ voxels) (hsame : ∀ b, b ≠ m → s.coord b = e.coord b)
    (hle : s.coord m ≤ e.coord m)
    (hbetween : ∀ b, IsBetween (s.coord b) (e.coord b) (p.coord b)) : IsInRow a voxels p := by
  unfold IsBetween at hbetween
  have hrow := hsame a ha
  have hmid := hbetween a
  refine ⟨s, hs, e, he, by omega, by omega, fun b => ?_⟩
  have hb := hbetween b
  rcases eq_or_ne b m with rfl | hne
  · omega
  · have hend := hsame b hne
    omega

theorem Axis.exists_third {b c : Axis} (h : c ≠ b) :
    ∃ m, m ≠ b ∧ ∀ a, a ≠ m → a ≠ b → a = c := by
  cases b <;> cases c
  case x.x | y.y | z.z => exact absurd rfl h
  case x.y | y.x => exact ⟨.z, by decide, fun a => by cases a <;> decide⟩
  case x.z | z.x => exact ⟨.y, by decide, fun a => by cases a <;> decide⟩
  case y.z | z.y => exact ⟨.x, by decide, fun a => by cases a <;> decide⟩

variable {voxels filled : List Voxel} {d d' : Derived} {c : Axis} {k : Int} {p : Voxel}

/-- The voxels of a plane vary along the slicing axis and one other axis only. -/
theorem exists_rowAxis (hd : Derived.of voxels = .ok d) (hflat : ∀ v ∈ voxels, v.coord c = k) :
    ∃ m, m ≠ d.axes.first ∧ ∀ x ∈ voxels, ∀ y ∈ voxels, ∀ a, a ≠ m → a ≠ d.axes.first →
      x.coord a = y.coord a := by
  by_cases hc : c = d.axes.first
  · -- The slicing axis has the largest range, so there is one voxel only.
    subst hc
    refine ⟨d.axes.second, (isOrder_of_derived hd).second_ne_first, ?_⟩
    intro x hx y hy a _ _
    rw [eq_of_first_eq hd hflat hx hy]
  · obtain ⟨m, hm, hthird⟩ := Axis.exists_third hc
    refine ⟨m, hm, ?_⟩
    intro x hx y hy a ham ha
    rw [hthird a ham ha, hflat x hx, hflat y hy]

/-- The filled rows of the voxels of a plane are the points between two voxels of a row. -/
theorem mem_rowFill_iff (hd : Derived.of voxels = .ok d) (hflat : ∀ v ∈ voxels, v.coord c = k) :
    p ∈ rowFill .zero d.directory ↔ IsInRow d.axes.first voxels p := by
  obtain ⟨m, hm, hagree⟩ := exists_rowAxis hd hflat
  constructor
  · intro hp
    obtain ⟨⟨key, slice⟩, hentry, hp⟩ := List.mem_flatMap.1 hp
    simp only [Voxel.sub_zero, List.map_id'] at hp
    obtain ⟨s, hs, e, he, hbetween⟩ := exists_between_vertices hp
    obtain ⟨hsv, hskey⟩ := mem_of_mem_directory hd hentry s hs
    obtain ⟨hev, hekey⟩ := mem_of_mem_directory hd hentry e he
    have hsame (a : Axis) (ha : a ≠ m) : s.coord a = e.coord a := by
      by_cases hfirst : a = d.axes.first
      · rw [hfirst, hskey, hekey]
      · exact hagree s hsv e hev a ha hfirst
    -- The row axis tells which of the two ends is the first one.
    rcases Int.le_total (s.coord m) (e.coord m) with hle | hle
    · exact isInRow_of_ends hm.symm hsv hev hsame hle hbetween
    · exact isInRow_of_ends hm.symm hev hsv (fun a ha => (hsame a ha).symm) hle
        fun a => (hbetween a).symm
  · rintro ⟨v, hv, w, hw, hvp, hpw, hbetween⟩
    refine mem_rowFill hd hm ?_ hv hw hvp hpw.symm (hbetween m).1 (hbetween m).2
    intro a ha hfirst x hx
    have hxv := hagree x hx v hv a ha hfirst
    have hxw := hagree x hx w hw a ha hfirst
    have := hbetween a
    omega

/-! ## Filling again -/

/-- Voxels with the points of their rows have the extents of the voxels. -/
theorem Extents.IsLeast.of_filled {e : Extents} {a : Axis} (h : e.IsLeast voxels)
    (hfilled : ∀ q, q ∈ filled ↔ IsInRow a voxels q) : e.IsLeast filled := by
  refine h.of_subset (fun v hv => (hfilled v).2 (isInRow_of_mem hv)) fun q hq b => ?_
  obtain ⟨v, hv, w, hw, -, -, hbetween⟩ := (hfilled q).1 hq
  have hlow := (h.holds v hv b).1
  have hhigh := (h.holds w hw b).2
  have := hbetween b
  omega

/-- Filled rows are sliced by the same axes as the voxels. -/
theorem axes_of_filled (hd : Derived.of voxels = .ok d) (hd' : Derived.of filled = .ok d')
    (hfilled : ∀ q, q ∈ filled ↔ IsInRow d.axes.first voxels q) : d'.axes = d.axes := by
  obtain ⟨-, ⟨rfl, rfl⟩ | ⟨e, he⟩⟩ := Derived.of_eq_ok hd
  · have hnil : filled = [] := by
      refine List.eq_nil_iff_forall_not_mem.2 fun q hq => ?_
      obtain ⟨v, hv, -⟩ := (hfilled q).1 hq
      cases hv
    subst hnil
    cases hd'
    rfl
  · rw [he.axes, (Derived.describes_of_isLeast hd' (he.isLeast.of_filled hfilled)).axes]

theorem isInRow_of_filled {a : Axis} (hfilled : ∀ q, q ∈ filled ↔ IsInRow a voxels q) :
    IsInRow a filled p ↔ IsInRow a voxels p :=
  ⟨fun h => h.trans fun q hq => (hfilled q).1 hq,
    fun h => isInRow_of_mem ((hfilled p).2 h)⟩

/-! ## Layers -/

/-- Rows that are filled relative to an origin are the filled rows, wherever the origin is. -/
theorem map_add_rowFill (o : Voxel) (directory : Directory Voxel) :
    (rowFill o directory).map (· + o) = rowFill .zero directory := by
  simp only [rowFill, List.map_flatMap, ← outlineFill_add, List.map_map, Function.comp_def,
    Voxel.sub_add_cancel, Voxel.sub_zero]

namespace Layer

/-- A live layer whose slices are those of voxels of a plane can be filled. It then has every point
between two of these voxels of a row once, and is sliced by the same axes as before. -/
theorem exists_fillRows {l : Layer} (i : Issuer) (hlive : l.base.isDeleted = false)
    (hknown : Derived.of voxels = .ok l.base.derived)
    (hrange : ∀ v ∈ voxels, (v - l.base.origin).InRange) (hflat : ∀ v ∈ voxels, v.coord c = k) :
    ∃ base i', fillPolygon (i, l) = .ok () (i', { l with base }) ∧ base.IsSound ∧
      (∀ v ∈ base.fill, v.InRange) ∧ base.derived.axes = l.base.derived.axes ∧
      base.absoluteFill.Nodup ∧
      ∀ p, p ∈ base.absoluteFill ↔ IsInRow l.base.derived.axes.first voxels p := by
  obtain ⟨base, i', hrun, -, hsound, -, horigin, hfill⟩ :=
    exists_fillPolygon (Issuer.Owns.of_inUse i) hlive hknown hrange
  have habsolute : base.absoluteFill =
      Voxel.distinct (rowFill .zero l.base.derived.directory) := by
    rw [VoxelSet.absoluteFill, hfill, horigin, ← Voxel.distinct_add, map_add_rowFill]
  have hmem (p : Voxel) :
      p ∈ base.absoluteFill ↔ IsInRow l.base.derived.axes.first voxels p := by
    rw [habsolute, Voxel.mem_distinct, mem_rowFill_iff hknown hflat]
  refine ⟨base, i', hrun, hsound, ?_, axes_of_filled hknown hsound.derived hmem, ?_, hmem⟩
  · intro v hv
    rw [hfill, Voxel.mem_distinct] at hv
    obtain ⟨entry, hentry, hv⟩ := List.mem_flatMap.1 hv
    refine inRange_outlineFill (List.forall_mem_map.2 fun x hx => ?_) v hv
    exact hrange x (mem_of_mem_directory hknown hentry x hx).1
  · rw [habsolute]
    exact Voxel.nodup_distinct _

end Layer

end VoxelAlgebra
