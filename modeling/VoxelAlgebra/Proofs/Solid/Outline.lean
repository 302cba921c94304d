import VoxelAlgebra.Proofs.Grid.Hull
import VoxelAlgebra.Proofs.Grid.Segment
import VoxelAlgebra.Proofs.Solid.VoxelSet
import VoxelAlgebra.Solid.Loft

/-!
# Outlines and what they enclose

An outline consists of the segments between neighbouring vertices. A point that is on the same side
of all edges, with vertices around it, has voxels of the outline on both sides in its row: one on an
edge that ascends through the row, one on an edge that descends. Filling the rows of an outline
therefore covers everything that it encloses, in particular the points of which it is the hull.

## Main definitions

* `mem_outlineFill` — the voxels of an outline.
* `exists_row_ends` — voxels of an outline on both sides of a point.
* `rowFill`, `mem_rowFill` — the filled rows of an outline.
* `mem_rowFill_hull` — the filled hull of a slice covers the slice.
-/

namespace VoxelAlgebra

/-! ## Neighbours in a closed list -/

section Closed

variable {α : Type*} {l : List α} {a b : α}

theorem mem_zip_append_iff (x e : α) (t : List α) :
    (a, b) ∈ (x :: t).zip (t ++ [e]) ↔ [a, b] <:+: x :: (t ++ [e]) := by
  induction t generalizing x with
  | nil => simp [List.infix_cons_iff]
  | cons y t ih =>
    rw [List.cons_append, List.zip_cons_cons, List.mem_cons, ih, List.infix_cons_iff (a := x),
      List.cons_prefix_cons, List.cons_prefix_cons]
    simp

/-- The pairs of neighbours in a closed list. -/
theorem mem_zip_closed : (a, b) ∈ l.zip (l.tail ++ l.take 1) ↔ [a, b] <:+: closed l := by
  cases l with
  | nil => simp [closed]
  | cons x t => exact mem_zip_append_iff x x t

theorem mem_closed : a ∈ closed l ↔ a ∈ l := by
  rw [closed, List.mem_append]
  exact ⟨fun h => h.elim id List.mem_of_mem_take, .inl⟩

theorem exists_infix_closed (h : a ∈ l) : ∃ b, [a, b] <:+: closed l := by
  obtain ⟨s, t, rfl⟩ := List.append_of_mem h
  obtain ⟨b, u, hu⟩ : ∃ b u, t ++ (s ++ a :: t).take 1 = b :: u := by
    refine List.exists_cons_of_ne_nil fun hnil => ?_
    have := congrArg List.length hnil
    simp at this
  exact ⟨b, s, u, by simp [closed, hu]⟩

/-- A closed list that is partly within a set enters it and leaves it. -/
theorem exists_crossings_of_head {P : α → Prop} {x y : α} (hx : l.head? = some x) (hP : P x)
    (hy : y ∈ l) (hn : ¬ P y) :
    (∃ b c, [b, c] <:+: closed l ∧ P b ∧ ¬ P c) ∧ ∃ b c, [b, c] <:+: closed l ∧ ¬ P b ∧ P c := by
  obtain ⟨t, rfl⟩ := List.head?_eq_some_iff.1 hx
  have hclosed : closed (x :: t) = x :: (t ++ [x]) := rfl
  constructor
  · exact exists_leaving (l := closed (x :: t)) rfl hP (mem_closed.2 hy) hn
  · obtain ⟨s, u, hsu⟩ := List.append_of_mem hy
    have hsuffix : y :: (u ++ [x]) <:+ closed (x :: t) :=
      ⟨s, by rw [closed, List.take_succ_cons, List.take_zero, hsu]; simp⟩
    obtain ⟨b, c, hbc, hb, hc⟩ := exists_leaving (P := fun z => ¬ P z) (l := y :: (u ++ [x])) rfl hn
      (y := x) (by simp) (not_not.2 hP)
    exact ⟨b, c, hbc.trans hsuffix.isInfix, hb, not_not.1 hc⟩

theorem exists_crossings {P : α → Prop} {x y : α} (hx : x ∈ l) (hP : P x) (hy : y ∈ l)
    (hn : ¬ P y) :
    (∃ b c, [b, c] <:+: closed l ∧ P b ∧ ¬ P c) ∧ ∃ b c, [b, c] <:+: closed l ∧ ¬ P b ∧ P c := by
  obtain ⟨h, hh⟩ := Option.isSome_iff_exists.1 (List.isSome_head?.2 (List.ne_nil_of_mem hx))
  by_cases hPh : P h
  · exact exists_crossings_of_head hh hPh hy hn
  · obtain ⟨hleave, henter⟩ :=
      exists_crossings_of_head (P := fun z => ¬ P z) hh hPh hx (not_not.2 hP)
    simp only [not_not] at hleave henter
    exact ⟨henter, hleave⟩

end Closed

/-! ## The voxels of an outline -/

theorem mem_outline {vertices path : List Voxel} :
    path ∈ outline vertices ↔ ∃ s e, [s, e] <:+: closed vertices ∧ segment s e = path := by
  rw [outline, ← List.map_uncurry_zip_eq_zipWith, List.mem_map]
  simp only [Prod.exists, mem_zip_closed, Function.uncurry]

/-- The elements of a list are its two ends and what is between them. -/
theorem mem_iff_of_ends {α : Type*} {l : List α} {a z v : α} (ha : l.head? = some a)
    (hz : l.getLast? = some z) : v ∈ l ↔ v = a ∨ v = z ∨ v ∈ l.tail.dropLast := by
  obtain ⟨t, rfl⟩ := List.head?_eq_some_iff.1 ha
  cases List.eq_nil_or_concat t with
  | inl ht =>
    subst ht
    obtain rfl := Option.some.inj hz
    simp
  | inr ht =>
    obtain ⟨u, b, rfl⟩ := ht
    rw [List.concat_eq_append, ← List.cons_append, List.getLast?_concat] at hz
    obtain rfl := Option.some.inj hz
    simp only [List.concat_eq_append, List.tail_cons, List.dropLast_concat, List.mem_cons,
      List.mem_append, List.not_mem_nil, or_false]
    tauto

/-- The voxels of an outline are those of the segments between neighbouring vertices. -/
theorem mem_outlineFill {vertices : List Voxel} {v : Voxel} : v ∈ outlineFill vertices ↔
    ∃ s e, [s, e] <:+: closed vertices ∧ v ∈ segment s e := by
  have hends : ∀ s e, v ∈ segment s e ↔ v = s ∨ v = e ∨ v ∈ (segment s e).tail.dropLast :=
    fun s e => mem_iff_of_ends (head?_segment s e) (getLast?_segment s e)
  simp only [outlineFill, Voxel.mem_distinct, List.mem_append, List.mem_flatMap, mem_outline]
  constructor
  · rintro (⟨_, ⟨s, e, hse, rfl⟩, hv⟩ | hv)
    · exact ⟨s, e, hse, (hends s e).2 (.inr (.inr hv))⟩
    · obtain ⟨w, hvw⟩ := exists_infix_closed hv
      exact ⟨v, w, hvw, start_mem_segment v w⟩
  · rintro ⟨s, e, hse, hv⟩
    obtain rfl | rfl | hv := (hends s e).1 hv
    · exact .inr (mem_closed.1 (hse.subset (by simp)))
    · exact .inr (mem_closed.1 (hse.subset (by simp)))
    · exact .inl ⟨_, ⟨s, e, hse, rfl⟩, hv⟩

theorem mem_outlineFill_of_mem {vertices : List Voxel} {v : Voxel} (h : v ∈ vertices) :
    v ∈ outlineFill vertices := by
  obtain ⟨w, hvw⟩ := exists_infix_closed h
  exact mem_outlineFill.2 ⟨v, w, hvw, start_mem_segment v w⟩

/-- A voxel of an outline is between two vertices on every axis. -/
theorem exists_between_vertices {vertices : List Voxel} {v : Voxel} (h : v ∈ outlineFill vertices) :
    ∃ s ∈ vertices, ∃ e ∈ vertices, ∀ a, IsBetween (s.coord a) (e.coord a) (v.coord a) := by
  obtain ⟨s, e, hse, hv⟩ := mem_outlineFill.1 h
  exact ⟨s, mem_closed.1 (hse.subset (by simp)), e, mem_closed.1 (hse.subset (by simp)),
    isBetween_of_mem_segment hv⟩

theorem inRange_of_isBetween {s e v : Voxel} (hs : s.InRange) (he : e.InRange)
    (h : ∀ a, IsBetween (s.coord a) (e.coord a) (v.coord a)) : v.InRange := by
  have hx := h .x
  have hy := h .y
  have hz := h .z
  simp only [IsBetween, Voxel.coord] at hx hy hz
  simp only [Voxel.InRange, InInt64] at *
  omega

theorem inRange_outlineFill {vertices : List Voxel} (h : ∀ v ∈ vertices, v.InRange) :
    ∀ v ∈ outlineFill vertices, v.InRange := by
  intro v hv
  obtain ⟨s, hs, e, he, hbetween⟩ := exists_between_vertices hv
  exact inRange_of_isBetween (h s hs) (h e he) hbetween

/-- An outline stays in a plane that has all vertices. -/
theorem coord_outlineFill {vertices : List Voxel} {a : Axis} {k : Int}
    (h : ∀ v ∈ vertices, v.coord a = k) : ∀ v ∈ outlineFill vertices, v.coord a = k := by
  intro v hv
  obtain ⟨s, hs, e, he, hbetween⟩ := exists_between_vertices hv
  have hs := h s hs
  have he := h e he
  have := hbetween a
  unfold IsBetween at this
  omega

/-! ## Both sides of a point -/

/-- A point is on one side of all edges of an outline in the plane of two axes. -/
def IsOneSided (b c : Axis) (vertices : List Voxel) (p : Voxel) : Prop :=
  (∀ s e, [s, e] <:+: closed vertices → side b c s e p ≤ 0) ∨
    ∀ s e, [s, e] <:+: closed vertices → 0 ≤ side b c s e p

/-- An ascending and a descending edge through the row of a point have voxels on both sides of the
point. -/
theorem exists_row_ends_of_edges {b c : Axis} {vertices : List Voxel} {p s e s' e' : Voxel}
    (hside : IsOneSided b c vertices p) (hup : [s, e] <:+: closed vertices)
    (hdown : [s', e'] <:+: closed vertices)
    (hlt : s.coord b < e.coord b) (hs : s.coord b ≤ p.coord b) (he : p.coord b ≤ e.coord b)
    (hgt : e'.coord b < s'.coord b) (he' : e'.coord b ≤ p.coord b)
    (hs' : p.coord b ≤ s'.coord b) :
    ∃ v ∈ outlineFill vertices, ∃ w ∈ outlineFill vertices, v.coord b = p.coord b ∧
      w.coord b = p.coord b ∧ v.coord c ≤ p.coord c ∧ p.coord c ≤ w.coord c := by
  have hup₀ : 0 ≤ e.coord b - s.coord b := by omega
  have hdown₀ : e'.coord b - s'.coord b ≤ 0 := by omega
  have hbetween : IsBetween (s.coord b) (e.coord b) (p.coord b) := .inl ⟨hs, he⟩
  have hbetween' : IsBetween (s'.coord b) (e'.coord b) (p.coord b) := .inr ⟨he', hs'⟩
  obtain hside | hside := hside
  · obtain ⟨w, hw, hwb, hwc⟩ := exists_ge_mem_segment (c := c) (by omega) hbetween
      (mul_nonpos_of_nonpos_of_nonneg (hside s e hup) hup₀)
    obtain ⟨v, hv, hvb, hvc⟩ := exists_le_mem_segment (c := c) (by omega) hbetween'
      (mul_nonneg_of_nonpos_of_nonpos (hside s' e' hdown) hdown₀)
    exact ⟨v, mem_outlineFill.2 ⟨s', e', hdown, hv⟩, w, mem_outlineFill.2 ⟨s, e, hup, hw⟩, hvb, hwb,
      hvc, hwc⟩
  · obtain ⟨v, hv, hvb, hvc⟩ := exists_le_mem_segment (c := c) (by omega) hbetween
      (mul_nonneg (hside s e hup) hup₀)
    obtain ⟨w, hw, hwb, hwc⟩ := exists_ge_mem_segment (c := c) (by omega) hbetween'
      (mul_nonpos_of_nonneg_of_nonpos (hside s' e' hdown) hdown₀)
    exact ⟨v, mem_outlineFill.2 ⟨s, e, hup, hv⟩, w, mem_outlineFill.2 ⟨s', e', hdown, hw⟩, hvb, hwb,
      hvc, hwc⟩

/-- A point on one side of all edges, with vertices around it, has voxels of the outline on both
sides in its row. -/
theorem exists_row_ends {b c : Axis} {vertices : List Voxel} {p : Voxel}
    (hside : IsOneSided b c vertices p)
    (hb : (∃ v ∈ vertices, v.coord b ≤ p.coord b) ∧ ∃ v ∈ vertices, p.coord b ≤ v.coord b)
    (hc : (∃ v ∈ vertices, v.coord c ≤ p.coord c) ∧ ∃ v ∈ vertices, p.coord c ≤ v.coord c) :
    ∃ v ∈ outlineFill vertices, ∃ w ∈ outlineFill vertices, v.coord b = p.coord b ∧
      w.coord b = p.coord b ∧ v.coord c ≤ p.coord c ∧ p.coord c ≤ w.coord c := by
  obtain ⟨⟨low, hlow, hlowb⟩, high, hhigh, hhighb⟩ := hb
  by_cases habove : ∃ y ∈ vertices, p.coord b < y.coord b
  · obtain ⟨y, hy, hyb⟩ := habove
    obtain ⟨⟨s, e, hup, hs, he⟩, s', e', hdown, hs', he'⟩ :=
      exists_crossings (P := fun v => v.coord b ≤ p.coord b) hlow hlowb hy (by omega)
    exact exists_row_ends_of_edges hside hup hdown (by omega) hs (by omega) (by omega) he'
      (by omega)
  by_cases hbelow : ∃ x ∈ vertices, x.coord b < p.coord b
  · obtain ⟨x, hx, hxb⟩ := hbelow
    obtain ⟨⟨s, e, hup, hs, he⟩, s', e', hdown, hs', he'⟩ :=
      exists_crossings (P := fun v => v.coord b < p.coord b) hx hxb hhigh (by omega)
    exact exists_row_ends_of_edges hside hup hdown (by omega) (by omega) (by omega) (by omega)
      (by omega) (by omega)
  · -- All vertices are in the row of the point.
    push Not at habove hbelow
    obtain ⟨⟨v, hv, hvc⟩, w, hw, hwc⟩ := hc
    refine ⟨v, mem_outlineFill_of_mem hv, w, mem_outlineFill_of_mem hw, ?_, ?_, hvc, hwc⟩
    · exact Int.le_antisymm (habove v hv) (hbelow v hv)
    · exact Int.le_antisymm (habove w hw) (hbelow w hw)

/-! ## Rows -/

/-- A segment along one axis has all points between its ends. -/
theorem mem_segment_of_straight {s e p : Voxel} {c : Axis}
    (h : ∀ a, a ≠ c → s.coord a = p.coord a ∧ e.coord a = p.coord a)
    (hc : IsBetween (s.coord c) (e.coord c) (p.coord c)) : p ∈ segment s e := by
  by_cases hse : s.coord c = e.coord c
  · have hp : p = s := Voxel.ext_coord fun a => by
      by_cases ha : a = c
      · unfold IsBetween at hc
        rw [ha]
        omega
      · exact (h a ha).1.symm
    exact hp ▸ start_mem_segment s e
  · obtain ⟨v, hv, hvc, -⟩ := exists_mem_segment_near c hse hc
    have hp : p = v := Voxel.ext_coord fun a => by
      by_cases ha : a = c
      · rw [ha, hvc]
      · obtain ⟨hs, he⟩ := h a ha
        have := isBetween_of_mem_segment hv a
        unfold IsBetween at this
        omega
    exact hp ▸ hv

/-- The filled slices of a directory, relative to an origin. -/
def rowFill (origin : Voxel) (directory : Directory Voxel) : List Voxel :=
  directory.flatMap fun e => outlineFill (e.2.map (· - origin))

/-- The slice of a voxel. -/
theorem exists_slice_of_mem {voxels : List Voxel} {d : Derived} (hd : Derived.of voxels = .ok d)
    {v : Voxel} (hv : v ∈ voxels) :
    (v.coord d.axes.first, sortedSlice d.axes (bucket d.axes (v.coord d.axes.first) voxels)) ∈
      d.directory := by
  obtain ⟨-, ⟨rfl, -⟩ | ⟨e, he⟩⟩ := Derived.of_eq_ok hd
  · cases hv
  · rw [he.directory, he.axes]
    exact List.mem_map_of_mem (mem_coordinatesBetween.2 (he.isLeast.holds v hv _))

/-- What a slice of a directory has. -/
theorem mem_slice_iff {voxels : List Voxel} {d : Derived} (hd : Derived.of voxels = .ok d)
    {entry : Int × List Voxel} (hentry : entry ∈ d.directory) {v : Voxel} :
    v ∈ entry.2 ↔ v ∈ voxels ∧ v.coord d.axes.first = entry.1 := by
  obtain ⟨-, ⟨-, rfl⟩ | ⟨e, he⟩⟩ := Derived.of_eq_ok hd
  · cases hentry
  · rw [he.directory, ← he.axes] at hentry
    obtain ⟨k, -, rfl⟩ := List.mem_map.1 hentry
    rw [mem_sortedSlice, mem_bucket]

theorem mem_of_mem_directory {voxels : List Voxel} {d : Derived} (hd : Derived.of voxels = .ok d)
    {entry : Int × List Voxel} (hentry : entry ∈ d.directory) :
    ∀ v ∈ entry.2, v ∈ voxels ∧ v.coord d.axes.first = entry.1 :=
  fun _ => (mem_slice_iff hd hentry).1

theorem isOrder_of_derived {voxels : List Voxel} {d : Derived} (hd : Derived.of voxels = .ok d) :
    d.axes.IsOrder := by
  obtain ⟨-, ⟨-, rfl⟩ | ⟨e, he⟩⟩ := Derived.of_eq_ok hd
  · intro a
    cases a <;> decide
  · exact he.axes ▸ AxisOrder.isOrder_byDecreasing e.range

theorem pairLe_refl (p : Int × Int) : pairLe p p := pairLe_iff.2 (.inr ⟨rfl, Int.le_refl _⟩)

/-- The closing edge of a slice runs from its last voxel to its first. -/
theorem exists_slice_ends (o : AxisOrder) {voxels : List Voxel} (hne : voxels ≠ []) :
    ∃ f ∈ voxels, ∃ l ∈ voxels, [l, f] <:+: closed (sortedSlice o voxels) ∧
      ∀ x ∈ voxels,
        pairLe (sliceKey o f) (sliceKey o x) ∧ pairLe (sliceKey o x) (sliceKey o l) := by
  have hsorted := pairwise_sortedSlice o voxels
  have hmem : ∀ x, x ∈ sortedSlice o voxels ↔ x ∈ voxels := fun _ => mem_sortedSlice
  have hne := sortedSlice_ne_nil (o := o) hne
  generalize sortedSlice o voxels = sorted at hsorted hmem hne
  refine ⟨sorted.head hne, (hmem _).1 (List.head_mem hne), sorted.getLast hne,
    (hmem _).1 (List.getLast_mem hne), ⟨sorted.dropLast, [], ?_⟩, fun x hx => ⟨?_, ?_⟩⟩
  · have htake : sorted.take 1 = [sorted.head hne] := by
      cases sorted with
      | nil => exact absurd rfl hne
      | cons f t => rfl
    calc sorted.dropLast ++ [sorted.getLast hne, sorted.head hne] ++ []
        = (sorted.dropLast ++ [sorted.getLast hne]) ++ [sorted.head hne] := by simp
      _ = closed sorted := by rw [List.dropLast_concat_getLast, closed, htake]
  · obtain ⟨f, t, rfl⟩ := List.exists_cons_of_ne_nil hne
    obtain rfl | hx := List.mem_cons.1 ((hmem x).2 hx)
    · exact pairLe_refl _
    · exact (List.pairwise_cons.1 hsorted).1 x hx
  · have hlast := List.dropLast_concat_getLast hne
    rw [← hlast] at hsorted
    have hx := (hmem x).2 hx
    rw [← hlast] at hx
    obtain hx | hx := List.mem_append.1 hx
    · exact (List.pairwise_append.1 hsorted).2.2 x hx _ List.mem_cons_self
    · rw [List.mem_singleton.1 hx]
      exact pairLe_refl _

/-- Of two keys the one that is not greater is so on each axis on which the keys can differ. -/
theorem coord_le_of_pairLe {o : AxisOrder} (ho : o.IsOrder) {v w : Voxel} {c : Axis}
    (hc : c ≠ o.first) (h : pairLe (sliceKey o v) (sliceKey o w))
    (hflat : ∀ a, a ≠ c → a ≠ o.first → v.coord a = w.coord a) : v.coord c ≤ w.coord c := by
  rw [pairLe_iff] at h
  simp only [sliceKey] at h
  obtain rfl | rfl | rfl := ho c
  · exact absurd rfl hc
  · omega
  · by_cases hst : o.second = o.third
    · rw [hst] at h
      omega
    · have := hflat o.second hst ho.second_ne_first
      omega

/-- The filled rows of voxels that vary along two axes only have all points between two voxels of
one row. -/
theorem mem_rowFill {voxels : List Voxel} {d : Derived} (hd : Derived.of voxels = .ok d)
    {p v w : Voxel} {c : Axis} (hc : c ≠ d.axes.first)
    (hflat : ∀ a, a ≠ c → a ≠ d.axes.first → ∀ x ∈ voxels, x.coord a = p.coord a)
    (hv : v ∈ voxels) (hw : w ∈ voxels) (hvrow : v.coord d.axes.first = p.coord d.axes.first)
    (hwrow : w.coord d.axes.first = p.coord d.axes.first) (hvp : v.coord c ≤ p.coord c)
    (hpw : p.coord c ≤ w.coord c) : p ∈ rowFill .zero d.directory := by
  have ho : d.axes.IsOrder := isOrder_of_derived hd
  have hvb := mem_bucket.2 ⟨hv, hvrow⟩
  have hwb := mem_bucket.2 ⟨hw, hwrow⟩
  obtain ⟨f, hf, l, hl, hfl, hends⟩ := exists_slice_ends d.axes (List.ne_nil_of_mem hvb)
  have hagree : ∀ x ∈ bucket d.axes (p.coord d.axes.first) voxels, ∀ a, a ≠ c →
      x.coord a = p.coord a := by
    intro x hx a ha
    obtain ⟨hxv, hrow⟩ := mem_bucket.1 hx
    by_cases hfirst : a = d.axes.first
    · rw [hfirst, hrow]
    · exact hflat a ha hfirst x hxv
  have hle : ∀ x ∈ bucket d.axes (p.coord d.axes.first) voxels,
      ∀ y ∈ bucket d.axes (p.coord d.axes.first) voxels,
      pairLe (sliceKey d.axes x) (sliceKey d.axes y) → x.coord c ≤ y.coord c :=
    fun x hx y hy hxy => coord_le_of_pairLe ho hc hxy fun a ha _ =>
      (hagree x hx a ha).trans (hagree y hy a ha).symm
  have hfv := hle f hf v hvb (hends v hvb).1
  have hwl := hle w hwb l hl (hends w hwb).2
  have hp : p ∈ outlineFill (sortedSlice d.axes (bucket d.axes (p.coord d.axes.first) voxels)) :=
    mem_outlineFill.2 ⟨l, f, hfl, mem_segment_of_straight
      (fun a ha => ⟨hagree l hl a ha, hagree f hf a ha⟩) (.inr ⟨by omega, by omega⟩)⟩
  have hentry := exists_slice_of_mem hd hv
  rw [hvrow] at hentry
  refine List.mem_flatMap.2 ⟨_, hentry, ?_⟩
  simpa [Voxel.sub_zero] using hp

theorem subset_rowFill {voxels : List Voxel} {d : Derived} (hd : Derived.of voxels = .ok d)
    {v : Voxel} (hv : v ∈ voxels) : v ∈ rowFill .zero d.directory := by
  refine List.mem_flatMap.2 ⟨_, exists_slice_of_mem hd hv, ?_⟩
  simpa [Voxel.sub_zero] using
    mem_outlineFill_of_mem (mem_sortedSlice.2 (mem_bucket.2 ⟨hv, rfl⟩))

/-! ## Hulls of slices -/

namespace Axis

def planeU : Axis → Axis
  | x => y
  | y => x
  | z => x

def planeV : Axis → Axis
  | x => z
  | y => z
  | z => y

theorem eq_or_plane (a b : Axis) : b = a ∨ b = a.planeU ∨ b = a.planeV := by
  cases a <;> cases b <;> decide

theorem planeU_ne_planeV (a : Axis) : a.planeU ≠ a.planeV := by
  cases a <;> decide

end Axis

section Plane

variable (a : Axis) (k : Int) (q : PlanePoint) (v : Voxel)

@[simp] theorem coord_liftAlong : (liftAlong a k q).coord a = k := by
  cases a <;> rfl

@[simp] theorem coord_liftAlong_planeU : (liftAlong a k q).coord a.planeU = q.u := by
  cases a <;> rfl

@[simp] theorem coord_liftAlong_planeV : (liftAlong a k q).coord a.planeV = q.v := by
  cases a <;> rfl

@[simp] theorem projectAlong_u : (projectAlong a v).u = v.coord a.planeU := by
  cases a <;> rfl

@[simp] theorem projectAlong_v : (projectAlong a v).v = v.coord a.planeV := by
  cases a <;> rfl

theorem side_planeV (s e : PlanePoint) (p : Voxel) :
    side a.planeV a.planeU (liftAlong a k s) (liftAlong a k e) p =
      orientation s e (projectAlong a p) := by
  simp only [side, orientation, coord_liftAlong_planeU, coord_liftAlong_planeV, projectAlong_u,
    projectAlong_v]
  ring

theorem side_planeU (s e : PlanePoint) (p : Voxel) :
    side a.planeU a.planeV (liftAlong a k s) (liftAlong a k e) p =
      -orientation s e (projectAlong a p) := by
  simp only [side, orientation, coord_liftAlong_planeU, coord_liftAlong_planeV, projectAlong_u,
    projectAlong_v]
  ring

end Plane

section Hull

variable {a : Axis} {k : Int} {slice : List Voxel} {p : Voxel}

theorem coord_hullVertices : ∀ v ∈ hullVertices a k slice, v.coord a = k := by
  intro v hv
  obtain ⟨q, -, rfl⟩ := List.mem_map.1 hv
  exact coord_liftAlong a k q

theorem closed_hullVertices :
    closed (hullVertices a k slice) =
      (closed (hull (slice.map (projectAlong a)))).map (liftAlong a k) := by
  rw [closed, closed, hullVertices, List.map_append, List.map_take]

/-- The edges of the hull of a slice, seen from a voxel of the slice. -/
theorem orientation_of_infix {R : Voxel → Voxel → Prop} (hp : p ∈ slice)
    (hR : ∀ s e, orientation s e (projectAlong a p) ≤ 0 → R (liftAlong a k s) (liftAlong a k e))
    {s e : Voxel} (hse : [s, e] <:+: closed (hullVertices a k slice)) : R s e := by
  have hencloses := encloses_closed_hull (slice.map (projectAlong a))
  have hchain : (closed (hullVertices a k slice)).IsChain R := by
    rw [closed_hullVertices, List.isChain_map]
    exact hencloses.imp fun s e hse => hR s e (hse _ (List.mem_map_of_mem hp))
  have hedge := List.IsChain.infix hchain hse
  exact List.isChain_pair.1 hedge

theorem isOneSided_planeV (hp : p ∈ slice) :
    IsOneSided a.planeV a.planeU (hullVertices a k slice) p :=
  .inl fun _ _ => orientation_of_infix (R := fun s e => side a.planeV a.planeU s e p ≤ 0) hp
    fun s e h => (side_planeV a k s e p).trans_le h

theorem isOneSided_planeU (hp : p ∈ slice) :
    IsOneSided a.planeU a.planeV (hullVertices a k slice) p :=
  .inr fun _ _ => orientation_of_infix (R := fun s e => 0 ≤ side a.planeU a.planeV s e p) hp
    fun s e h => (neg_nonneg.2 h).trans_eq (side_planeU a k s e p).symm

/-- The hull of a slice has vertices around each of its voxels. -/
theorem exists_hullVertices (hp : p ∈ slice) :
    ((∃ v ∈ hullVertices a k slice, v.coord a.planeU ≤ p.coord a.planeU) ∧
      ∃ v ∈ hullVertices a k slice, p.coord a.planeU ≤ v.coord a.planeU) ∧
    ((∃ v ∈ hullVertices a k slice, v.coord a.planeV ≤ p.coord a.planeV) ∧
      ∃ v ∈ hullVertices a k slice, p.coord a.planeV ≤ v.coord a.planeV) := by
  have hlift : ∀ {q}, q ∈ hull (slice.map (projectAlong a)) →
      liftAlong a k q ∈ hullVertices a k slice := List.mem_map_of_mem
  obtain ⟨⟨b, hb, hbu⟩, ⟨c, hc, hcu⟩, ⟨d, hd, hdv⟩, e, he, hev⟩ :=
    exists_hull_corners (List.mem_map_of_mem (f := projectAlong a) hp)
  exact ⟨⟨⟨_, hlift hb, by simpa using hbu⟩, _, hlift hc, by simpa using hcu⟩,
    ⟨_, hlift hd, by simpa using hdv⟩, _, hlift he, by simpa using hev⟩

/-- In a slice, a row axis that is the slicing axis means that there is one voxel only. -/
theorem eq_of_first_eq {voxels : List Voxel} {d : Derived} (hd : Derived.of voxels = .ok d)
    (hflat : ∀ x ∈ voxels, x.coord d.axes.first = k) {v w : Voxel} (hv : v ∈ voxels)
    (hw : w ∈ voxels) : v = w := by
  obtain ⟨-, ⟨rfl, -⟩ | ⟨e, he⟩⟩ := Derived.of_eq_ok hd
  · cases hv
  · obtain ⟨x, hx, hlow⟩ := he.isLeast.low d.axes.first
    obtain ⟨y, hy, hhigh⟩ := he.isLeast.high d.axes.first
    have hxk := hflat x hx
    have hyk := hflat y hy
    refine Voxel.ext_coord fun b => ?_
    have hsize := AxisOrder.size_le_first e.range b
    rw [← Extents.axisOrder, ← he.axes] at hsize
    have hvb := he.isLeast.holds v hv b
    have hwb := he.isLeast.holds w hw b
    unfold Extents.range at hsize
    omega

/-- The filled hull of a slice covers the slice. -/
theorem mem_rowFill_hull {d : Derived}
    (hd : Derived.of (outlineFill (hullVertices a k slice)) = .ok d)
    (hslice : ∀ v ∈ slice, v.coord a = k) (hp : p ∈ slice) : p ∈ rowFill .zero d.directory := by
  have hvertices : ∀ v ∈ hullVertices a k slice, v.coord a = k := coord_hullVertices
  have hflat := coord_outlineFill hvertices
  have hpa := hslice p hp
  obtain ⟨hcu, hcv⟩ := exists_hullVertices (a := a) (k := k) hp
  obtain hfirst | hfirst | hfirst := a.eq_or_plane d.axes.first
  · obtain ⟨v, hv, w, hw, hvu, -, hvv, hwv⟩ := exists_row_ends (isOneSided_planeU hp) hcu hcv
    have hvw := eq_of_first_eq (k := k) hd (fun x hx => by rw [hfirst, hflat x hx]) hv hw
    have hpv : p = v := Voxel.ext_coord fun b => by
      obtain rfl | rfl | rfl := a.eq_or_plane b
      · rw [hpa, hflat v hv]
      · exact hvu.symm
      · rw [← hvw] at hwv
        exact Int.le_antisymm hwv hvv
    exact hpv ▸ subset_rowFill hd hv
  · obtain ⟨v, hv, w, hw, hvu, hwu, hvv, hwv⟩ := exists_row_ends (isOneSided_planeU hp) hcu hcv
    refine mem_rowFill hd (c := a.planeV) ?_ (fun b hb hb' x hx => ?_) hv hw ?_ ?_ hvv hwv
    · rw [hfirst]
      exact a.planeU_ne_planeV.symm
    · rw [hfirst] at hb'
      obtain rfl := ((a.eq_or_plane b).resolve_right fun h => h.elim hb' hb)
      rw [hflat x hx, hpa]
    · rw [hfirst, hvu]
    · rw [hfirst, hwu]
  · obtain ⟨v, hv, w, hw, hvv, hwv, hvu, hwu⟩ := exists_row_ends (isOneSided_planeV hp) hcv hcu
    refine mem_rowFill hd (c := a.planeU) ?_ (fun b hb hb' x hx => ?_) hv hw ?_ ?_ hvu hwu
    · rw [hfirst]
      exact a.planeU_ne_planeV
    · rw [hfirst] at hb'
      obtain rfl := ((a.eq_or_plane b).resolve_right fun h => h.elim hb hb')
      rw [hflat x hx, hpa]
    · rw [hfirst, hvv]
    · rw [hfirst, hwv]

end Hull

end VoxelAlgebra
