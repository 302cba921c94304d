import VoxelAlgebra.Proofs.Solid.Layer

/-!
# Filled hulls of slices

Every slice of a section is replaced by the outline of its hull, or by the filled hull. The layers
that trace the hulls are given back at once, and the filled hulls cover the slices.

## Main definitions

* `IsTraced`, `exists_traceOutline` — the voxels of a traced outline.
* `IsHulled`, `exists_hullSlices` — the voxels of the traced hulls of slices.
* `exists_hullSlice`, `IsHulled.covers` — filled hulls cover their slices.
-/

namespace VoxelAlgebra

variable {i : Issuer} {held : Set String} {sets : List VoxelSet}

/-- The voxels of an outline, or of its filled rows. -/
def IsTraced (vertices : List Voxel) (filled : Bool) (voxels : List Voxel) : Prop :=
  ∃ d, Derived.of (outlineFill vertices) = .ok d ∧
    voxels = if filled then Voxel.distinct (rowFill .zero d.directory) else outlineFill vertices

/-- The voxels of a layer at the zero origin are read as they are, or after it was filled. -/
theorem Layer.exists_fill_absolute {l : Layer} (filled : Bool) (h : i.Owns held (l.base :: sets))
    (hzero : l.base.origin = .zero) (hrange : ∀ v ∈ l.base.fill, v.InRange) :
    ∃ base i', (do
        if filled then fillPolygon
        Edit.ofExcept (← get).2.base.absolute : Edit (Issuer × Layer) (List Voxel)) (i, l) =
          .ok base.absoluteFill (i', { l with base }) ∧
      i'.Owns held (base :: sets) ∧ base.absoluteFill =
        if filled then Voxel.distinct (rowFill .zero l.base.derived.directory)
        else l.base.absoluteFill := by
  have hsound := h.isSound l.base List.mem_cons_self
  cases filled with
  | false =>
    refine ⟨l.base, i, ?_, h, rfl⟩
    simp [VoxelSet.absolute_eq_ok, hsound.isLive]
  | true =>
    obtain ⟨base, i', hfill, howns, hsound', hid, horigin, hbase⟩ := exists_fillPolygon h
      hsound.isLive hsound.derived (VoxelSet.inRange_sub_origin hrange)
    refine ⟨base, i', ?_, howns.change hsound' hid, ?_⟩
    · simp only [if_true, Edit.bind_eq_ok, Edit.get_bind, Edit.ofExcept_eq_ok,
        VoxelSet.absolute_eq_ok]
      exact ⟨(), _, hfill, ⟨hsound'.isLive, rfl⟩, rfl⟩
    · rw [if_pos rfl, VoxelSet.absoluteFill_of_zero (horigin.trans hzero), hbase, hzero]

/-- An outline is traced without leaving anything behind. -/
theorem exists_traceOutline {vertices : List Voxel} (filled : Bool) (h : i.Owns held sets)
    (hne : vertices ≠ []) (hrange : ∀ v ∈ vertices, v.InRange) :
    ∃ voxels i', traceOutline vertices filled i = .ok voxels i' ∧ i'.Owns held sets ∧
      (∀ v ∈ voxels, v.InRange) ∧ IsTraced vertices filled voxels := by
  obtain ⟨l, base₁, i₁, hcreate, hedges, howns₁, hzero, hfill⟩ :=
    Layer.exists_create_generateEdges h hne hrange
  have habsolute : base₁.absoluteFill = outlineFill vertices :=
    (VoxelSet.absoluteFill_of_zero hzero).trans hfill
  have hd : Derived.of (outlineFill vertices) = .ok base₁.derived :=
    habsolute ▸ (howns₁.isSound base₁ List.mem_cons_self).derived
  obtain ⟨base₂, i₂, hread, howns₂, hvoxels⟩ := Layer.exists_fill_absolute
    (l := { base := base₁, vertices, edges := Layer.namedEdges vertices }) filled howns₁ hzero
    (hfill ▸ inRange_outlineFill hrange)
  obtain ⟨i₃, hrelease, howns₃⟩ := howns₂.exists_release
  refine ⟨base₂.absoluteFill, i₃, ?_, howns₃, (howns₂.isSound base₂ List.mem_cons_self).inRange,
    base₁.derived, hd, habsolute ▸ hvoxels⟩
  rw [traceOutline, Edit.bind_eq_ok]
  refine ⟨_, i₁, hcreate, ?_⟩
  rw [Edit.bind_eq_ok]
  refine ⟨(base₂.absoluteFill, ⟨base₂, vertices, Layer.namedEdges vertices⟩), i₂,
    Edit.withSecond_eq_ok.2 ?_, ?_⟩
  · rw [Edit.bind_eq_ok]
    exact ⟨(), (i₁, _), Edit.onSecond_eq_ok.2 ⟨hedges, rfl⟩, hread⟩
  · simp only [Layer.release, Edit.bind_eq_ok, Edit.pure_eq_ok]
    exact ⟨_, i₃, ⟨_, i₃, hrelease, rfl, rfl⟩, trivial, rfl⟩

section

variable {a : Axis} {k : Int} {slice : List Voxel}

theorem liftAlong_projectAlong {v : Voxel} (h : v.coord a = k) :
    liftAlong a k (projectAlong a v) = v :=
  Voxel.ext_coord fun b => by
    obtain rfl | rfl | rfl := a.eq_or_plane b <;> simp [h]

/-- The vertices of the hull of a slice are among its voxels. -/
theorem mem_of_mem_hullVertices (hslice : ∀ v ∈ slice, v.coord a = k) {v : Voxel}
    (hv : v ∈ hullVertices a k slice) : v ∈ slice := by
  obtain ⟨q, hq, rfl⟩ := List.mem_map.1 hv
  obtain ⟨w, hw, rfl⟩ := List.mem_map.1 (mem_of_mem_hull hq)
  rwa [liftAlong_projectAlong (hslice w hw)]

theorem hullVertices_ne_nil (h : slice ≠ []) : hullVertices a k slice ≠ [] := by
  obtain ⟨v, hv⟩ := List.exists_mem_of_ne_nil slice h
  obtain ⟨⟨⟨w, hw, -⟩, -⟩, -⟩ := exists_hullVertices (a := a) (k := k) hv
  exact List.ne_nil_of_mem hw

/-- A filled hull covers its slice. -/
theorem IsTraced.covers {voxels : List Voxel} (h : IsTraced (hullVertices a k slice) true voxels)
    (hplace : ∀ v ∈ slice, v.coord a = k) : ∀ v ∈ slice, v ∈ voxels := by
  obtain ⟨d, hd, rfl⟩ := h
  intro v hv
  rw [if_pos rfl, Voxel.mem_distinct]
  exact mem_rowFill_hull hd hplace hv

/-- The hull of a slice is traced without leaving anything behind. If it is filled it covers the
slice. -/
theorem exists_hullSlice (filled : Bool) (h : i.Owns held sets) (hne : slice ≠ [])
    (hplace : ∀ v ∈ slice, v.coord a = k) (hrange : ∀ v ∈ slice, v.InRange) :
    ∃ voxels i', traceOutline (hullVertices a k slice) filled i = .ok voxels i' ∧
      i'.Owns held sets ∧ (∀ v ∈ voxels, v.InRange) ∧ (filled → ∀ v ∈ slice, v ∈ voxels) := by
  obtain ⟨voxels, i', htrace, howns, hin, htraced⟩ := exists_traceOutline filled h
    (hullVertices_ne_nil hne) fun v hv => hrange v (mem_of_mem_hullVertices hplace hv)
  exact ⟨voxels, i', htrace, howns, hin, fun hfilled => (hfilled ▸ htraced).covers hplace⟩

end

/-! ## All slices -/

/-- The voxels are those of the traced hulls of all slices that are not empty. -/
structure IsHulled (a : Axis) (filled : Bool) (directory : Directory Voxel) (voxels : List Voxel) :
    Prop where
  exists_traced : ∀ entry ∈ directory, entry.2 ≠ [] → ∃ traced,
    IsTraced (hullVertices a entry.1 entry.2) filled traced ∧ ∀ v ∈ traced, v ∈ voxels
  mem_traced : ∀ v ∈ voxels, ∃ entry ∈ directory, entry.2 ≠ [] ∧ ∃ traced,
    IsTraced (hullVertices a entry.1 entry.2) filled traced ∧ v ∈ traced

namespace IsHulled

variable {a : Axis} {k : Int} {filled : Bool} {slice traced voxels voxels' : List Voxel}
  {directory : Directory Voxel}

theorem nil : IsHulled a filled [] [] := ⟨nofun, nofun⟩

/-- An empty slice has no hull. -/
theorem skip (h : IsHulled a filled directory voxels) :
    IsHulled a filled ((k, []) :: directory) voxels where
  exists_traced := List.forall_mem_cons.2 ⟨fun hne => absurd rfl hne, h.exists_traced⟩
  mem_traced v hv := by
    obtain ⟨entry, hentry, htraced⟩ := h.mem_traced v hv
    exact ⟨entry, List.mem_cons_of_mem _ hentry, htraced⟩

theorem cons (hne : slice ≠ []) (htraced : IsTraced (hullVertices a k slice) filled traced)
    (h : IsHulled a filled directory voxels) :
    IsHulled a filled ((k, slice) :: directory) (traced ++ voxels) where
  exists_traced := by
    refine List.forall_mem_cons.2
      ⟨fun _ => ⟨traced, htraced, fun v => List.mem_append_left _⟩, fun entry hentry hslice => ?_⟩
    obtain ⟨other, hother, hsub⟩ := h.exists_traced entry hentry hslice
    exact ⟨other, hother, fun v hv => List.mem_append_right _ (hsub v hv)⟩
  mem_traced v hv := by
    obtain hv | hv := List.mem_append.1 hv
    · exact ⟨_, List.mem_cons_self, hne, traced, htraced, hv⟩
    · obtain ⟨entry, hentry, hother⟩ := h.mem_traced v hv
      exact ⟨entry, List.mem_cons_of_mem _ hentry, hother⟩

/-- Only the voxels matter, not their order or number. -/
theorem congr (h : IsHulled a filled directory voxels) (hmem : ∀ v, v ∈ voxels ↔ v ∈ voxels') :
    IsHulled a filled directory voxels' where
  exists_traced entry hentry hne := by
    obtain ⟨traced, htraced, hsub⟩ := h.exists_traced entry hentry hne
    exact ⟨traced, htraced, fun v hv => (hmem v).1 (hsub v hv)⟩
  mem_traced v hv := h.mem_traced v ((hmem v).2 hv)

/-- The filled hulls of the slices of voxels cover them. -/
theorem covers {d : Derived} (hd : Derived.of voxels = .ok d)
    (h : IsHulled d.axes.first true d.directory voxels') : ∀ v ∈ voxels, v ∈ voxels' := by
  intro v hv
  have hslice := exists_slice_of_mem hd hv
  have hmem : v ∈ sortedSlice d.axes (bucket d.axes (v.coord d.axes.first) voxels) :=
    mem_sortedSlice.2 (mem_bucket.2 ⟨hv, rfl⟩)
  obtain ⟨traced, htraced, hsub⟩ := h.exists_traced _ hslice (List.ne_nil_of_mem hmem)
  exact hsub v (htraced.covers (fun w hw => (mem_of_mem_directory hd hslice w hw).2) v hmem)

end IsHulled

/-- The hulls of all slices of a directory are traced one after the other. -/
theorem exists_hullSlices {a : Axis} (filled : Bool) {directory : Directory Voxel}
    (h : i.Owns held sets) (hplace : ∀ entry ∈ directory, ∀ v ∈ entry.2, v.coord a = entry.1)
    (hrange : ∀ entry ∈ directory, ∀ v ∈ entry.2, v.InRange) :
    ∃ voxels i', hullSlices a filled directory i = .ok voxels i' ∧ i'.Owns held sets ∧
      (∀ v ∈ voxels, v.InRange) ∧ IsHulled a filled directory voxels := by
  induction directory generalizing i with
  | nil => exact ⟨[], i, rfl, h, nofun, .nil⟩
  | cons entry rest ih =>
    obtain ⟨k, slice⟩ := entry
    obtain ⟨hplace₀, hplace₁⟩ := List.forall_mem_cons.1 hplace
    obtain ⟨hrange₀, hrange₁⟩ := List.forall_mem_cons.1 hrange
    cases slice with
    | nil =>
      obtain ⟨voxels, i', hslices, howns, hvoxels, hhulled⟩ := ih h hplace₁ hrange₁
      exact ⟨voxels, i', hslices, howns, hvoxels, hhulled.skip⟩
    | cons v slice =>
      have hne : v :: slice ≠ [] := List.cons_ne_nil v slice
      obtain ⟨voxels₁, i₁, htrace, howns₁, hin₁, htraced⟩ := exists_traceOutline filled h
        (hullVertices_ne_nil (a := a) (k := k) hne) fun v hv =>
          hrange₀ v (mem_of_mem_hullVertices hplace₀ hv)
      obtain ⟨voxels₂, i₂, hslices, howns₂, hin₂, hhulled⟩ := ih howns₁ hplace₁ hrange₁
      refine ⟨voxels₁ ++ voxels₂, i₂, ?_, howns₂, List.forall_mem_append.2 ⟨hin₁, hin₂⟩,
        .cons hne htraced hhulled⟩
      rw [hullSlices, Edit.bind_eq_ok]
      · refine ⟨voxels₁, i₁, htrace, ?_⟩
        rw [Edit.bind_eq_ok]
        exact ⟨voxels₂, i₂, hslices, rfl⟩
      · nofun

end VoxelAlgebra
