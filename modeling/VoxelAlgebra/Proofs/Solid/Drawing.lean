import VoxelAlgebra.Proofs.Solid.HulledLines
import VoxelAlgebra.Proofs.Solid.RowFill

/-!
# Drawing layers

A layer is drawn by tracing its outline and by filling it, in any order and as often as one likes.
Each step leaves a layer that can be drawn on. Filling loses no voxel and stays in every box of the
voxels before, whether or not these lie in a plane.

## Main definitions

* `Layer.Drawing`, `Layer.Drawing.run` — the two ways to draw a layer.
* `mem_rowFill_of_mem`, `holds_rowFill`, `rowFill_congr` — filled rows of any voxels.
* `Layer.IsDrawable`, `Layer.IsDrawable.exists_run` — layers that can be drawn, and one step.
* `Layer.getElem?_namedEdges`, `Layer.mem_outlineFill_iff` — the edges of a layer and their voxels.
* `Layer.IsOutlined`, `Layer.IsOutlined.exists_box` — layers that keep their outline, and their box.
* `Layer.AreAlike`, `Layer.AreAlike.of_gives` — layers at other origins are drawn alike.
-/

namespace VoxelAlgebra

/-! ## Filled rows of any voxels -/

section

variable {known : List Voxel} {o : Voxel} {d : Derived} {e : Extents} {v : Voxel}

/-- Filled rows keep the voxels that they are made of. -/
theorem mem_rowFill_of_mem (hd : Derived.of (known.map (· + o)) = .ok d) (hv : v ∈ known) :
    v ∈ rowFill o d.directory := by
  have hfilled := subset_rowFill hd (List.mem_map_of_mem hv)
  rw [← map_add_rowFill o] at hfilled
  obtain ⟨x, hx, heq⟩ := List.mem_map.1 hfilled
  rwa [← Voxel.add_right_inj.1 heq]

/-- A voxel of filled rows is on the outline through voxels that they are made of. -/
theorem exists_outline_of_mem_rowFill (hd : Derived.of (known.map (· + o)) = .ok d)
    (hv : v ∈ rowFill o d.directory) :
    ∃ slice : List Voxel, (∀ u ∈ slice, u ∈ known) ∧ v ∈ outlineFill slice := by
  obtain ⟨entry, hentry, hv⟩ := List.mem_flatMap.1 hv
  refine ⟨_, fun u hu => ?_, hv⟩
  obtain ⟨w, hw, rfl⟩ := List.mem_map.1 hu
  obtain ⟨x, hx, rfl⟩ := List.mem_map.1 (mem_of_mem_directory hd hentry w hw).1
  rwa [Voxel.add_sub_cancel]

/-- Filled rows stay in every box of the voxels that they are made of. -/
theorem holds_rowFill (hd : Derived.of (known.map (· + o)) = .ok d)
    (hknown : ∀ u ∈ known, e.Holds u) : ∀ v ∈ rowFill o d.directory, e.Holds v := by
  intro v hv
  obtain ⟨slice, hslice, hv⟩ := exists_outline_of_mem_rowFill hd hv
  exact holds_outlineFill (fun u hu => hknown u (hslice u hu)) v hv

theorem inRange_rowFill (hd : Derived.of (known.map (· + o)) = .ok d)
    (hknown : ∀ u ∈ known, u.InRange) : ∀ v ∈ rowFill o d.directory, v.InRange := by
  intro v hv
  obtain ⟨slice, hslice, hv⟩ := exists_outline_of_mem_rowFill hd hv
  exact inRange_outlineFill (fun u hu => hknown u (hslice u hu)) v hv

theorem rowFill_add_origin (o : Voxel) (d : Directory Voxel) (c : Int) (t : Voxel) :
    rowFill (o + t) (d.add c t) = rowFill o d := by
  simp only [rowFill, Directory.add, List.flatMap_map, List.map_map, Function.comp_def,
    Voxel.add_sub_add_right]

/-- The filled rows relative to an origin do not depend on it. -/
theorem rowFill_congr {o' : Voxel} {d' : Derived} (hd : Derived.of (known.map (· + o)) = .ok d)
    (hd' : Derived.of (known.map (· + o')) = .ok d') :
    rowFill o' d'.directory = rowFill o d.directory := by
  let t := o' - o
  have horigin : o' = o + t := by rw [Voxel.add_comm, Voxel.sub_add_cancel]
  have hmoved : known.map (· + o') = (known.map (· + o)).map (· + t) := by
    simp only [horigin, List.map_map, Function.comp_def, Voxel.add_assoc]
  rw [hmoved] at hd'
  rw [(Derived.directory_add hd hd').2, horigin, rowFill_add_origin]

end

namespace Layer

variable {l l' : Layer} {known : List Voxel}

/-! ## Edges -/

theorem length_namedEdges (vertices : List Voxel) :
    (namedEdges vertices).length = vertices.length := by
  rw [namedEdges, List.length_mapIdx, outline, List.length_zipWith, List.length_append,
    List.length_tail, List.length_take]
  omega

/-- The vertex behind another one, which is the first one behind the last. -/
theorem getElem?_successor {α : Type} {l : List α} {i : Nat} (hi : i < l.length) :
    (l.tail ++ l.take 1)[i]? = l[(i + 1) % l.length]? := by
  obtain hlt | heq := Nat.lt_or_eq_of_le (Nat.succ_le_of_lt hi)
  · have htail : i < l.tail.length := by
      rw [List.length_tail]
      omega
    rw [List.getElem?_append_left htail, List.getElem?_tail, Nat.mod_eq_of_lt hlt]
  · have hend : i + 1 = l.length := heq
    have htail : l.tail.length ≤ i := by
      rw [List.length_tail]
      omega
    have hlast : i - l.tail.length = 0 := by
      rw [List.length_tail]
      omega
    rw [List.getElem?_append_right htail, hlast, List.getElem?_take_of_lt Nat.one_pos,
      hend, Nat.mod_self]

/-- The edge of a vertex runs to its cyclic successor. -/
theorem getElem?_namedEdges {vertices : List Voxel} {i : Nat} {s e : Voxel}
    (hs : vertices[i]? = some s) (he : vertices[(i + 1) % vertices.length]? = some e) :
    (namedEdges vertices)[i]? = some (edgeName vertices.length i, segment s e) := by
  have hi : i < vertices.length := (List.getElem?_eq_some_iff.1 hs).1
  rw [namedEdges, List.getElem?_mapIdx, outline, List.getElem?_zipWith, hs,
    getElem?_successor hi, he]
  rfl

/-- The edges of a layer are the paths of its outline. -/
theorem mem_outline_iff {vertices path : List Voxel} :
    path ∈ outline vertices ↔ ∃ entry ∈ namedEdges vertices, entry.2 = path := by
  constructor
  · intro hpath
    obtain ⟨i, hi, rfl⟩ := List.getElem_of_mem hpath
    exact ⟨_, List.mem_mapIdx.2 ⟨i, hi, rfl⟩, rfl⟩
  · rintro ⟨entry, hentry, rfl⟩
    obtain ⟨i, hi, rfl⟩ := List.mem_mapIdx.1 hentry
    exact List.getElem_mem hi

/-- The voxels of an outline are those of its edges. -/
theorem mem_outlineFill_iff {vertices : List Voxel} {v : Voxel} :
    v ∈ outlineFill vertices ↔ ∃ entry ∈ namedEdges vertices, v ∈ entry.2 := by
  rw [mem_outlineFill]
  constructor
  · rintro ⟨s, e, hse, hv⟩
    obtain ⟨entry, hentry, hpath⟩ := mem_outline_iff.1 (mem_outline.2 ⟨s, e, hse, rfl⟩)
    exact ⟨entry, hentry, hpath ▸ hv⟩
  · rintro ⟨entry, hentry, hv⟩
    obtain ⟨s, e, hse, hpath⟩ := mem_outline.1 (mem_outline_iff.2 ⟨entry, hentry, rfl⟩)
    exact ⟨s, e, hse, hpath ▸ hv⟩

/-! ## Steps -/

inductive Drawing where
  | trace
  | fill

def Drawing.run : Drawing → Edit (Issuer × Layer) Unit
  | trace => Edit.onSecond generateEdges
  | fill => fillPolygon

def Drawing.voxels (l : Layer) : Drawing → List Voxel
  | trace => outlineFill l.vertices
  | fill => Voxel.distinct (rowFill l.base.origin l.base.derived.directory)

def Drawing.edges (l : Layer) : Drawing → List (String × List Voxel)
  | trace => namedEdges l.vertices
  | fill => l.edges

/-- A live layer in range whose slices are those of the voxels `known`, relative to its origin. -/
structure IsDrawable (known : List Voxel) (l : Layer) : Prop where
  isLive : l.base.isDeleted = false
  inRange : ∀ v ∈ known, v.InRange
  derived : Derived.of (known.map (· + l.base.origin)) = .ok l.base.derived
  vertices : ∀ v ∈ l.vertices, v.InRange
  absolute : ∀ v ∈ l.vertices, (v + l.base.origin).InRange

/-- What a step makes of a layer: it has other voxels, perhaps other edges, and can be drawn on. -/
structure Drawing.Gives (drawing : Drawing) (l l' : Layer) : Prop where
  isDrawable : l'.IsDrawable l'.base.fill
  vertices : l'.vertices = l.vertices
  origin : l'.base.origin = l.base.origin
  fill : l'.base.fill = drawing.voxels l
  edges : l'.edges = drawing.edges l

/-- The outline of a live layer in range can be traced, whatever its voxels are. -/
theorem exists_trace (i : Issuer) (hlive : l.base.isDeleted = false)
    (hvertices : ∀ v ∈ l.vertices, v.InRange)
    (habsolute : ∀ v ∈ l.vertices, (v + l.base.origin).InRange) :
    ∃ l' i', Drawing.trace.run (i, l) = .ok () (i', l') ∧ Drawing.trace.Gives l l' := by
  obtain ⟨base, hrun, hsound, -, horigin, hfill⟩ := exists_generateEdges hlive habsolute
  refine ⟨_, i, Edit.onSecond_eq_ok.2 ⟨hrun, rfl⟩,
    ⟨hsound.isLive, ?_, hsound.derived, hvertices, ?_⟩, rfl, horigin, hfill, rfl⟩
  · rw [hfill]
    exact inRange_outlineFill hvertices
  · rw [horigin]
    exact habsolute

/-- A layer that can be drawn can be drawn on. -/
theorem IsDrawable.exists_run (hl : l.IsDrawable known) (i : Issuer) (drawing : Drawing) :
    ∃ l' i', drawing.run (i, l) = .ok () (i', l') ∧ drawing.Gives l l' := by
  cases drawing with
  | trace => exact exists_trace i hl.isLive hl.vertices hl.absolute
  | fill =>
    have hrelative : ∀ v ∈ known.map (· + l.base.origin), (v - l.base.origin).InRange := by
      refine List.forall_mem_map.2 fun v hv => ?_
      rw [Voxel.add_sub_cancel]
      exact hl.inRange v hv
    obtain ⟨base, i', hrun, -, hsound, -, horigin, hfill⟩ :=
      exists_fillPolygon (Issuer.Owns.of_inUse i) hl.isLive hl.derived hrelative
    refine ⟨_, i', hrun, ⟨hsound.isLive, ?_, hsound.derived, hl.vertices, ?_⟩, rfl, horigin, hfill,
      rfl⟩
    · intro v hv
      rw [hfill, Voxel.mem_distinct] at hv
      exact inRange_rowFill hl.derived hl.inRange v hv
    · rw [horigin]
      exact hl.absolute

/-! ## Outlined layers -/

/-- A layer that has its edges and the voxels of its outline, and no voxel outside of the boxes that
hold its vertices. -/
structure IsOutlined (l : Layer) : Prop extends l.IsDrawable l.base.fill where
  edges : l.edges = namedEdges l.vertices
  nodup : l.base.fill.Nodup
  outline : ∀ v ∈ outlineFill l.vertices, v ∈ l.base.fill
  holds : ∀ e : Extents, (∀ v ∈ l.vertices, e.Holds v) → ∀ v ∈ l.base.fill, e.Holds v

/-- A layer whose outline was traced has no other voxels. -/
theorem Drawing.Gives.isOutlined (h : Drawing.trace.Gives l l') : l'.IsOutlined := by
  have hfill : l'.base.fill = outlineFill l'.vertices := by rw [h.fill, h.vertices, voxels]
  refine ⟨h.isDrawable, ?_, ?_, ?_, ?_⟩
  · rw [h.edges, h.vertices, Drawing.edges]
  · rw [hfill]
    exact Voxel.nodup_distinct _
  · rw [hfill]
    exact fun v hv => hv
  · intro e he
    rw [hfill]
    exact holds_outlineFill he

/-- Filling loses no voxel that the slices are made of. -/
theorem Drawing.Gives.subset (h : Drawing.fill.Gives l l') (hl : l.IsDrawable known) :
    ∀ v ∈ known, v ∈ l'.base.fill := by
  intro v hv
  rw [h.fill, voxels, Voxel.mem_distinct]
  exact mem_rowFill_of_mem hl.derived hv

/-- A layer stays outlined when it is filled. -/
theorem IsOutlined.fill_gives (hl : l.IsOutlined) (h : Drawing.fill.Gives l l') :
    l'.IsOutlined := by
  refine ⟨h.isDrawable, ?_, ?_, ?_, ?_⟩
  · rw [h.edges, h.vertices, Drawing.edges, hl.edges]
  · rw [h.fill]
    exact Voxel.nodup_distinct _
  · intro v hv
    rw [h.vertices] at hv
    exact h.subset hl.toIsDrawable v (hl.outline v hv)
  · intro e he v hv
    rw [h.vertices] at he
    rw [h.fill, Drawing.voxels, Voxel.mem_distinct] at hv
    exact holds_rowFill hl.derived (hl.holds e he) v hv

/-- The box of an outlined layer is the least box of its vertices. -/
theorem IsOutlined.exists_box (hl : l.IsOutlined) (hne : l.vertices ≠ []) :
    ∃ e : Extents, e.IsLeast (l.vertices.map (· + l.base.origin)) ∧
      l.base.derived.box = some (Box.ofExtents e) := by
  obtain ⟨e, he⟩ := Extents.exists_isLeast hne
  have hfill : e.IsLeast l.base.fill := by
    refine he.of_subset (fun v hv => ?_) (hl.holds e he.holds)
    exact hl.outline v (mem_outlineFill_of_mem hv)
  refine ⟨e.add l.base.origin, he.add l.base.origin, ?_⟩
  exact (Derived.describes_of_isLeast hl.derived (hfill.add l.base.origin)).box

/-! ## Layers at other origins -/

/-- Two layers that can be drawn, with the same vertices, voxels and slices relative to their
origins. -/
structure AreAlike (known : List Voxel) (l l' : Layer) : Prop where
  left : l.IsDrawable known
  right : l'.IsDrawable known
  vertices : l'.vertices = l.vertices
  fill : l'.base.fill = l.base.fill

/-- A step draws the same voxels in both of two such layers. -/
theorem AreAlike.of_gives {m m' : Layer} (h : AreAlike known l l') {drawing : Drawing}
    (hm : drawing.Gives l m) (hm' : drawing.Gives l' m') : AreAlike m.base.fill m m' := by
  have hfill : m'.base.fill = m.base.fill := by
    rw [hm'.fill, hm.fill]
    cases drawing with
    | trace => rw [Drawing.voxels, Drawing.voxels, h.vertices]
    | fill => rw [Drawing.voxels, Drawing.voxels, rowFill_congr h.left.derived h.right.derived]
  refine ⟨hm.isDrawable, hfill ▸ hm'.isDrawable, ?_, hfill⟩
  rw [hm'.vertices, hm.vertices, h.vertices]

end Layer
end VoxelAlgebra
