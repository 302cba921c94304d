import VoxelAlgebra.Proofs.Solid.Drawing
import VoxelAlgebra.Proofs.World.Operations

/-!
# Outlined layers in a world

When the outline of a live layer is traced, its voxels are those of its edges. However often the
layer is filled afterwards, whether or not its vertices lie in a plane, it keeps these voxels and
all that a filling adds, and stays in the least box of its vertices.

## Main definitions

* `Layer.Drawing.operation` — a step as an operation of a world.
* `World.exists_draw`, `World.exists_fillings` — one step, and fillings one after the other.
* `World.outline_bounds_fillings` — a layer after its outline was traced.
-/

namespace VoxelAlgebra

def Layer.Drawing.operation (h : Handle) : Layer.Drawing → World.Operation
  | trace => .generateEdges h
  | fill => .fillPolygon h

namespace World

variable {w : World} {h : Handle} {l l' : Layer} {drawing : Layer.Drawing}
  {known : List Voxel}

/-- An operation that draws a layer of a world. -/
theorem exists_run_operation {i : Issuer} (hl : w.solids[h]? = some (.layer l))
    (hrun : drawing.run (w.issuer, l) = .ok () (i, l')) :
    ∃ w', (drawing.operation h).run w = .ok () w' ∧ w'.solids[h]? = some (.layer l') := by
  refine ⟨put h (.layer l') { w with issuer := i }, ?_, solids_put hl _⟩
  have hpart : onPartOf h l .layer drawing.run w =
      .ok () (put h (.layer l') { w with issuer := i }) := onPartOf_eq_ok.2 ⟨i, l', hrun, rfl⟩
  cases drawing with
  | trace => exact onLayer_eq_ok.2 ⟨l, hl, hpart⟩
  | fill => exact onLayer_eq_ok.2 ⟨l, hl, hpart⟩

/-- A layer that can be drawn can be drawn on in its world. -/
theorem exists_draw (hl : w.solids[h]? = some (.layer l)) (hdrawable : l.IsDrawable known)
    (drawing : Layer.Drawing) :
    ∃ w' l', (drawing.operation h).run w = .ok () w' ∧ w'.solids[h]? = some (.layer l') ∧
      drawing.Gives l l' := by
  obtain ⟨l', i, hrun, hgives⟩ := hdrawable.exists_run w.issuer drawing
  obtain ⟨w', hoperation, hl'⟩ := exists_run_operation hl hrun
  exact ⟨w', l', hoperation, hl', hgives⟩

/-- An outlined layer stays outlined however often it is filled, and loses no voxel. -/
theorem exists_fillings (hl : w.solids[h]? = some (.layer l)) (houtlined : l.IsOutlined)
    (count : Nat) :
    ∃ w' l', runAll (List.replicate count (.fillPolygon h)) w = .ok () w' ∧
      w'.solids[h]? = some (.layer l') ∧ l'.IsOutlined ∧ l'.vertices = l.vertices ∧
      l'.base.origin = l.base.origin ∧ ∀ v ∈ l.base.fill, v ∈ l'.base.fill := by
  induction count generalizing w l with
  | zero => exact ⟨w, l, rfl, hl, houtlined, rfl, rfl, fun v hv => hv⟩
  | succ count ih =>
    obtain ⟨w₁, l₁, hrun₁, hl₁, hgives⟩ := exists_draw hl houtlined.toIsDrawable .fill
    obtain ⟨w', l', hrun, hl', houtlined', hvertices, horigin, hsubset⟩ :=
      ih hl₁ (houtlined.fill_gives hgives)
    refine ⟨w', l', ?_, hl', houtlined', hvertices.trans hgives.vertices,
      horigin.trans hgives.origin, fun v hv => ?_⟩
    · rw [List.replicate_succ, runAll, Edit.bind_eq_ok]
      exact ⟨(), w₁, hrun₁, hrun⟩
    · exact hsubset v (hgives.subset houtlined.toIsDrawable v hv)

/-- Tracing a live layer succeeds: each vertex gets an edge to its cyclic successor, and the voxels
of the layer are those of its edges, each once. After any number of fillings the voxels still occur
once each, have every voxel of the edges, and have the least box of the absolute vertices; another
filling succeeds and loses none of them. -/
theorem outline_bounds_fillings (hl : w.solids[h]? = some (.layer l))
    (hlive : l.base.isDeleted = false) (hrelative : ∀ v ∈ l.vertices, v.InRange)
    (habsolute : ∀ v ∈ l.vertices, (v + l.base.origin).InRange) :
    ∃ w₁ l₁, (Operation.generateEdges h).run w = .ok () w₁ ∧
      w₁.solids[h]? = some (.layer l₁) ∧ l₁.edges.length = l.vertices.length ∧
      (∀ i s e, l.vertices[i]? = some s → l.vertices[(i + 1) % l.vertices.length]? = some e →
        l₁.edges[i]? = some (edgeName l.vertices.length i, segment s e)) ∧
      l₁.base.fill.Nodup ∧ (∀ v, v ∈ l₁.base.fill ↔ ∃ entry ∈ l₁.edges, v ∈ entry.2) ∧
      ∀ count, ∃ w₂ l₂, runAll (List.replicate count (.fillPolygon h)) w₁ = .ok () w₂ ∧
        w₂.solids[h]? = some (.layer l₂) ∧ l₂.vertices = l.vertices ∧ l₂.edges = l₁.edges ∧
        l₂.base.origin = l.base.origin ∧ l₂.base.fill.Nodup ∧
        (∀ entry ∈ l₂.edges, ∀ v ∈ entry.2, v ∈ l₂.base.fill) ∧
        (l.vertices ≠ [] → ∃ e : Extents, e.IsLeast (l.vertices.map (· + l.base.origin)) ∧
          l₂.base.derived.box = some (Box.ofExtents e)) ∧
        ∃ w₃ l₃, (Operation.fillPolygon h).run w₂ = .ok () w₃ ∧
          w₃.solids[h]? = some (.layer l₃) ∧ ∀ v ∈ l₂.base.fill, v ∈ l₃.base.fill := by
  obtain ⟨l₁, i, hrun, hgives⟩ := Layer.exists_trace w.issuer hlive hrelative habsolute
  obtain ⟨w₁, hoperation, hl₁⟩ := exists_run_operation hl hrun
  have hedges : l₁.edges = Layer.namedEdges l.vertices := hgives.edges
  have hfill : l₁.base.fill = outlineFill l.vertices := hgives.fill
  refine ⟨w₁, l₁, hoperation, hl₁, ?_, ?_, hgives.isOutlined.nodup, ?_, fun count => ?_⟩
  · rw [hedges, Layer.length_namedEdges]
  · intro i s e hs he
    rw [hedges, Layer.getElem?_namedEdges hs he]
  · intro v
    rw [hfill, hedges, Layer.mem_outlineFill_iff]
  obtain ⟨w₂, l₂, hrun₂, hl₂, houtlined, hvertices, horigin, -⟩ :=
    exists_fillings hl₁ hgives.isOutlined count
  rw [hgives.vertices] at hvertices
  rw [hgives.origin] at horigin
  refine ⟨w₂, l₂, hrun₂, hl₂, hvertices, ?_, horigin, houtlined.nodup, ?_, ?_, ?_⟩
  · rw [houtlined.edges, hvertices, hedges]
  · intro entry hentry v hv
    rw [houtlined.edges] at hentry
    exact houtlined.outline v (Layer.mem_outlineFill_iff.2 ⟨entry, hentry, hv⟩)
  · intro hne
    obtain ⟨e, he, hbox⟩ := houtlined.exists_box (hvertices ▸ hne)
    rw [hvertices, horigin] at he
    exact ⟨e, he, hbox⟩
  · obtain ⟨w₃, l₃, hrun₃, hl₃, hgives₃⟩ := exists_draw hl₂ houtlined.toIsDrawable .fill
    exact ⟨w₃, l₃, hrun₃, hl₃, hgives₃.subset houtlined.toIsDrawable⟩

/-- A tilted triangle away from the zero origin keeps a voxel inside of its last edge and its box
through two fillings. -/
theorem outline_bounds_fillings_tilted : ∃ (w : World) (l : Layer),
    w.solids[0]? = some (.layer l) ∧ l.vertices = [⟨0, 0, 0⟩, ⟨2, 1, 0⟩, ⟨0, 2, 3⟩] ∧
    l.base.origin = ⟨5, 0, 0⟩ ∧ ∃ w₁ l₁, (Operation.generateEdges 0).run w = .ok () w₁ ∧
      w₁.solids[0]? = some (.layer l₁) ∧ l₁.base.fill.Nodup ∧
      l₁.edges[2]? = some ("V2V0", [⟨0, 2, 3⟩, ⟨0, 2, 2⟩, ⟨0, 1, 1⟩, ⟨0, 0, 0⟩]) ∧
      ∃ w₂ l₂, runAll [.fillPolygon 0, .fillPolygon 0] w₁ = .ok () w₂ ∧
        w₂.solids[0]? = some (.layer l₂) ∧ l₂.base.fill.Nodup ∧ ⟨0, 1, 1⟩ ∈ l₂.base.fill ∧
        l₂.base.derived.box = some (Box.ofExtents ⟨⟨5, 0, 0⟩, ⟨7, 2, 3⟩⟩) := by
  obtain ⟨w, -, l, hl, hlive, hvertices, horigin⟩ : ∃ w : World, w.Reached .hexadecimal ∧
      ∃ l : Layer, w.solids[0]? = some (.layer l) ∧ l.base.isDeleted = false ∧
        l.vertices = [⟨0, 0, 0⟩, ⟨2, 1, 0⟩, ⟨0, 2, 3⟩] ∧ l.base.origin = ⟨5, 0, 0⟩ := by
    refine exists_reached [.createLayer [5, 0, 0] [[0, 0, 0], [2, 1, 0], [0, 2, 3]]] (by cbv) ?_
    exact ⟨_, rfl, rfl, rfl, rfl⟩
  obtain ⟨w₁, l₁, hrun₁, hl₁, -, hedges, hnodup₁, -, hfillings⟩ := outline_bounds_fillings hl hlive
    (by rw [hvertices]; decide) (by rw [hvertices, horigin]; decide)
  obtain ⟨w₂, l₂, hrun₂, hl₂, -, hedges₂, -, hnodup₂, hsubset, hbox, -⟩ := hfillings 2
  rw [hvertices] at hedges hbox
  rw [horigin] at hbox
  have hlast : l₁.edges[2]? = some ("V2V0", [⟨0, 2, 3⟩, ⟨0, 2, 2⟩, ⟨0, 1, 1⟩, ⟨0, 0, 0⟩]) :=
    hedges 2 ⟨0, 2, 3⟩ ⟨0, 0, 0⟩ rfl rfl
  refine ⟨w, l, hl, hvertices, horigin, w₁, l₁, hrun₁, hl₁, hnodup₁, hlast, w₂, l₂, hrun₂, hl₂,
    hnodup₂, ?_, ?_⟩
  · rw [hedges₂] at hsubset
    exact hsubset _ (List.mem_of_getElem? hlast) _ (by decide)
  · obtain ⟨e, he, hboxed⟩ := hbox (List.cons_ne_nil _ _)
    rw [hboxed, he.unique (Extents.isLeast_around ⟨5, 0, 0⟩ [⟨7, 1, 0⟩, ⟨5, 2, 3⟩])]
    rfl

end World
end VoxelAlgebra
