import VoxelAlgebra.Proofs.Solid.Extrusion
import VoxelAlgebra.Proofs.World.Layers
import VoxelAlgebra.Proofs.World.Lofting

/-!
# Extrusions of layers in a world

A sweep over a layer has the voxels of the layer moved along the path of its vector, and the fill of
the vertices of the layer moved to the end of the path. A shell has the layer itself and that fill,
and in between only the edges. The origin of the sweep does not matter, and neither do the
identifiers that were issued before. The layer stays as it is.

## Main definitions

* `Layer.edgeVoxels_eq_ok` — the edges of a live layer.
* `World.extrude_agrees` — the voxels of an extruded layer.
-/

namespace VoxelAlgebra

namespace Layer

variable {l : Layer} {vector : Voxel}

/-- The absolute edges of a live layer one after the other. -/
theorem edgeVoxels_eq_ok (hlive : l.base.isDeleted = false) :
    l.edgeVoxels = .ok (l.edges.flatMap fun entry => entry.2.map (· + l.base.origin)) := by
  have halive : l.base.checkAlive = .ok () := VoxelSet.checkAlive_eq_ok.2 hlive
  rw [edgeVoxels, absoluteEdges, halive]
  simp only [except_ok_bind, pure, Except.pure, List.flatMap_map]

/-- The edges of a layer that was traced are in range wherever its vertices are. -/
theorem IsFormed.hasEdges {edges : List Voxel} (hl : l.IsFormed) (hedges : l.edgeVoxels = .ok edges)
    (hlive : l.base.isDeleted = false) (hne : edges ≠ [])
    (hrange : ∀ v ∈ l.vertices, (v + l.base.origin).InRange ∧
      (v + l.base.origin + vector).InRange) : Sweep.HasEdges l.profile vector := by
  refine ⟨edges, hedges, hne, fun v hv => ?_⟩
  cases (edgeVoxels_eq_ok hlive).symm.trans hedges
  obtain ⟨entry, hentry, hv⟩ := List.mem_flatMap.1 hv
  obtain ⟨e, he, rfl⟩ := List.mem_map.1 hv
  have hmoved := hl.inRange (o := l.base.origin + vector)
    (fun v hv => Voxel.add_assoc v _ vector ▸ (hrange v hv).2) entry hentry e he
  rw [← Voxel.add_assoc] at hmoved
  exact ⟨hl.inRange (fun v hv => (hrange v hv).1) entry hentry e he, hmoved⟩

end Layer

namespace World

variable {w : World} {h swept : Handle} {s : Sweep} {l : Layer}

/-- After a sweep over a live layer is extruded it has the right voxels, each of them once, and the
layer stays as it is. Along the path of the vector it has the voxels of the layer, or for a shell
only the edges, and at the end of the path what a new layer through the vertices has after it is
traced and filled. In every world that operations lead to, a live sweep can be extruded when what is
moved is in range before and after, and to a shell when the layer was traced. -/
theorem extrude_agrees (hs : w.solids[h]? = some (.sweep s swept))
    (hl : w.solids[swept]? = some (.layer l)) (hlayer : l.base.isDeleted = false) :
    ∃ voxels vertices edges, l.base.absolute = .ok voxels ∧ l.absoluteVertices = .ok vertices ∧
      l.edgeVoxels = .ok edges ∧
      (∀ source, w.Reached source → s.base.isDeleted = false → (∀ v ∈ vertices, v.InRange) →
        (∀ i, ∃ fill i', traceOutline vertices true i = .ok fill i') ∧
        ∀ shell, (∀ v ∈ vertices, (v + s.vector).InRange) →
          (∀ v ∈ voxels, (v + s.vector).InRange) →
          (shell = true → s.vector ≠ .zero → edges ≠ []) →
          ∃ w', extrude h shell w = .ok () w') ∧
      ∀ shell w' fill i i', extrude h shell w = .ok () w' →
        traceOutline vertices true i = .ok fill i' →
        ∃ s' points, w'.solids[h]? = some (.sweep s' swept) ∧
          w'.solids[swept]? = some (.layer l) ∧ s'.base.absolute = .ok points ∧ points.Nodup ∧
          ((shell = false ∨ s.vector = .zero) →
            ∀ x, x ∈ points ↔ x ∈ Sweep.solidForm s.vector voxels fill) ∧
          (shell = true → s.vector ≠ .zero →
            ∀ x, x ∈ points ↔ x ∈ Sweep.shellForm s.vector voxels edges fill) := by
  have hvoxels : l.base.absolute = .ok l.base.absoluteFill :=
    VoxelSet.absolute_eq_ok.2 ⟨hlayer, rfl⟩
  have hvertices := Layer.absoluteVertices_eq_ok hlayer
  have hedges := Layer.edgeVoxels_eq_ok hlayer
  refine ⟨_, _, _, hvoxels, hvertices, hedges, fun source hw hlive hstay => ?_,
    fun shell w' fill i i' hrun hfill => ?_⟩
  · have hformed : l.IsFormed := hw.isFormed swept (.layer l) hl
    have hne : l.vertices.map (· + l.base.origin) ≠ [] := by simpa using hformed.ne_nil
    refine ⟨fun i => ?_, fun shell hmove hmoved hshell => ?_⟩
    · obtain ⟨fill, i', hfill, -⟩ := exists_traceOutline true (Issuer.Owns.of_inUse i) hne hstay
      exact ⟨fill, i', hfill⟩
    · have hsound := hw.isSound
      have howns : w.issuer.Owns ∅ (s.sets ++ w.others h) := hsound.owns_of_isLive hs hlive
      have hbase : l.base.IsSound :=
        (hsound.owns_of_isLive hl hlayer).isSound l.base List.mem_cons_self
      have hrange := fun v hv => And.intro (hstay v hv) (hmove v hv)
      obtain ⟨i, s', hrun, -⟩ := Sweep.exists_extrusion shell howns
        ⟨hvertices, hvoxels, hne, hrange, fun v hv => ⟨hbase.inRange v hv, hmoved v hv⟩⟩
        fun hmode hzero => hformed.hasEdges hedges hlayer (hshell hmode hzero)
          (List.forall_mem_map.1 hrange)
      exact ⟨_, extrude_eq_ok.2 ⟨s, swept, .layer l, hs, hl, onPartOf_eq_ok.2 ⟨i, s', hrun, rfl⟩⟩⟩
  · obtain ⟨_, _, o, hs', hl', hrun⟩ := extrude_eq_ok.1 hrun
    cases hs.symm.trans hs'
    cases hl.symm.trans hl'
    obtain ⟨i₁, s₁, hextrude, rfl⟩ := onPartOf_eq_ok.1 hrun
    obtain ⟨hlive₁, all, hform, heq⟩ := Sweep.of_extrude hvertices hvoxels
      (isTraced_of_traceOutline hfill) hextrude
    have hne : h ≠ swept := by
      rintro rfl
      cases hs.symm.trans hl
    refine ⟨s₁, s₁.base.absoluteFill, solids_put hs _, (solids_put_of_ne hne _ _).trans hl,
      VoxelSet.absolute_eq_ok.2 ⟨hlive₁, rfl⟩, heq ▸ Voxel.nodup_distinct _,
      fun hmode x => ?_, fun hmode hzero x => ?_⟩
    · rw [heq, Voxel.mem_distinct, hform.mem_solid hmode]
    · rw [heq, Voxel.mem_distinct, hform.mem_shell hmode hzero hedges]

/-- A traced segment at an origin of its own is extruded to a shell along a slanted vector. -/
theorem extrude_agrees_slanted : ∃ (w : World) (s : Sweep) (l : Layer),
    w.Reached .hexadecimal ∧ w.solids[1]? = some (.sweep s 0) ∧ s.base.isDeleted = false ∧
    w.solids[0]? = some (.layer l) ∧ l.base.isDeleted = false ∧ s.vector = ⟨1, 0, 3⟩ ∧
    ∃ voxels vertices edges fill i' w' s' points, l.base.absolute = .ok voxels ∧
      l.absoluteVertices = .ok vertices ∧ l.edgeVoxels = .ok edges ∧
      traceOutline vertices true w.issuer = .ok fill i' ∧ extrude 1 true w = .ok () w' ∧
      w'.solids[1]? = some (.sweep s' 0) ∧ w'.solids[0]? = some (.layer l) ∧
      s'.base.absolute = .ok points ∧ points.Nodup ∧
      ∀ x, x ∈ points ↔ x ∈ Sweep.shellForm s.vector voxels edges fill := by
  obtain ⟨w₀, hw₀, s, l, hs, hlive, hvector, hl, hlayer, hvertices, horigin⟩ :
      ∃ w₀ : World, w₀.Reached .hexadecimal ∧ ∃ (s : Sweep) (l : Layer),
        w₀.solids[1]? = some (.sweep s 0) ∧ s.base.isDeleted = false ∧ s.vector = ⟨1, 0, 3⟩ ∧
        w₀.solids[0]? = some (.layer l) ∧ l.base.isDeleted = false ∧
        l.vertices = [⟨0, 0, 0⟩, ⟨2, 1, 0⟩] ∧ l.base.origin = ⟨1, 0, 0⟩ := by
    refine exists_reached [.createLayer [1, 0, 0] [[0, 0, 0], [2, 1, 0]],
      .createSweep [5, 0, 0] [1, 0, 3] (some 0)] (by cbv) ?_
    exact ⟨_, _, rfl, rfl, rfl, rfl, rfl, rfl, rfl⟩
  obtain ⟨base, htrace, hbase, -, horigin₁, hfill₁⟩ := Layer.exists_generateEdges hlayer
    (by rw [hvertices, horigin]; decide)
  let l₁ : Layer := { l with base, edges := Layer.namedEdges l.vertices }
  let w : World := put 0 (.layer l₁) w₀
  have hstep : (Operation.generateEdges 0).run w₀ = .ok () w := onLayer_eq_ok.2
    ⟨l, hl, onPartOf_eq_ok.2 ⟨w₀.issuer, l₁, Edit.onSecond_eq_ok.2 ⟨htrace, rfl⟩, rfl⟩⟩
  have hw : w.Reached .hexadecimal := hw₀.step _ hstep
  have hs₁ : w.solids[1]? = some (.sweep s 0) := (solids_put_of_ne (by decide) _ _).trans hs
  have hl₁ : w.solids[0]? = some (.layer l₁) := solids_put hl _
  have horigin₁ : l₁.base.origin = ⟨1, 0, 0⟩ := horigin₁.trans horigin
  have hlayer₁ : l₁.base.isDeleted = false := hbase.isLive
  obtain ⟨voxels, vertices, edges, hvoxels, hvertices₁, hedges, hsucceeds, hagrees⟩ :=
    extrude_agrees hs₁ hl₁ hlayer₁
  have hV : vertices = [⟨1, 0, 0⟩, ⟨3, 1, 0⟩] := by
    cases (Layer.absoluteVertices_eq_ok hlayer₁).symm.trans hvertices₁
    rw [horigin₁, show l₁.vertices = _ from hvertices]
    rfl
  have hstay : ∀ v ∈ vertices, v.InRange := by
    rw [hV]
    decide
  have hmove : ∀ v ∈ vertices, (v + s.vector).InRange := by
    rw [hV, hvector]
    decide
  have hmoved : ∀ v ∈ voxels, (v + s.vector).InRange := by
    obtain ⟨-, rfl⟩ := VoxelSet.absolute_eq_ok.1 hvoxels
    intro v hv
    obtain ⟨e, he, rfl⟩ := List.mem_map.1 hv
    rw [horigin₁, hvector, Voxel.add_assoc]
    rw [show l₁.base.fill = _ from hfill₁, hvertices] at he
    exact inRange_add_outlineFill (by decide) e he
  have hne : edges ≠ [] := by
    cases (Layer.edgeVoxels_eq_ok hlayer₁).symm.trans hedges
    rw [horigin₁, show l₁.edges = Layer.namedEdges _ from rfl, hvertices]
    decide
  obtain ⟨hfresh, hruns⟩ := hsucceeds .hexadecimal hw hlive hstay
  obtain ⟨fill, i', hfill⟩ := hfresh w.issuer
  obtain ⟨w', hrun⟩ := hruns true hmove hmoved fun _ _ => hne
  obtain ⟨s', points, hs', hl', hpoints, hnodup, -, hshell⟩ :=
    hagrees true w' fill w.issuer i' hrun hfill
  exact ⟨w, s, l₁, hw, hs₁, hlive, hl₁, hlayer₁, hvector, voxels, vertices, edges, fill, i', w', s',
    points, hvoxels, hvertices₁, hedges, hfill, hrun, hs', hl', hpoints, hnodup,
    hshell rfl (by rw [hvector]; decide)⟩

end World
end VoxelAlgebra
