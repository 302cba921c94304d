import VoxelAlgebra.Proofs.Solid.Moving
import VoxelAlgebra.Proofs.World.Drawing

/-!
# Objects at other origins

When an object is moved by a vector, everything that is derived from its voxels goes along, and a
moved point is found where the point was found before. This needs a derived state that is that of
the voxels; an addition that was refused behind its first row leaves another one, until the move
works it out anew. How a layer is drawn does not depend on its origin.

## Main definitions

* `World.exists_drawings` — layers at two origins are drawn alike.
* `World.setOrigin_moves` — an object that is moved, and layers at two origins.
-/

namespace VoxelAlgebra

/-- A live layer in range whose derived state is that of its voxels can be drawn. -/
theorem Layer.isDrawable_of_isSound {l : Layer} (hl : l.base.IsSound)
    (hfill : ∀ v ∈ l.base.fill, v.InRange) (hvertices : ∀ v ∈ l.vertices, v.InRange)
    (habsolute : ∀ v ∈ l.vertices, (v + l.base.origin).InRange) : l.IsDrawable l.base.fill :=
  ⟨hl.isLive, hfill, hl.derived, hvertices, habsolute⟩

namespace World

variable {w w' : World} {h h' : Handle} {o : Solid} {l l' : Layer} {known : List Voxel} {t : Voxel}

/-- Layers that are alike at their origins are drawn alike, whatever the steps are. -/
theorem exists_drawings (hl : w.solids[h]? = some (.layer l))
    (hl' : w'.solids[h']? = some (.layer l')) (halike : l.AreAlike known l')
    (drawings : List Layer.Drawing) :
    ∃ v v' m m', runAll (drawings.map (Layer.Drawing.operation h)) w = .ok () v ∧
      runAll (drawings.map (Layer.Drawing.operation h')) w' = .ok () v' ∧
      v.solids[h]? = some (.layer m) ∧ v'.solids[h']? = some (.layer m') ∧
      m'.base.fill = m.base.fill := by
  induction drawings generalizing w w' l l' known with
  | nil => exact ⟨w, w', l, l', rfl, rfl, hl, hl', halike.fill⟩
  | cons drawing drawings ih =>
    obtain ⟨w₁, l₁, hrun₁, hl₁, hgives₁⟩ := exists_draw hl halike.left drawing
    obtain ⟨w₁', l₁', hrun₁', hl₁', hgives₁'⟩ := exists_draw hl' halike.right drawing
    obtain ⟨v, v', m, m', hrun, hrun', hm, hm', hfill⟩ :=
      ih hl₁ hl₁' (halike.of_gives hgives₁ hgives₁')
    refine ⟨v, v', m, m', ?_, ?_, hm, hm', hfill⟩
    · rw [List.map_cons, runAll, Edit.bind_eq_ok]
      exact ⟨(), w₁, hrun₁, hrun⟩
    · rw [List.map_cons, runAll, Edit.bind_eq_ok]
      exact ⟨(), w₁', hrun₁', hrun'⟩

/-- In a world that successful operations lead to, every live object is sound. -/
theorem Reached.isSound_base {source : IdSource} (hw : w.Reached source)
    (ho : w.solids[h]? = some o) (hlive : o.base.isDeleted = false) : o.base.IsSound :=
  (hw.isSound.owns_of_isLive ho hlive).isSound _ List.mem_cons_self

/-- A live object with voxels in range, before and after, can be moved by a vector. Its derived
state goes along if and only if it was that of the voxels; so it is wherever operations have led to
that all succeeded. Layers with the same vertices, voxels and slices relative to their origins get
the same voxels relative to these by all sequences of tracing and filling. -/
theorem setOrigin_moves (ho : w.solids[h]? = some o) (hlive : o.base.isDeleted = false)
    (hbefore : ∀ v ∈ o.base.absoluteFill, v.InRange)
    (hafter : ∀ v ∈ o.base.absoluteFill, (v + t).InRange) :
    (∃ w' s, (Operation.setOrigin h [.whole (o.base.origin + t).x, .whole (o.base.origin + t).y,
        .whole (o.base.origin + t).z]).run w = .ok () w' ∧
      w'.solids[h]? = some (o.withBase s) ∧ s.origin = o.base.origin + t ∧
      s.fill = o.base.fill ∧
      (o.base.IsMoved t s ↔ Derived.of o.base.absoluteFill = .ok o.base.derived) ∧
      ∀ source, w.Reached source → o.base.IsMoved t s) ∧
    ∀ (v v' : World) (k k' : Handle) (l l' : Layer) (known : List Voxel),
      v.solids[k]? = some (.layer l) → v'.solids[k']? = some (.layer l') →
      l.AreAlike known l' → ∀ drawings : List Layer.Drawing,
      ∃ v₁ v₁' m m', runAll (drawings.map (Layer.Drawing.operation k)) v = .ok () v₁ ∧
        runAll (drawings.map (Layer.Drawing.operation k')) v' = .ok () v₁' ∧
        v₁.solids[k]? = some (.layer m) ∧ v₁'.solids[k']? = some (.layer m') ∧
        m'.base.fill = m.base.fill := by
  refine ⟨?_, fun v v' k k' l l' known => exists_drawings⟩
  obtain ⟨s, hrun, -, horigin, hfill, hderived⟩ := VoxelSet.exists_setOriginFrom hlive hafter
  have hmoved := VoxelSet.isMoved_iff hbefore hderived
  have hpart : onPartOf h o.base (fun base => o.withBase base)
      (Edit.onSecond (VoxelSet.setOriginFrom [.whole (o.base.origin + t).x,
        .whole (o.base.origin + t).y, .whole (o.base.origin + t).z])) w =
      .ok () (put h (o.withBase s) w) :=
    onPartOf_eq_ok.2 ⟨w.issuer, s, Edit.onSecond_eq_ok.2 ⟨hrun, rfl⟩, rfl⟩
  refine ⟨put h (o.withBase s) w, s, ?_, solids_put ho _, horigin, hfill, hmoved, ?_⟩
  · exact onSet_eq_ok.2 ⟨o, ho, hpart⟩
  · intro source hw
    exact hmoved.2 (hw.isSound_base ho hlive).derived

/-- Two tilted triangles at different origins are drawn alike, and the one at the zero origin can be
moved. After an addition that is refused behind its first row, its derived state does not go along,
as the move takes the added voxel into account. -/
theorem setOrigin_moves_refused : ∃ (w w₁ : World) (l l' l₁ : Layer) (e : Fault),
    w.Reached .hexadecimal ∧ w.solids[0]? = some (.layer l) ∧ w.solids[1]? = some (.layer l') ∧
    l.base.origin = .zero ∧ l'.base.origin = ⟨7, 0, -2⟩ ∧
    (∃ w' s, (Operation.setOrigin 0 [0, 0, 1]).run w = .ok () w' ∧
      w'.solids[0]? = some ((Solid.layer l).withBase s) ∧ l.base.IsMoved ⟨0, 0, 1⟩ s) ∧
    (∃ v v' m m', runAll [.fillPolygon 0, .generateEdges 0, .fillPolygon 0] w = .ok () v ∧
      runAll [.fillPolygon 1, .generateEdges 1, .fillPolygon 1] w = .ok () v' ∧
      v.solids[0]? = some (.layer m) ∧ v'.solids[1]? = some (.layer m') ∧
      m'.base.fill = m.base.fill) ∧
    (Operation.addFill 0 [[4, 0, 0], [2]]).run w = .error e w₁ ∧
    w₁.solids[0]? = some (.layer l₁) ∧
    ∃ w' s, (Operation.setOrigin 0 [0, 0, 1]).run w₁ = .ok () w' ∧
      w'.solids[0]? = some ((Solid.layer l₁).withBase s) ∧ ¬l₁.base.IsMoved ⟨0, 0, 1⟩ s := by
  obtain ⟨w, hw, w₁, l, l', l₁, e, hl, hl', hvertices, hvertices', hfill, hfill', horigin,
      horigin', hlive, hlive', hrefused, hl₁, hlive₁, hfill₁, horigin₁, hbox₁⟩ :
      ∃ w : World, w.Reached .hexadecimal ∧ ∃ (w₁ : World) (l l' l₁ : Layer) (e : Fault),
        w.solids[0]? = some (.layer l) ∧ w.solids[1]? = some (.layer l') ∧
        l.vertices = [⟨0, 0, 0⟩, ⟨3, 0, 1⟩, ⟨1, 2, 4⟩] ∧
        l'.vertices = [⟨0, 0, 0⟩, ⟨3, 0, 1⟩, ⟨1, 2, 4⟩] ∧
        l.base.fill = [⟨0, 0, 0⟩, ⟨3, 0, 1⟩, ⟨1, 2, 4⟩] ∧
        l'.base.fill = [⟨0, 0, 0⟩, ⟨3, 0, 1⟩, ⟨1, 2, 4⟩] ∧
        l.base.origin = .zero ∧ l'.base.origin = ⟨7, 0, -2⟩ ∧
        l.base.isDeleted = false ∧ l'.base.isDeleted = false ∧
        (Operation.addFill 0 [[4, 0, 0], [2]]).run w = .error e w₁ ∧
        w₁.solids[0]? = some (.layer l₁) ∧ l₁.base.isDeleted = false ∧
        l₁.base.fill = [⟨0, 0, 0⟩, ⟨3, 0, 1⟩, ⟨1, 2, 4⟩, ⟨4, 0, 0⟩] ∧ l₁.base.origin = .zero ∧
        l₁.base.derived.box = some (Box.ofExtents ⟨⟨0, 0, 0⟩, ⟨3, 2, 4⟩⟩) := by
    refine exists_reached [.createLayer [0, 0, 0] [[0, 0, 0], [3, 0, 1], [1, 2, 4]],
      .createLayer [7, 0, .whole (-2)] [[0, 0, 0], [3, 0, 1], [1, 2, 4]]] (by cbv) ?_
    exact ⟨_, _, _, _, _, rfl, rfl, rfl, rfl, rfl, rfl, rfl, rfl, rfl, rfl, by cbv, by rfl, by rfl,
      by rfl, by rfl, by rfl⟩
  have hdrawable : l.IsDrawable l.base.fill :=
    Layer.isDrawable_of_isSound (hw.isSound_base hl hlive) (by rw [hfill]; decide)
      (by rw [hvertices]; decide) (by rw [hvertices, horigin]; decide)
  have hdrawable' : l'.IsDrawable l'.base.fill :=
    Layer.isDrawable_of_isSound (hw.isSound_base hl' hlive') (by rw [hfill']; decide)
      (by rw [hvertices']; decide) (by rw [hvertices', horigin']; decide)
  have halike : l.AreAlike l.base.fill l' := by
    rw [hfill'] at hdrawable'
    rw [hfill] at hdrawable ⊢
    exact ⟨hdrawable, hdrawable', hvertices'.trans hvertices.symm, hfill'.trans hfill.symm⟩
  have hzero : (Solid.layer l).base.origin = .zero := horigin
  have hzero₁ : (Solid.layer l₁).base.origin = .zero := horigin₁
  have habsolute : (Solid.layer l).base.absoluteFill = [⟨0, 0, 0⟩, ⟨3, 0, 1⟩, ⟨1, 2, 4⟩] :=
    (VoxelSet.absoluteFill_of_zero hzero).trans hfill
  have habsolute₁ : (Solid.layer l₁).base.absoluteFill =
      [⟨0, 0, 0⟩, ⟨3, 0, 1⟩, ⟨1, 2, 4⟩, ⟨4, 0, 0⟩] :=
    (VoxelSet.absoluteFill_of_zero hzero₁).trans hfill₁
  obtain ⟨⟨w', s, hrun, hs, -, -, -, hmoved⟩, hdrawings⟩ :=
    setOrigin_moves (o := .layer l) (t := ⟨0, 0, 1⟩) hl hlive (by rw [habsolute]; decide)
      (by rw [habsolute]; decide)
  obtain ⟨⟨w₁', s₁, hrun₁, hs₁, -, -, hmoved₁, -⟩, -⟩ :=
    setOrigin_moves (o := .layer l₁) (t := ⟨0, 0, 1⟩) hl₁ hlive₁ (by rw [habsolute₁]; decide)
      (by rw [habsolute₁]; decide)
  rw [hzero] at hrun
  rw [hzero₁] at hrun₁
  refine ⟨w, w₁, l, l', l₁, e, hw, hl, hl', horigin, horigin', ⟨w', s, hrun, hs, hmoved _ hw⟩,
    hdrawings w w 0 1 l l' _ hl hl' halike [.fill, .trace, .fill], hrefused, hl₁, w₁', s₁, hrun₁,
    hs₁, fun h => ?_⟩
  -- the box of the derived state does not hold the added voxel
  obtain ⟨-, ⟨hnil, -⟩ | ⟨box, hbox⟩⟩ := Derived.of_eq_ok (hmoved₁.1 h)
  · rw [habsolute₁] at hnil
    cases hnil
  · have hboxes : Box.ofExtents ⟨⟨0, 0, 0⟩, ⟨3, 2, 4⟩⟩ = Box.ofExtents box :=
      Option.some.inj (hbox₁.symm.trans hbox.box)
    have hextents : (⟨⟨0, 0, 0⟩, ⟨3, 2, 4⟩⟩ : Extents) = box := congrArg Box.extents hboxes
    have hadded := hbox.isLeast.holds ⟨4, 0, 0⟩ (by rw [habsolute₁]; decide) .x
    rw [← hextents] at hadded
    exact absurd hadded.2 (by decide)

end World
end VoxelAlgebra
