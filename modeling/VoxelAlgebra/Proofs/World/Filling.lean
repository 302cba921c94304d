import VoxelAlgebra.Proofs.Solid.RowFill
import VoxelAlgebra.Proofs.World.Calls

/-!
# Filling a flat layer in a world

In every world that calls lead to, a live layer whose voxels lie in a plane can be filled, and it
then has exactly the points between two voxels of a row. Filling it again changes nothing. Voxels
that an addition left behind when it was refused have no part in this: they are gone afterwards,
unless they lie in the rows of the others.

## Main definitions

* `World.fillPolygon_agrees` — the voxels of a filled layer.
-/

namespace VoxelAlgebra.World

variable {w w' : World} {h : Handle} {source : IdSource} {l : Layer} {behind : Prop}

/-- One filling of a layer whose slices are those of voxels of a plane. -/
theorem exists_fillPolygon {voxels : List Voxel} {c : Axis} {k : Int}
    (hl : w.solids[h]? = some (.layer l)) (hlive : l.base.isDeleted = false)
    (hknown : Derived.of voxels = .ok l.base.derived)
    (hrange : ∀ v ∈ voxels, (v - l.base.origin).InRange) (hflat : ∀ v ∈ voxels, v.coord c = k) :
    ∃ w' l', (Operation.fillPolygon h).run w = .ok () w' ∧
      w'.solids[h]? = some (.layer l') ∧ l'.base.IsSound ∧ (∀ v ∈ l'.base.fill, v.InRange) ∧
      l'.base.derived.axes = l.base.derived.axes ∧ l'.base.absoluteFill.Nodup ∧
      ∀ p, p ∈ l'.base.absoluteFill ↔ IsInRow l.base.derived.axes.first voxels p := by
  obtain ⟨base, i', hrun, hbase⟩ := Layer.exists_fillRows w.issuer hlive hknown hrange hflat
  exact ⟨_, { l with base }, onLayer_eq_ok.2 ⟨l, hl, onPartOf_eq_ok.2 ⟨i', _, hrun, rfl⟩⟩,
    solids_put hl _, hbase⟩

/-- A live layer whose voxels are in range and share a coordinate can be filled, wherever calls have
led to. The first of its voxels, which are all of them if and only if none were left behind, give
the filled ones: every point between two of them that have its coordinate on the slicing axis, each
once. A second filling succeeds and gives the same points. -/
theorem fillPolygon_agrees {voxels : List Voxel} {c : Axis} {k : Int}
    (hw : w.Led source h behind) (hl : w.solids[h]? = some (.layer l))
    (hvoxels : l.base.absolute = .ok voxels) (hrelative : ∀ v ∈ l.base.fill, v.InRange)
    (habsolute : ∀ v ∈ voxels, v.InRange) (hflat : ∀ v ∈ voxels, v.coord c = k) :
    ∃ known filled again w' l' w'' l'', known <+: voxels ∧ (known = voxels ↔ ¬behind) ∧
      (Operation.fillPolygon h).run w = .ok () w' ∧ w'.solids[h]? = some (.layer l') ∧
      l'.base.absolute = .ok filled ∧ filled.Nodup ∧
      (∀ p, p ∈ filled ↔ IsInRow l.base.derived.axes.first known p) ∧
      (Operation.fillPolygon h).run w' = .ok () w'' ∧ w''.solids[h]? = some (.layer l'') ∧
      l''.base.absolute = .ok again ∧ again.Nodup ∧ ∀ p, p ∈ again ↔ p ∈ filled := by
  obtain ⟨hlive, rfl⟩ := VoxelSet.absolute_eq_ok.1 hvoxels
  obtain ⟨known, hfirst, hknown, hall⟩ := hw.tracks.knows (.layer l) hl hlive habsolute
  obtain ⟨w', l', hrun, hl', hsound, hrange, haxes, hnodup, hfilled⟩ :=
    exists_fillPolygon hl hlive hknown
      (fun v hv => VoxelSet.inRange_sub_origin hrelative v (hfirst.subset hv))
      fun v hv => hflat v (hfirst.subset hv)
  -- The filled points lie in the plane of the voxels, so they can be filled as well.
  have hflat' : ∀ p ∈ l'.base.absoluteFill, p.coord c = k := by
    intro p hp
    obtain ⟨v, hv, u, hu, -, -, hbetween⟩ := (hfilled p).1 hp
    have hcoord := hbetween c
    rw [hflat v (hfirst.subset hv), hflat u (hfirst.subset hu)] at hcoord
    omega
  obtain ⟨w'', l'', hrun', hl'', hsound', -, -, hnodup', hagain⟩ :=
    exists_fillPolygon hl' hsound.isLive hsound.derived (VoxelSet.inRange_sub_origin hrange) hflat'
  refine ⟨known, _, _, w', l', w'', l'', hfirst, hall, hrun, hl',
    VoxelSet.absolute_eq_ok.2 ⟨hsound.isLive, rfl⟩, hnodup, hfilled, hrun', hl'',
    VoxelSet.absolute_eq_ok.2 ⟨hsound'.isLive, rfl⟩, hnodup', fun p => ?_⟩
  rw [hagain, haxes, isInRow_of_filled hfilled, hfilled]

/-- A layer away from the zero origin with a voxel that occurs twice is filled by one point. After
an addition that is refused behind its first row, the row is not filled and gets lost. -/
theorem fillPolygon_agrees_refused : ∃ (w w₁ : World) (l l₁ : Layer) (e : Fault),
    w.Led .hexadecimal 0 False ∧ w.solids[0]? = some (.layer l) ∧
    l.base.absolute = .ok [⟨5, 0, 0⟩, ⟨8, 0, 0⟩, ⟨8, 0, 0⟩, ⟨5, 2, 0⟩] ∧
    (∃ w' l' filled, (Operation.fillPolygon 0).run w = .ok () w' ∧
      w'.solids[0]? = some (.layer l') ∧ l'.base.absolute = .ok filled ∧ filled.Nodup ∧
      ⟨5, 1, 0⟩ ∈ filled) ∧
    (Operation.addFill 0 [[3, 2, 0], [1]]).run w = .error e w₁ ∧ w₁.Led .hexadecimal 0 True ∧
    w₁.solids[0]? = some (.layer l₁) ∧
    l₁.base.absolute = .ok [⟨5, 0, 0⟩, ⟨8, 0, 0⟩, ⟨8, 0, 0⟩, ⟨5, 2, 0⟩, ⟨8, 2, 0⟩] ∧
    ∃ w' l' filled, (Operation.fillPolygon 0).run w₁ = .ok () w' ∧
      w'.solids[0]? = some (.layer l') ∧ l'.base.absolute = .ok filled ∧ filled.Nodup ∧
      ⟨8, 2, 0⟩ ∉ filled := by
  obtain ⟨w, hreached, w₁, l, l₁, e, hl, hvoxels, hfill, haxis, hrefused, hl₁, hvoxels₁, hfill₁,
      haxis₁⟩ : ∃ w : World, w.Reached .hexadecimal ∧ ∃ (w₁ : World) (l l₁ : Layer) (e : Fault),
        w.solids[0]? = some (.layer l) ∧
        l.base.absolute = .ok [⟨5, 0, 0⟩, ⟨8, 0, 0⟩, ⟨8, 0, 0⟩, ⟨5, 2, 0⟩] ∧
        l.base.fill = [⟨0, 0, 0⟩, ⟨3, 0, 0⟩, ⟨3, 0, 0⟩, ⟨0, 2, 0⟩] ∧
        l.base.derived.axes.first = .x ∧
        (Operation.addFill 0 [[3, 2, 0], [1]]).run w = .error e w₁ ∧
        w₁.solids[0]? = some (.layer l₁) ∧
        l₁.base.absolute = .ok [⟨5, 0, 0⟩, ⟨8, 0, 0⟩, ⟨8, 0, 0⟩, ⟨5, 2, 0⟩, ⟨8, 2, 0⟩] ∧
        l₁.base.fill = [⟨0, 0, 0⟩, ⟨3, 0, 0⟩, ⟨3, 0, 0⟩, ⟨0, 2, 0⟩, ⟨3, 2, 0⟩] ∧
        l₁.base.derived.axes.first = .x := by
    refine exists_reached [.createLayer [5, 0, 0] [[0, 0, 0]],
      .setFill 0 [[0, 0, 0], [3, 0, 0], [3, 0, 0], [0, 2, 0]]] (by cbv) ?_
    exact ⟨_, _, _, _, rfl, rfl, rfl, rfl, by cbv, by rfl, by rfl, by rfl, by rfl⟩
  have hw : w.Led .hexadecimal 0 False := hreached.led 0
  have hw₁ : w₁.Led .hexadecimal 0 True := by
    have hbehind : (Operation.addFill 0 [[3, 2, 0], [1]]).LeavesBehind 0 w := by
      refine ⟨rfl, ⟨_, hl⟩, List.cons_ne_nil _ _, ?_⟩
      rintro ⟨_, hread⟩
      cases hread
    simpa [hbehind] using hw.error hrefused
  obtain ⟨known, filled, -, w', l', -, -, -, hall, hrun, hl', hpoints, hnodup, hfilled, -⟩ :=
    fillPolygon_agrees (c := .z) (k := 0) hw hl hvoxels (by rw [hfill]; decide) (by decide)
      (by decide)
  obtain ⟨known₁, filled₁, -, w₁', l₁', -, -, hfirst₁, hall₁, hrun₁, hl₁', hpoints₁, hnodup₁,
      hfilled₁, -⟩ :=
    fillPolygon_agrees (c := .z) (k := 0) hw₁ hl₁ hvoxels₁ (by rw [hfill₁]; decide) (by decide)
      (by decide)
  refine ⟨w, w₁, l, l₁, e, hw, hl, hvoxels, ⟨w', l', filled, hrun, hl', hpoints, hnodup, ?_⟩,
    hrefused, hw₁, hl₁, hvoxels₁, w₁', l₁', filled₁, hrun₁, hl₁', hpoints₁, hnodup₁, ?_⟩
  · rw [hfilled, haxis, hall.2 not_false]
    exact ⟨⟨5, 0, 0⟩, by decide, ⟨5, 2, 0⟩, by decide, rfl, rfl, fun a => by
      cases a <;> decide⟩
  · rw [hfilled₁, haxis₁]
    rintro ⟨_, _, u, hu, -, hrow, hbetween⟩
    -- No voxel in front of the row that was left behind is at its end.
    have hfront : known₁ <+: [⟨5, 0, 0⟩, ⟨8, 0, 0⟩, ⟨8, 0, 0⟩, ⟨5, 2, 0⟩] ++ [⟨8, 2, 0⟩] := hfirst₁
    obtain hknown | hfirst := List.prefix_concat_iff.1 hfront
    · exact hall₁.1 hknown trivial
    · have hrow : u.x = 8 := hrow.symm
      have hend : 2 ≤ u.y := (hbetween .y).2
      have hu := hfirst.subset hu
      simp only [List.mem_cons, List.not_mem_nil, or_false] at hu
      obtain rfl | rfl | rfl | rfl := hu
      all_goals simp at hrow hend

end VoxelAlgebra.World
