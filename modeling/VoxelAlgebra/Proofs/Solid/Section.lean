import VoxelAlgebra.Proofs.Solid.Composite
import VoxelAlgebra.Proofs.Solid.HullSlices
import VoxelAlgebra.Solid.Loft

/-!
# Building a section

A section grows line by line. The voxels that a line adds are found by interpreting the difference
of the line and the section, and they are exactly the missing ones, so every line of the section
stays in it. The hulls of the slices then take the place of the section.

## Main definitions

* `Loft.Draft.IsAtHand`, `Loft.Draft.IsPrepared` — what holds while a section is built.
* `Loft.Draft.exists_prepare`, `Loft.Draft.exists_addSegment` — adding a line.
* `Loft.Draft.exists_hullSection` — the hulls of the slices.
-/

namespace VoxelAlgebra.Loft

open Equation (Denotes)

variable {held : Set String} {others : List VoxelSet}

namespace Draft

/-- The sets of a draft are at hand beside others. -/
def Owns (held : Set String) (others : List VoxelSet) (d : Draft) : Prop :=
  d.1.1.Owns held (d.1.2.composite.sets ++ d.1.2.line :: d.2 :: others)

/-- A fresh set becomes the section. -/
theorem owns_of_fresh {i : Issuer} {w : Workshop} {fresh : VoxelSet}
    (h : i.Owns held (fresh :: (w.composite.sets ++ w.line :: others))) :
    Owns held others ((i, w), fresh) := by
  refine h.perm ?_
  have hmiddle : ((w.composite.sets ++ [w.line]) ++ fresh :: others).Perm
      (fresh :: ((w.composite.sets ++ [w.line]) ++ others)) := List.perm_middle
  simpa using hmiddle.symm

/-- A changed section takes the place of the section. -/
theorem Owns.change {p : Issuer × Workshop} {s t : VoxelSet} (h : Owns held others (p, s))
    (ht : t.IsSound) (hid : t.id = s.id) : Owns held others (p, t) := by
  have hlist : ∀ s : VoxelSet, p.2.composite.sets ++ p.2.line :: s :: others =
      p.2.composite.sets ++ [p.2.line] ++ s :: others := fun s => by simp
  unfold Owns at h ⊢
  rw [hlist] at h ⊢
  exact h.change_middle ht hid

/-- A draft whose sets are at hand, with the line and the section at the zero origin. -/
structure IsAtHand (held : Set String) (others : List VoxelSet) (d : Draft) : Prop where
  owns : d.Owns held others
  line : d.1.2.line.origin = .zero
  origin : d.2.origin = .zero

/-- A draft whose composite has the equation "line without section". -/
structure IsPrepared (held : Set String) (others : List VoxelSet) (d : Draft) : Prop
    extends IsAtHand held others d where
  tree : IsTreeOf (d.1.2.line.id ++ "-" ++ d.2.id) d.1.2.composite.equation.tree

variable {d : Draft}

namespace IsAtHand

theorem isSound_line (h : IsAtHand held others d) : d.1.2.line.IsSound :=
  h.owns.isSound _ (by simp)

theorem isSound (h : IsAtHand held others d) : d.2.IsSound := h.owns.isSound _ (by simp)

theorem areApart (h : IsAtHand held others d) :
    VoxelSet.AreApart held (d.1.2.line :: d.2 :: others) :=
  (VoxelSet.areApart_append.1 h.owns.toAreApart).2

theorem mem_of_mem_bound {s : VoxelSet} (hs : s ∈ d.bound.sets) :
    s ∈ d.1.2.line :: d.2 :: others := by
  obtain rfl | rfl : s = d.2 ∨ s = d.1.2.line := by simpa [bound, Bound.sets] using hs
  · exact List.mem_cons_of_mem _ List.mem_cons_self
  · exact List.mem_cons_self

/-- The equation stands for the voxels of the line that the section does not have. -/
theorem denotes (h : IsAtHand held others d) :
    Denotes d.bound.union d.bound.value? .expression (d.1.2.line.id ++ "-" ++ d.2.id).toList
      (d.1.2.line.voxels \ d.2.voxels) := by
  obtain ⟨⟨-, hline, -, hne⟩, hsection⟩ := VoxelSet.areApart_cons.1 h.areApart
  have hsection := (VoxelSet.areApart_cons.1 hsection).1.2.1
  have hne : d.1.2.line.id ≠ d.2.id := fun hid => hne ⟨d.2, List.mem_cons_self, hid.symm⟩
  refine denotes_diff hline hsection ?_ ?_
  · simp [Bound.value?, bound, List.lookup_cons, beq_eq_false_iff_ne.2 hne]
  · simp [Bound.value?, bound]

end IsAtHand

/-- The composite takes up the equation. -/
theorem exists_prepare (h : IsAtHand held others d) :
    ∃ d', prepare d = .ok () d' ∧ IsPrepared held others d' ∧ d'.2 = d.2 := by
  obtain ⟨⟨i, w⟩, s⟩ := d
  obtain ⟨i₁, cache, hreset, howns₁⟩ :=
    Composite.exists_resetCache _ h.owns fun s hs => IsAtHand.mem_of_mem_bound hs
  obtain ⟨e, hset, htree⟩ := Composite.exists_setEquation i₁
    (c := { w.composite with cache := some cache })
    (howns₁.isSound w.composite.base List.mem_cons_self).isLive h.denotes.derives
  refine ⟨((i₁, ⟨w.line, { w.composite with cache := some cache, equation := e }⟩), s), ?_,
    ⟨⟨howns₁, h.line, h.origin⟩, htree⟩, rfl⟩
  simp only [prepare, onComposite, Workshop.onComposite, Edit.get_bind, Edit.onFirst_eq_ok,
    Edit.onPart_eq_ok, Edit.bind_eq_ok]
  exact ⟨⟨_, ⟨(), _, hreset, hset⟩, rfl⟩, trivial⟩

/-- A segment adds exactly its voxels. -/
theorem exists_addSegment {start finish : Voxel} (h : IsPrepared held others d)
    (hrange : ∀ v ∈ segment start finish, v.InRange) :
    ∃ d', addSegment start finish d = .ok () d' ∧ IsPrepared held others d' ∧
      ∀ v, v ∈ d'.2.voxels ↔ v ∈ d.2.voxels ∨ v ∈ segment start finish := by
  obtain ⟨⟨i, w⟩, s⟩ := d
  obtain ⟨line, hline, hsound₁, hid₁, horigin₁, hfill₁⟩ := VoxelSet.exists_setFill
    (segment start finish) h.isSound_line.isLive fun v hv => by
      rw [h.line, Voxel.add_zero]
      exact hrange v hv
  have habsolute : line.absoluteFill = segment start finish :=
    (VoxelSet.absoluteFill_of_zero (horigin₁.trans h.line)).trans hfill₁
  let d₁ : Draft := ((i, { w with line := line }), s)
  have h₁ : IsPrepared held others d₁ :=
    ⟨⟨h.owns.change_middle hsound₁ hid₁, horigin₁.trans h.line, h.origin⟩,
      (congrArg (fun id => id ++ "-" ++ s.id) hid₁).symm ▸ h.tree⟩
  obtain ⟨i₂, c, hinterpret, hc⟩ := Composite.exists_interpret_text h₁.owns
    (fun s hs => IsAtHand.mem_of_mem_bound hs) h₁.tree h₁.denotes
  have hnew : ∀ v, v ∈ c.base.absoluteFill ↔ v ∈ segment start finish ∧ v ∉ s.absoluteFill := by
    intro v
    rw [← VoxelSet.mem_voxels, hc.voxels, ← habsolute]
    rfl
  have hs : s.absoluteFill = s.fill := VoxelSet.absoluteFill_of_zero h.origin
  obtain ⟨s', hadd, hsound', hid', horigin', hfill'⟩ := VoxelSet.exists_addFill
    c.base.absoluteFill h.isSound.isLive fun v hv => by
      rw [h.origin, Voxel.add_zero]
      obtain hv | hv := List.mem_append.1 hv
      · exact h.isSound.inRange v (hs ▸ hv)
      · exact hrange v ((hnew v).1 hv).1
  have howns' : Owns held others ((i₂, ⟨line, c⟩), s') := Owns.change hc.owns hsound' hid'
  refine ⟨((i₂, ⟨line, c⟩), s'), ?_, ⟨⟨howns', h₁.line, horigin'.trans h.origin⟩, ?_⟩, fun v => ?_⟩
  · simp only [addSegment, onLine, onComposite, Workshop.onComposite, Edit.bind_eq_ok,
      Edit.get_bind, Edit.onFirst_eq_ok, Edit.onSecond_eq_ok, Edit.onPart_eq_ok,
      Edit.ofExcept_eq_ok, VoxelSet.absolute_eq_ok]
    exact ⟨(), d₁, ⟨⟨⟨line, hline, rfl⟩, rfl⟩, rfl⟩, (), ((i₂, ⟨line, c⟩), s),
      ⟨⟨(i₂, c), hinterpret, rfl⟩, rfl⟩, _, _, ⟨⟨hc.isSound.isLive, rfl⟩, rfl⟩, hadd, rfl⟩
  · rw [show c.equation = w.composite.equation from hc.equation, hid']
    exact h₁.tree
  · rw [VoxelSet.mem_voxels, VoxelSet.absoluteFill_of_zero (horigin'.trans h.origin), hfill',
      List.mem_append, hnew, VoxelSet.mem_voxels, hs]
    tauto

/-- The hulls of the slices take the place of the section, each voxel once. -/
theorem exists_hullSection (shell : Bool) (h : IsAtHand held others d) :
    ∃ d', hullSection shell d = .ok () d' ∧ IsAtHand held others d' ∧ d'.2.absoluteFill.Nodup ∧
      IsHulled d.2.derived.axes.first (!shell) d.2.derived.directory d'.2.absoluteFill := by
  obtain ⟨⟨i, w⟩, s⟩ := d
  have hmem : ∀ entry ∈ s.derived.directory, ∀ v ∈ entry.2,
      v ∈ s.absoluteFill ∧ v.coord s.derived.axes.first = entry.1 :=
    fun entry hentry => mem_of_mem_directory h.isSound.derived hentry
  obtain ⟨voxels, i', hslices, howns, hrange, hhulled⟩ := exists_hullSlices (!shell) h.owns
    (fun entry hentry v hv => (hmem entry hentry v hv).2)
    fun entry hentry v hv => h.isSound.inRange v (hmem entry hentry v hv).1
  obtain ⟨s', hset, hsound', hid', horigin', hfill'⟩ := VoxelSet.exists_setFill
    (Voxel.distinct voxels) h.isSound.isLive fun v hv => by
      rw [h.origin, Voxel.add_zero]
      exact hrange v (Voxel.mem_distinct.1 hv)
  have howns' : Owns held others ((i', w), s') := Owns.change howns hsound' hid'
  have habsolute : s'.absoluteFill = Voxel.distinct voxels :=
    (VoxelSet.absoluteFill_of_zero (horigin'.trans h.origin)).trans hfill'
  refine ⟨((i', w), s'), ?_, ⟨howns', h.line, horigin'.trans h.origin⟩,
    habsolute ▸ Voxel.nodup_distinct voxels,
    hhulled.congr fun v => by rw [habsolute, Voxel.mem_distinct]⟩
  simp only [hullSection, Edit.bind_eq_ok, Edit.get_bind, Edit.onFirst_eq_ok, Edit.onSecond_eq_ok]
  exact ⟨voxels, ((i', w), s), ⟨⟨hslices, rfl⟩, rfl⟩, hset, rfl⟩

end Draft
end VoxelAlgebra.Loft
