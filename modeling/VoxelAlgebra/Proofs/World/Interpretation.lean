import VoxelAlgebra.Proofs.World.Operations

/-!
# Interpretations in a world

The names of a composite stand for the voxel sets of live objects. In every world that operations
lead to these are sound and apart from the composite, so an interpretation succeeds, and it gives
the composite exactly the value of its tree.

## Main definitions

* `World.exists_bound` — the sets that names stand for.
* `World.interpret_evaluates` — the value of an interpretation.
-/

namespace VoxelAlgebra.World

variable {w w' : World} {h : Handle} {names : List (String × Handle)} {bound : Bound}

/-- The names of objects can be read. -/
theorem exists_bound (hnames : ∀ e ∈ names, ∃ o, w.solids[e.2]? = some o) :
    ∃ bound, World.bound names w = .ok bound w := by
  simp only [bound_eq_ok, true_and]
  induction names with
  | nil => exact ⟨[], .nil⟩
  | cons e rest ih =>
    obtain ⟨⟨o, ho⟩, hrest⟩ := List.forall_mem_cons.1 hnames
    obtain ⟨bound, hbound⟩ := ih hrest
    exact ⟨(e.1, o.base) :: bound, .cons ⟨rfl, o, ho, rfl⟩ hbound⟩

/-- The sets of other live objects are held elsewhere. -/
theorem mem_others_of_bound (hbound : World.bound names w = .ok bound w)
    (hnames : ∀ e ∈ names, e.2 ≠ h ∧ ∃ o, w.solids[e.2]? = some o ∧ o.base.isDeleted = false) :
    ∀ s ∈ bound.sets, s ∈ w.others h := by
  intro s hs
  obtain ⟨e, he, o, ho, rfl⟩ := exists_object_of_bound hbound hs
  obtain ⟨hne, o', ho', hlive⟩ := hnames e he
  obtain rfl : o = o' := Option.some.inj (ho.symm.trans ho')
  refine mem_others ho hne ?_
  rw [Solid.sets_of_isLive hlive]
  exact List.mem_cons_self

theorem isSome_lookup_of_bound (hbound : World.bound names w = .ok bound w) {s : String}
    (hs : s ∈ names.map Prod.fst) : (bound.lookup s).isSome := by
  have hall := (bound_eq_ok.1 hbound).2
  clear hbound
  induction hall with
  | nil => cases hs
  | @cons e b names bound hb _ ih =>
    rw [List.lookup_cons]
    by_cases hsb : s = b.1
    · simp [hsb]
    · have hs : s ∈ names.map Prod.fst := by simpa [← hb.1, hsb] using hs
      simp only [beq_eq_false_iff_ne.2 hsb, ih hs]

/-- In every world that operations lead to, a live composite whose names stand for other live
objects can be interpreted, whatever tree over its names it has. Its voxels are then the value of
the tree, and they are different if those of every named object are. -/
theorem interpret_evaluates {source : IdSource} (hw : w.Reached source) {c : Composite}
    (hc : w.solids[h]? = some (.composite c names)) (hlive : c.base.isDeleted = false)
    (hnames : ∀ e ∈ names, e.2 ≠ h ∧ ∃ o, w.solids[e.2]? = some o ∧ o.base.isDeleted = false)
    {items : List Datum} (htree : c.equation.tree = .list items)
    (hitems : (Datum.list items).IsTree (· ∈ names.map Prod.fst)) :
    ∃ bound w' c' voxels, World.bound names w = .ok bound w ∧
      onComposite h Composite.interpret w = .ok () w' ∧
      w'.solids[h]? = some (.composite c' names) ∧ c'.base.absolute = .ok voxels ∧
      (Datum.list items).Evaluates bound.union bound.value? {v | v ∈ voxels} ∧
      ((∀ b ∈ bound, b.2.absoluteFill.Nodup) → voxels.Nodup) := by
  obtain ⟨bound, hbound⟩ := exists_bound fun e he => (hnames e he).2.imp fun _ => And.left
  have howns : w.issuer.Owns ∅ (c.sets ++ w.others h) := by
    have howns := hw.isSound.owns hc
    rwa [Solid.sets_of_isLive (o := .composite c names) hlive] at howns
  obtain ⟨A, i', c', hrun, hA, hc'⟩ := Composite.exists_interpret howns
    (mem_others_of_bound hbound hnames) htree
    (hitems.mono fun s => isSome_lookup_of_bound hbound)
  refine ⟨bound, put h (.composite c' names) { w with issuer := i' }, c', c'.base.absoluteFill,
    hbound, ?_, solids_put hc _,
    VoxelSet.absolute_eq_ok.2 ⟨hc'.isSound.isLive, rfl⟩, ?_, fun hnodup => ?_⟩
  · simp only [onComposite, Edit.bind_eq_ok, solid_eq_ok]
    refine ⟨_, w, ⟨hc, rfl⟩, ?_⟩
    rw [Edit.bind_eq_ok]
    exact ⟨bound, w, hbound, onPartOf_eq_ok.2 ⟨i', c', hrun, rfl⟩⟩
  · rw [← hc'.voxels] at hA
    exact hA
  · exact hc'.nodup (List.forall_mem_map.2 hnodup)

/-- A composite at the zero origin that is the difference of the universe and one set, where the set
has its voxels at another origin. -/
theorem interpret_evaluates_difference : ∃ (w : World) (c : Composite),
    w.Reached .hexadecimal ∧ w.solids[1]? = some (.composite c [("a", 0)]) ∧
    c.base.isDeleted = false ∧
    (∀ e ∈ [("a", 0)], e.2 ≠ 1 ∧ ∃ o, w.solids[e.2]? = some o ∧ o.base.isDeleted = false) ∧
    c.equation.tree = .list [.text "Ω", .text "-", .text "a"] ∧
    (Datum.list [.text "Ω", .text "-", .text "a"]).IsTree (· ∈ [("a", 0)].map Prod.fst) ∧
    ∃ bound w' c' voxels, World.bound [("a", 0)] w = .ok bound w ∧
      onComposite 1 Composite.interpret w = .ok () w' ∧
      w'.solids[1]? = some (.composite c' [("a", 0)]) ∧ c'.base.absolute = .ok voxels ∧
      (Datum.list [.text "Ω", .text "-", .text "a"]).Evaluates bound.union bound.value?
        {v | v ∈ voxels} ∧
      ((∀ b ∈ bound, b.2.absoluteFill.Nodup) → voxels.Nodup) := by
  obtain ⟨w, hw, c, s, hc, hs, hlive, hslive, htree⟩ :
      ∃ w : World, w.Reached .hexadecimal ∧ ∃ (c : Composite) (s : VoxelSet),
        w.solids[1]? = some (.composite c [("a", 0)]) ∧ w.solids[0]? = some (.set s) ∧
        c.base.isDeleted = false ∧ s.isDeleted = false ∧
        c.equation.tree = .list [.text "Ω", .text "-", .text "a"] := by
    refine exists_reached [.createSet [0, 0, 1] [], .createComposite [0, 0, 0] [("a", 0)],
      .setFill 0 [[0, 0, 0], [1, 0, 0]], .setTree 1 (.list [.text "Ω", .text "-", .text "a"])]
      (by cbv) ?_
    exact ⟨_, _, rfl, rfl, rfl, rfl, rfl⟩
  have hnames : ∀ e ∈ [("a", 0)], e.2 ≠ 1 ∧ ∃ o, w.solids[e.2]? = some o ∧
      o.base.isDeleted = false := by
    simpa using ⟨_, hs, hslive⟩
  have htree' : (Datum.list [.text "Ω", .text "-", .text "a"]).IsTree
      (· ∈ [("a", 0)].map Prod.fst) :=
    .binary rfl (.leaf (.inl rfl)) (.leaf (.inr (.inr (by simp))))
  exact ⟨w, c, hw, hc, hlive, hnames, htree, htree',
    interpret_evaluates hw hc hlive hnames htree htree'⟩

end VoxelAlgebra.World
