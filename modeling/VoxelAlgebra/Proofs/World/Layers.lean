import VoxelAlgebra.Proofs.World.Operations

/-!
# The layers of a world

A layer is made with a vertex at least, and is given others only if there is one at least. Its edges
are dropped together with its vertices, and they are traced through the vertices that the layer has.
So in every world that operations lead to each layer has a vertex, and its edges, if there are any,
join its vertices.

## Main definitions

* `Layer.IsFormed` — a layer with a vertex, and edges that join its vertices.
* `World.isFormed_step`, `World.Reached.isFormed` — one operation, and all of them.
-/

namespace VoxelAlgebra

/-- A layer has a vertex, and if it has edges they are those of the outline through its vertices. -/
structure Layer.IsFormed (l : Layer) : Prop where
  ne_nil : l.vertices ≠ []
  edges : l.edges = [] ∨ l.edges = namedEdges l.vertices

/-- The edges of a layer stay in range wherever its vertices do. -/
theorem Layer.IsFormed.inRange {l : Layer} (h : l.IsFormed) {o : Voxel}
    (hrange : ∀ v ∈ l.vertices, (v + o).InRange) :
    ∀ entry ∈ l.edges, ∀ v ∈ entry.2, (v + o).InRange := by
  obtain hnil | hedges := h.edges
  · rw [hnil]
    exact fun entry hentry => absurd hentry List.not_mem_nil
  · rw [hedges]
    intro entry hentry v hv
    obtain ⟨i, hi, rfl⟩ := List.mem_mapIdx.1 hentry
    obtain ⟨s, e, hse, hpath⟩ := mem_outline.1 (List.getElem_mem hi)
    exact inRange_add_outlineFill hrange v (mem_outlineFill.2 ⟨s, e, hse, hpath ▸ hv⟩)

namespace Solid

def IsFormed : Solid → Prop
  | .layer l => l.IsFormed
  | _ => True

theorem IsFormed.withBase {o : Solid} (h : o.IsFormed) (s : VoxelSet) :
    (o.withBase s).IsFormed := by
  cases o with
  | layer l => exact ⟨h.ne_nil, h.edges⟩
  | set | line | composite | sweep | loft => exact trivial

end Solid

/-! ## Layers -/

namespace Layer

variable {l l' : Layer} {i i' : Issuer} {u : Unit}

theorem ne_nil_of_verticesFrom {rows : List (List Number)} {vertices : List Voxel}
    (h : verticesFrom rows = .ok vertices) : vertices ≠ [] := by
  unfold verticesFrom at h
  split_ifs at h with hempty
  rintro rfl
  exact hempty (List.isEmpty_iff.2 (List.forall₂_nil_right_iff.1 (except_mapM_eq_ok.1 h)))

theorem isFormed_of_createFrom {origin : List Number} {rows : List (List Number)}
    (h : createFrom origin rows i = .ok l i') : l.IsFormed := by
  simp only [createFrom, Edit.bind_eq_ok, Edit.ofExcept_eq_ok, Edit.pure_eq_ok] at h
  obtain ⟨vertices, _, ⟨hvertices, rfl⟩, _, _, -, _, _, -, rfl, -⟩ := h
  exact ⟨ne_nil_of_verticesFrom hvertices, .inl rfl⟩

theorem isFormed_of_changeVertices {rows : List (List Number)}
    (h : changeVertices rows l = .ok u l') : l'.IsFormed := by
  simp only [changeVertices, onBase, Edit.get_bind, Edit.bind_eq_ok, Edit.ofExcept_eq_ok,
    Edit.modify_eq_ok, Edit.onPart_eq_ok] at h
  obtain ⟨_, _, -, vertices, _, ⟨hvertices, -⟩, _, _, rfl, _, -, rfl⟩ := h
  exact ⟨ne_nil_of_verticesFrom hvertices, .inl rfl⟩

theorem IsFormed.of_generateEdges (hl : l.IsFormed) (h : generateEdges l = .ok u l') :
    l'.IsFormed := by
  simp only [generateEdges, onBase, Edit.get_bind, Edit.bind_eq_ok, Edit.ofExcept_eq_ok,
    Edit.set_eq_ok, Edit.onPart_eq_ok] at h
  obtain ⟨_, _, -, _, _, rfl, _, -, rfl⟩ := h
  exact ⟨hl.ne_nil, .inr rfl⟩

theorem IsFormed.of_fillPolygon (hl : l.IsFormed) (h : fillPolygon (i, l) = .ok u (i', l')) :
    l'.IsFormed := by
  simp only [fillPolygon, onBase, Edit.get_bind, Edit.bind_eq_ok, Edit.ofExcept_eq_ok,
    Edit.onFirst_eq_ok, Edit.onSecond_eq_ok, Edit.onPart_eq_ok] at h
  obtain ⟨_, _, ⟨-, rfl⟩, _, ⟨_, _⟩, ⟨-, rfl⟩, ⟨_, -, rfl⟩, -⟩ := h
  exact ⟨hl.ne_nil, hl.edges⟩

theorem IsFormed.of_release (hl : l.IsFormed) (h : l.release i = .ok l' i') : l'.IsFormed := by
  simp only [release, Edit.bind_eq_ok, Edit.pure_eq_ok] at h
  obtain ⟨_, _, -, rfl, -⟩ := h
  exact ⟨hl.ne_nil, .inl rfl⟩

end Layer

/-! ## Worlds -/

namespace World

variable {w w' : World} {h : Handle} {o : Solid} {u : Unit}

def IsFormed (w : World) : Prop := ∀ (h : Handle) (o : Solid), w.solids[h]? = some o → o.IsFormed

theorem isFormed_empty (source : IdSource) : (empty source).IsFormed := fun h o ho => by
  simp [empty] at ho

namespace IsFormed

theorem put (hw : w.IsFormed) (ho : o.IsFormed) (h : Handle) (i : Issuer) :
    (World.put h o { w with issuer := i }).IsFormed := by
  intro k o' hk
  obtain rfl | hk := eq_or_of_solids_put hk
  · exact ho
  · exact hw k o' hk

theorem of_created {i : Issuer} (hw : w.IsFormed) (ho : o.Created w.issuer i) :
    ({ issuer := i, solids := w.solids.push o } : World).IsFormed := by
  have hformed : o.IsFormed := by
    cases ho with
    | layer hcreate => exact Layer.isFormed_of_createFrom hcreate
    | set | line | composite | sweep | loft => exact trivial
  intro k o' hk
  rw [Array.getElem?_push] at hk
  split_ifs at hk
  · exact Option.some.inj hk ▸ hformed
  · exact hw k o' hk

theorem onPartOf {α τ : Type} {part : τ} {write : τ → Solid} {edit : Edit (Issuer × τ) α} {a : α}
    (hw : w.IsFormed) (hrun : World.onPartOf h part write edit w = .ok a w')
    (hedit : ∀ i p, edit (w.issuer, part) = .ok a (i, p) → (write p).IsFormed) : w'.IsFormed := by
  obtain ⟨i, p, hpart, rfl⟩ := onPartOf_eq_ok.1 hrun
  exact hw.put (hedit i p hpart) h i

theorem onSet {edit : Edit VoxelSet Unit} (hw : w.IsFormed)
    (hrun : World.onSet h edit w = .ok u w') : w'.IsFormed := by
  obtain ⟨o, ho, hrun⟩ := onSet_eq_ok.1 hrun
  exact hw.onPartOf hrun fun i s _ => (hw h o ho).withBase s

theorem onLine {edit : Edit Line Unit} (hw : w.IsFormed)
    (hrun : World.onLine h edit w = .ok u w') : w'.IsFormed := by
  obtain ⟨l, -, hrun⟩ := onLine_eq_ok.1 hrun
  exact hw.onPartOf hrun fun _ _ _ => trivial

theorem onLayer {edit : Edit (Issuer × Layer) Unit} (hw : w.IsFormed)
    (hedit : ∀ i i' l l', l.IsFormed → edit (i, l) = .ok u (i', l') → l'.IsFormed)
    (hrun : World.onLayer h edit w = .ok u w') : w'.IsFormed := by
  obtain ⟨l, hl, hrun⟩ := onLayer_eq_ok.1 hrun
  exact hw.onPartOf hrun fun i l' hlayer => hedit _ _ _ _ (hw h (.layer l) hl) hlayer

theorem onComposite {edit : Bound → Edit (Issuer × Composite) Unit} (hw : w.IsFormed)
    (hrun : World.onComposite h edit w = .ok u w') : w'.IsFormed := by
  obtain ⟨c, names, bound, -, -, hrun⟩ := onComposite_eq_ok.1 hrun
  exact hw.onPartOf hrun fun _ _ _ => trivial

theorem onLoft {edit : List Profile → Edit (Issuer × Loft) Unit} (hw : w.IsFormed)
    (hrun : World.onLoft h edit w = .ok u w') : w'.IsFormed := by
  obtain ⟨l, handles, profiles, -, -, hrun⟩ := onLoft_eq_ok.1 hrun
  exact hw.onPartOf hrun fun _ _ _ => trivial

theorem delete (hw : w.IsFormed) (hrun : World.delete h w = .ok u w') : w'.IsFormed := by
  obtain ⟨o, o', i, ho, hreleased, rfl⟩ := delete_eq_ok.1 hrun
  refine hw.put ?_ h i
  cases hreleased with
  | layer hrelease => exact Layer.IsFormed.of_release (hw h _ ho) hrelease
  | set | line | composite | sweep | loft => exact trivial

theorem changeNames {names : List (String × Handle)} (hw : w.IsFormed)
    (hrun : World.changeNames h names w = .ok u w') : w'.IsFormed := by
  obtain ⟨c, old, -, -, hreset⟩ := changeNames_eq_ok.1 hrun
  exact (hw.put (o := .composite c (bindNames names)) trivial h w.issuer).onComposite hreset

theorem changeSwept {swept : Handle} (hw : w.IsFormed)
    (hrun : World.changeSwept h swept w = .ok u w') : w'.IsFormed := by
  obtain ⟨s, old, o, -, -, -, hrun⟩ := changeSwept_eq_ok.1 hrun
  exact (hw.put (o := .sweep s swept) trivial h w.issuer).onPartOf hrun fun _ _ _ => trivial

end IsFormed

/-- Every successful operation leaves the layers formed. -/
theorem isFormed_step {op : Operation} (hw : w.IsFormed) (hrun : op.run w = .ok u w') :
    w'.IsFormed := by
  cases op with
  | createSet | createLine | createLayer | createComposite | createSweep | createLoft =>
    obtain ⟨o, i, hcreated, rfl⟩ := exists_created (by trivial) hrun
    exact hw.of_created hcreated
  | setOrigin | setFill | addFill | recompute => exact hw.onSet hrun
  | generateLine | changeEndpoints => exact hw.onLine hrun
  | changeVertices =>
    refine hw.onLayer (fun _ _ _ _ _ hlayer => ?_) hrun
    exact Layer.isFormed_of_changeVertices (Edit.onSecond_eq_ok.1 hlayer).1
  | generateEdges =>
    refine hw.onLayer (fun _ _ _ _ hl hlayer => ?_) hrun
    exact hl.of_generateEdges (Edit.onSecond_eq_ok.1 hlayer).1
  | fillPolygon => exact hw.onLayer (fun _ _ _ _ hl => hl.of_fillPolygon) hrun
  | changeNames => exact hw.changeNames hrun
  | setEquation | setTree | resetCache | interpret => exact hw.onComposite hrun
  | changeVector =>
    obtain ⟨_, _, _, -, -, hrun⟩ := changeVector_eq_ok.1 hrun
    exact hw.onPartOf hrun fun _ _ _ => trivial
  | changeSwept => exact hw.changeSwept hrun
  | extrude =>
    obtain ⟨_, _, _, -, -, hrun⟩ := extrude_eq_ok.1 hrun
    exact hw.onPartOf hrun fun _ _ _ => trivial
  | generateSections | resetSections => exact hw.onLoft hrun
  | delete => exact hw.delete hrun

/-- In every world that operations lead to the layers are formed. -/
theorem Reached.isFormed {source : IdSource} (hw : w.Reached source) : w.IsFormed := by
  induction hw with
  | empty => exact isFormed_empty source
  | step op _ hrun ih => exact isFormed_step ih hrun

end World
end VoxelAlgebra
