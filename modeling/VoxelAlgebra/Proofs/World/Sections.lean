import VoxelAlgebra.Proofs.World.Layers
import VoxelAlgebra.Proofs.World.Lofting

/-!
# The sections of lofts

A loft over layers has a section between every two consecutive ones. Each section has exactly the
box of the vertices of its two layers, with a voxel in every slice, and the loft has the box of all
vertices. What a hollow section has, the solid section between the same layers has too, whatever
happened in the world between the building of the two.

## Main definitions

* `VoxelSet.IsBoxed` — a set whose box is the least one around given voxels.
* `World.generateEdges_isBoxed` — the boxes of a loft and its sections.
* `World.generateEdges_subset` — a hollow and a solid loft over the same layers.
-/

namespace VoxelAlgebra

def VoxelSet.IsBoxed (s : VoxelSet) (voxels : List Voxel) : Prop :=
  ∃ e : Extents, e.IsLeast voxels ∧ s.derived.box = some (Box.ofExtents e)

theorem VoxelSet.IsSound.isBoxed {s : VoxelSet} {e : Extents} {voxels : List Voxel}
    (hs : s.IsSound) (he : e.IsLeast voxels) (he' : e.IsLeast s.absoluteFill) :
    s.IsBoxed voxels :=
  ⟨e, he, (Derived.describes_of_isLeast hs.derived he').box⟩

/-- Of at least two lists the pairs of consecutive ones have the elements of all. -/
theorem mem_flatten_pairs {α : Type} {lists : List (List α)} (h : 2 ≤ lists.length) {x : α} :
    x ∈ ((lists.zip lists.tail).map fun pair => pair.1 ++ pair.2).flatten ↔
      x ∈ lists.flatten := by
  match lists, h with
  | first :: second :: rest, _ =>
    induction rest generalizing first second with
    | nil => simp
    | cons third rest ih =>
      have hrest := ih second third (by simp)
      simp only [List.tail_cons, List.zip_cons_cons, List.map_cons, List.flatten_cons,
        List.mem_append] at hrest ⊢
      tauto

namespace Loft

variable {shell : Bool} {l : Loft} {vertices : List (List Voxel)}

/-- Sections between vertices have the extents of their vertices, and no empty slice. -/
theorem exists_isLeast_of_isSection (hne : ∀ vs ∈ vertices, vs ≠ [])
    (h : List.Forall₂ (fun pair e => IsSection shell pair.1 pair.2 e.2)
      (vertices.zip vertices.tail) l.sections) :
    List.Forall₂ (fun pair e => ∃ b : Extents, b.IsLeast (pair.1 ++ pair.2) ∧
        b.IsLeast e.2.absoluteFill ∧ e.2.IsSound ∧
        ∀ entry ∈ e.2.derived.directory, entry.2 ≠ [])
      (vertices.zip vertices.tail) l.sections := by
  have hpairs : ∀ pair ∈ vertices.zip vertices.tail, pair.1 ≠ [] ∧ pair.2 ≠ [] := fun pair hpair =>
    ⟨hne _ (List.of_mem_zip hpair).1, hne _ (List.mem_of_mem_tail (List.of_mem_zip hpair).2)⟩
  refine ((List.forall₂_and_left _ _).2 ⟨hpairs, h⟩).imp ?_
  rintro pair e ⟨⟨hstarts, hfinishes⟩, hsection⟩
  obtain ⟨b, hleast, hleast', hslices⟩ := hsection.exists_isLeast hstarts hfinishes
  exact ⟨b, hleast, hleast', hsection.isSound, hslices⟩

/-- A loft has the extents of all vertices if its sections have those of their vertices. -/
theorem IsBuilt.isLeast {b : Extents} {count : Nat} (h : IsBuilt count l)
    (hcount : 2 ≤ vertices.length) (hb : b.IsLeast vertices.flatten)
    (hsections : List.Forall₂
      (fun pair e => ∃ b : Extents, b.IsLeast (pair.1 ++ pair.2) ∧ b.IsLeast e.2.absoluteFill)
      (vertices.zip vertices.tail) l.sections) : b.IsLeast l.base.absoluteFill := by
  have hpairs : b.IsLeast ((vertices.zip vertices.tail).map fun pair => pair.1 ++ pair.2).flatten :=
    hb.congr fun v => (mem_flatten_pairs hcount).symm
  have hvoxels : b.IsLeast (l.sections.map fun e => e.2.absoluteFill).flatten :=
    hpairs.of_forall₂ <| by rwa [List.forall₂_map_left_iff, List.forall₂_map_right_iff]
  refine hvoxels.congr fun v => ?_
  rw [h.mem_iff]
  simp only [List.mem_flatten, List.mem_map, exists_exists_and_eq_and]

end Loft

namespace World

variable {w w' : World} {h : Handle} {l : Loft} {handles : List Handle} {layers : List Layer}
  {shell : Bool} {u : Unit}

/-- A loft over at least two live layers, each with a vertex as every layer that was made. Whenever
the loft was built, hollow or solid, each section has the least box of the absolute vertices of its
two layers, and no empty slice; the loft has the least box of the vertices of all layers. In every
world that operations lead to it can be built if it is live and the vertices are in range. -/
theorem generateEdges_isBoxed (shell : Bool) {vertices : List (List Voxel)}
    (hl : w.solids[h]? = some (.loft l handles)) (hlayers : w.HasLayers handles layers)
    (hvertices : layers.mapM Layer.absoluteVertices = .ok vertices)
    (hne : ∀ layer ∈ layers, layer.vertices ≠ []) (hcount : 2 ≤ layers.length) :
    (∀ w', onLoft h (Loft.generateEdges shell) w = .ok () w' →
      ∃ l' : Loft, w'.solids[h]? = some (.loft l' handles) ∧
        l'.sections.map Prod.fst = List.range (layers.length - 1) ∧
        List.Forall₂ (fun pair e => e.2.IsBoxed (pair.1 ++ pair.2) ∧
            ∀ entry ∈ e.2.derived.directory, entry.2 ≠ [])
          (vertices.zip vertices.tail) l'.sections ∧
        l'.base.IsBoxed vertices.flatten) ∧
    ∀ source, w.Reached source → l.base.isDeleted = false → (∀ vs ∈ vertices, ∀ v ∈ vs, v.InRange) →
      ∃ w', onLoft h (Loft.generateEdges shell) w = .ok () w' := by
  rw [except_mapM_eq_ok] at hvertices
  have hlength := hvertices.length_eq
  constructor
  · intro w' hrun
    obtain ⟨l', hl', hsound, hbuilt, hconnected⟩ := exists_areConnected hl hlayers hrun
    have hne' : ∀ vs ∈ vertices, vs ≠ [] := by
      intro vs hvs
      obtain ⟨layer, hlayer, hvertices⟩ := exists_mem_of_forall₂ hvertices hvs
      rw [Layer.eq_of_absoluteVertices hvertices, ne_eq, List.map_eq_nil_iff]
      exact hne layer hlayer
    have hsections := Loft.exists_isLeast_of_isSection hne'
      (hconnected.isSection (List.forall₂_map_left_iff.2 hvertices))
    obtain ⟨first, hfirst⟩ := List.exists_mem_of_length_pos (show 0 < vertices.length by omega)
    obtain ⟨v, hv⟩ := List.exists_mem_of_ne_nil first (hne' first hfirst)
    obtain ⟨b, hb⟩ := Extents.exists_isLeast
      (List.ne_nil_of_mem (List.mem_flatten_of_mem hfirst hv))
    refine ⟨l', hl', hbuilt.keys, hsections.imp ?_, hsound.isBoxed hb
      (hbuilt.isLeast (hlength ▸ hcount) hb (hsections.imp ?_))⟩
    · rintro pair e ⟨b, hleast, hleast', hsound, hslices⟩
      exact ⟨hsound.isBoxed hleast hleast', hslices⟩
    · rintro pair e ⟨b, hleast, hleast', -⟩
      exact ⟨b, hleast, hleast'⟩
  · intro source hw hlive hrange
    refine exists_generateEdges shell hw.isSound hl hlive fun k hk => ?_
    obtain ⟨layer, hlayer, hk⟩ := exists_mem_of_forall₂ hlayers.flip hk
    obtain ⟨vs, hvs, hvertices⟩ := exists_mem_of_forall₂ hvertices.flip hlayer
    exact ⟨_, hk, vs, hvertices, hrange vs hvs⟩

/-- A hollow loft at an origin of its own over three layers: a segment, a point beside it at the
same height, and a point above. -/
theorem generateEdges_isBoxed_points : ∃ (w w' : World) (l : Loft) (layers : List Layer)
    (vertices : List (List Voxel)),
    w.solids[3]? = some (Solid.loft l [0, 1, 2]) ∧ w.HasLayers [0, 1, 2] layers ∧
    layers.mapM Layer.absoluteVertices = .ok vertices ∧
    (∀ layer ∈ layers, layer.vertices ≠ []) ∧ 2 ≤ layers.length ∧
    vertices = [[⟨0, 0, 0⟩, ⟨1, 0, 0⟩], [⟨0, 2, 0⟩], [⟨3, 3, 4⟩]] ∧
    onLoft 3 (Loft.generateEdges true) w = .ok () w' ∧
    ∃ l' : Loft, w'.solids[3]? = some (Solid.loft l' [0, 1, 2]) ∧
      l'.sections.map Prod.fst = List.range (layers.length - 1) ∧
      List.Forall₂ (fun pair e => e.2.IsBoxed (pair.1 ++ pair.2) ∧
          ∀ entry ∈ e.2.derived.directory, entry.2 ≠ [])
        (vertices.zip vertices.tail) l'.sections ∧
      l'.base.IsBoxed vertices.flatten := by
  obtain ⟨w, hw, l, l₀, l₁, l₂, hl, hlive, hl₀, hl₁, hl₂, hvertices, hne⟩ :
      ∃ w : World, w.Reached .hexadecimal ∧ ∃ (l : Loft) (l₀ l₁ l₂ : Layer),
        w.solids[3]? = some (Solid.loft l [0, 1, 2]) ∧ l.base.isDeleted = false ∧
        w.solids[0]? = some (Solid.layer l₀) ∧ w.solids[1]? = some (Solid.layer l₁) ∧
        w.solids[2]? = some (Solid.layer l₂) ∧
        [l₀, l₁, l₂].mapM Layer.absoluteVertices =
          .ok [[⟨0, 0, 0⟩, ⟨1, 0, 0⟩], [⟨0, 2, 0⟩], [⟨3, 3, 4⟩]] ∧
        ∀ layer ∈ [l₀, l₁, l₂], layer.vertices ≠ [] := by
    refine exists_reached [.createLayer [0, 0, 0] [[0, 0, 0], [1, 0, 0]],
      .createLayer [0, 2, 0] [[0, 0, 0]], .createLayer [3, 3, 3] [[0, 0, 1]],
      .createLoft [5, 0, 0] [0, 1, 2]] (by cbv) ?_
    exact ⟨_, _, _, _, rfl, rfl, rfl, rfl, rfl, rfl, by decide⟩
  have hlayers : w.HasLayers [0, 1, 2] [l₀, l₁, l₂] := .cons hl₀ (.cons hl₁ (.cons hl₂ .nil))
  have hboxed := generateEdges_isBoxed true hl hlayers hvertices hne (by simp)
  obtain ⟨w', hrun⟩ := hboxed.2 .hexadecimal hw hlive (by decide)
  exact ⟨w, w', l, _, _, hl, hlayers, hvertices, hne, by simp, rfl, hrun, hboxed.1 w' hrun⟩

/-! ## Hollow and solid lofts -/

/-- An edit of a loft leaves the other objects alone. -/
theorem solids_of_onLoft {k : Handle} {α : Type} {a : α}
    {edit : List Profile → Edit (Issuer × Loft) α} (hrun : onLoft h edit w = .ok a w')
    (hne : h ≠ k) : w'.solids[k]? = w.solids[k]? := by
  obtain ⟨l, handles, profiles, -, -, hrun⟩ := onLoft_eq_ok.1 hrun
  obtain ⟨i, l', -, rfl⟩ := onPartOf_eq_ok.1 hrun
  exact solids_put_of_ne hne _ _

/-- Of two lofts over the same layers, one built hollow and the other one solid, the hollow one is
part of the solid one: section by section, and as a whole. Their origins do not matter, nor where
they are built. -/
theorem generateEdges_subset {w₁ w₁' w₂ w₂' : World} {h₁ h₂ : Handle} {l₁ l₂ : Loft}
    {handles₁ handles₂ : List Handle} {u₁ u₂ : Unit}
    (hl₁ : w₁.solids[h₁]? = some (.loft l₁ handles₁))
    (hl₂ : w₂.solids[h₂]? = some (.loft l₂ handles₂))
    (hlayers₁ : w₁.HasLayers handles₁ layers) (hlayers₂ : w₂.HasLayers handles₂ layers)
    (hrun₁ : onLoft h₁ (Loft.generateEdges true) w₁ = .ok u₁ w₁')
    (hrun₂ : onLoft h₂ (Loft.generateEdges false) w₂ = .ok u₂ w₂') :
    ∃ (l₁' l₂' : Loft) (voxels₁ voxels₂ : List Voxel)
      (directory₁ directory₂ : List (Nat × List Voxel)),
      w₁'.solids[h₁]? = some (.loft l₁' handles₁) ∧ w₂'.solids[h₂]? = some (.loft l₂' handles₂) ∧
      l₁'.base.absolute = .ok voxels₁ ∧ l₂'.base.absolute = .ok voxels₂ ∧
      l₁'.sectionVoxels = .ok directory₁ ∧ l₂'.sectionVoxels = .ok directory₂ ∧
      List.Forall₂ (fun a b => a.1 = b.1 ∧ ∀ v ∈ a.2, v ∈ b.2) directory₁ directory₂ ∧
      ∀ v ∈ voxels₁, v ∈ voxels₂ := by
  obtain ⟨l₁', hl₁', -, hbuilt₁, hconnected₁⟩ := exists_areConnected hl₁ hlayers₁ hrun₁
  obtain ⟨l₂', hl₂', -, hbuilt₂, hconnected₂⟩ := exists_areConnected hl₂ hlayers₂ hrun₂
  have hsections : List.Forall₂ (fun a b => a.2.absoluteFill ⊆ b.2.absoluteFill) l₁'.sections
      l₂'.sections :=
    forall₂_of_common (fun _ _ _ h h' => h.subset_of_shell h') hconnected₁ hconnected₂
  have hkeys : List.Forall₂ (fun a b => a.1 = b.1) l₁'.sections l₂'.sections := by
    have hsame := hbuilt₁.keys.trans hbuilt₂.keys.symm
    rwa [← List.forall₂_eq_eq_eq, List.forall₂_map_left_iff, List.forall₂_map_right_iff] at hsame
  refine ⟨l₁', l₂', l₁'.base.absoluteFill, l₂'.base.absoluteFill, _, _, hl₁', hl₂',
    VoxelSet.absolute_eq_ok.2 ⟨hbuilt₁.isLive, rfl⟩,
    VoxelSet.absolute_eq_ok.2 ⟨hbuilt₂.isLive, rfl⟩, hbuilt₁.sectionVoxels_eq,
    hbuilt₂.sectionVoxels_eq, ?_, fun v hv => ?_⟩
  · rw [List.forall₂_map_left_iff, List.forall₂_map_right_iff]
    exact hkeys.mp (fun _ _ => And.intro) hsections
  · obtain ⟨s, hs, hv⟩ := (hbuilt₁.mem_iff v).1 hv
    obtain ⟨a, ha, rfl⟩ := List.mem_map.1 hs
    obtain ⟨b, hb, hab⟩ := exists_mem_of_forall₂ hsections.flip ha
    exact (hbuilt₂.mem_iff v).2 ⟨b.2, List.mem_map_of_mem hb, hab hv⟩

/-- Two lofts over a square and a point above it. The hollow one is built first, then the solid one
at another origin. -/
theorem generateEdges_subset_pyramid : ∃ (w w₁ w₂ : World) (l₁ l₂ : Loft) (layers : List Layer),
    w.solids[2]? = some (Solid.loft l₁ [0, 1]) ∧ w₁.solids[3]? = some (Solid.loft l₂ [0, 1]) ∧
    w.HasLayers [0, 1] layers ∧ w₁.HasLayers [0, 1] layers ∧
    onLoft 2 (Loft.generateEdges true) w = .ok () w₁ ∧
    onLoft 3 (Loft.generateEdges false) w₁ = .ok () w₂ ∧
    ∃ (l₁' l₂' : Loft) (voxels₁ voxels₂ : List Voxel)
      (directory₁ directory₂ : List (Nat × List Voxel)),
      w₁.solids[2]? = some (Solid.loft l₁' [0, 1]) ∧ w₂.solids[3]? = some (Solid.loft l₂' [0, 1]) ∧
      l₁'.base.absolute = .ok voxels₁ ∧ l₂'.base.absolute = .ok voxels₂ ∧
      l₁'.sectionVoxels = .ok directory₁ ∧ l₂'.sectionVoxels = .ok directory₂ ∧
      List.Forall₂ (fun a b => a.1 = b.1 ∧ ∀ v ∈ a.2, v ∈ b.2) directory₁ directory₂ ∧
      ∀ v ∈ voxels₁, v ∈ voxels₂ := by
  obtain ⟨w, hw, l₁, l₂, bottom, top, hl₁, hl₂, hlive₁, hlive₂, hbottom, htop, hread, hread'⟩ :
      ∃ w : World, w.Reached .hexadecimal ∧ ∃ (l₁ l₂ : Loft) (bottom top : Layer),
        w.solids[2]? = some (Solid.loft l₁ [0, 1]) ∧ w.solids[3]? = some (Solid.loft l₂ [0, 1]) ∧
        l₁.base.isDeleted = false ∧ l₂.base.isDeleted = false ∧
        w.solids[0]? = some (Solid.layer bottom) ∧ w.solids[1]? = some (Solid.layer top) ∧
        Loft.IsReadable bottom.profile ∧ Loft.IsReadable top.profile := by
    refine exists_reached [.createLayer [0, 0, 0] [[0, 0, 0], [4, 0, 0], [4, 4, 0], [0, 4, 0]],
      .createLayer [0, 0, 3] [[2, 2, 0]], .createLoft [0, 0, 0] [0, 1],
      .createLoft [7, 0, 0] [0, 1]] (by cbv) ?_
    exact ⟨_, _, _, _, rfl, rfl, rfl, rfl, rfl, rfl, ⟨_, rfl, by decide⟩, ⟨_, rfl, by decide⟩⟩
  have hlayers : w.HasLayers [0, 1] [bottom, top] := .cons hbottom (.cons htop .nil)
  have hreadable : ∀ k ∈ [0, 1], ∃ o, w.solids[k]? = some o ∧ Loft.IsReadable o.profile := by
    simpa using ⟨⟨_, hbottom, hread⟩, _, htop, hread'⟩
  obtain ⟨w₁, hrun₁⟩ := exists_generateEdges true hw.isSound hl₁ hlive₁ hreadable
  have hkeep : ∀ k, 2 ≠ k → w₁.solids[k]? = w.solids[k]? := fun k => solids_of_onLoft hrun₁
  have hw₁ := (hw.step (.generateSections 2 true) hrun₁).isSound
  have hl₂' := (hkeep 3 (by decide)).trans hl₂
  have hlayers₁ : w₁.HasLayers [0, 1] [bottom, top] :=
    .cons ((hkeep 0 (by decide)).trans hbottom) (.cons ((hkeep 1 (by decide)).trans htop) .nil)
  obtain ⟨w₂, hrun₂⟩ := exists_generateEdges false hw₁ hl₂' hlive₂ <| by
    simpa [hkeep] using hreadable
  exact ⟨w, w₁, w₂, l₁, l₂, _, hl₁, hl₂', hlayers, hlayers₁, hrun₁, hrun₂,
    generateEdges_subset hl₁ hl₂' hlayers hlayers₁ hrun₁ hrun₂⟩

end World
end VoxelAlgebra
