import VoxelAlgebra.Proofs.World.Building

/-!
# Lofts over layers

The profiles of a loft are other objects, and those that are live layers can be read. Whenever a
loft over layers is built its sections connect the layers, and a solid one keeps every line between
consecutive layers: each slice of a section lies in the filled hull that replaces it.

## Main definitions

* `Layer.isReadable_profile` — the profile of a live layer.
* `World.mapM_profile_eq_ok` — reading the profiles of a loft.
* `World.exists_areConnected` — what a loft over layers is when its building returned.
* `World.generateEdges_covers` — the lines of a solid loft.
-/

namespace VoxelAlgebra

theorem Layer.absoluteVertices_eq_ok {layer : Layer} (hlive : layer.base.isDeleted = false) :
    layer.absoluteVertices = .ok (layer.vertices.map (· + layer.base.origin)) := by
  rw [absoluteVertices, except_bind_eq_ok]
  exact ⟨(), VoxelSet.checkAlive_eq_ok.2 hlive, rfl⟩

/-- The profile of a live layer has the absolute vertices of the layer. -/
theorem Layer.isReadable_profile {layer : Layer} (hlive : layer.base.isDeleted = false)
    (hrange : ∀ v ∈ layer.vertices, (v + layer.base.origin).InRange) :
    Loft.IsReadable layer.profile :=
  ⟨_, absoluteVertices_eq_ok hlive, List.forall_mem_map.2 hrange⟩

/-- The absolute vertices of a layer are its vertices, moved by its origin. -/
theorem Layer.eq_of_absoluteVertices {layer : Layer} {vertices : List Voxel}
    (h : layer.absoluteVertices = .ok vertices) :
    vertices = layer.vertices.map (· + layer.base.origin) := by
  rw [absoluteVertices, except_bind_eq_ok] at h
  obtain ⟨_, -, h⟩ := h
  exact (Except.ok.inj h).symm

namespace World

variable {w w' : World} {h : Handle} {l : Loft} {handles : List Handle} {layers : List Layer}
  {shell : Bool} {u : Unit}

def HasLayers (w : World) (handles : List Handle) (layers : List Layer) : Prop :=
  List.Forall₂ (fun k layer => w.solids[k]? = some (.layer layer)) handles layers

/-- The profiles of layers are read without changing anything. -/
theorem mapM_profile_eq_ok (hlayers : w.HasLayers handles layers) :
    handles.mapM profile w = .ok (layers.map Layer.profile) w := by
  rw [profiles_eq_ok, List.forall₂_map_right_iff]
  exact ⟨rfl, hlayers.imp fun k layer hk => ⟨.layer layer, hk, rfl⟩⟩

/-- Whenever a loft over layers is built, its sections connect the layers. -/
theorem exists_areConnected (hl : w.solids[h]? = some (.loft l handles))
    (hlayers : w.HasLayers handles layers)
    (hrun : onLoft h (Loft.generateEdges shell) w = .ok u w') :
    ∃ l' : Loft, w'.solids[h]? = some (.loft l' handles) ∧ l'.base.IsSound ∧
      Loft.IsBuilt layers.length l' ∧
      Loft.AreConnected shell (layers.map Layer.profile) l'.sections := by
  obtain ⟨_, _, profiles, hl', hprofiles, hrun⟩ := onLoft_eq_ok.1 hrun
  cases hl.symm.trans hl'
  cases (mapM_profile_eq_ok hlayers).symm.trans hprofiles
  obtain ⟨i', l', hgenerate, rfl⟩ := onPartOf_eq_ok.1 hrun
  obtain ⟨hchange, hbuilt, hconnected⟩ := Loft.areConnected_of_generateEdges hgenerate
  rw [List.length_map] at hbuilt
  exact ⟨l', solids_put hl _, hchange.isSound, hbuilt, hconnected⟩

/-- Whenever a loft over layers is built solid, its voxels include every segment from a vertex of a
layer to a vertex of the next one. In every world that operations lead to it can be built if it and
the layers are live and the vertices in range. Every slice that is traced and filled lies in the
filled hull that replaces it. -/
theorem generateEdges_covers (hl : w.solids[h]? = some (.loft l handles))
    (hlayers : w.HasLayers handles layers) :
    (∀ w', onLoft h (Loft.generateEdges false) w = .ok () w' →
      ∃ l' voxels, w'.solids[h]? = some (.loft l' handles) ∧ l'.base.absolute = .ok voxels ∧
        ∀ first second, [first, second] <:+: layers →
          ∀ s ∈ first.vertices, ∀ f ∈ second.vertices,
            ∀ v ∈ segment (s + first.base.origin) (f + second.base.origin), v ∈ voxels) ∧
    (∀ source, w.Reached source → l.base.isDeleted = false →
      (∀ layer ∈ layers, layer.base.isDeleted = false) →
      (∀ layer ∈ layers, ∀ v ∈ layer.vertices, (v + layer.base.origin).InRange) →
      ∃ w', onLoft h (Loft.generateEdges false) w = .ok () w') ∧
    ∀ (i : Issuer) a k slice, slice ≠ [] → (∀ v ∈ slice, v.coord a = k ∧ v.InRange) →
      ∃ filled i', traceOutline (hullVertices a k slice) true i = .ok filled i' ∧
        ∀ v ∈ slice, v ∈ filled := by
  refine ⟨fun w' hrun => ?_, fun source hw hlive hlives hrange => ?_,
    fun i a k slice hne hslice => ?_⟩
  · obtain ⟨l', hl', -, hbuilt, hconnected⟩ := exists_areConnected hl hlayers hrun
    refine ⟨l', _, hl', VoxelSet.absolute_eq_ok.2 ⟨hbuilt.isLive, rfl⟩,
      fun first second hpair s hs f hf v hv => (hbuilt.mem_iff v).2 ?_⟩
    obtain ⟨t, ht, starts, finishes, hstarts, hfinishes, hsection⟩ :=
      hconnected.exists_connects (hpair.map Layer.profile)
    cases Layer.eq_of_absoluteVertices hstarts
    cases Layer.eq_of_absoluteVertices hfinishes
    exact ⟨t, ht, hsection.segment_subset (List.mem_map_of_mem hs) (List.mem_map_of_mem hf) hv⟩
  · refine exists_generateEdges false hw.isSound hl hlive fun k hk => ?_
    obtain ⟨layer, hlayer, hk⟩ := exists_mem_of_forall₂ hlayers.flip hk
    exact ⟨_, hk, Layer.isReadable_profile (hlives layer hlayer) (hrange layer hlayer)⟩
  · obtain ⟨filled, i', htrace, -, -, hcover⟩ := exists_hullSlice true (.of_inUse i) hne
      (fun v hv => (hslice v hv).1) fun v hv => (hslice v hv).2
    exact ⟨filled, i', htrace, hcover rfl⟩

/-- A loft from a segment to a point above it, where the point has an origin of its own. -/
theorem generateEdges_covers_triangle : ∃ (w w' : World) (l : Loft) (layers : List Layer),
    w.solids[2]? = some (.loft l [0, 1]) ∧ w.HasLayers [0, 1] layers ∧
    layers.mapM Layer.absoluteVertices = .ok [[⟨0, 0, 0⟩, ⟨2, 1, 0⟩], [⟨0, 0, 3⟩]] ∧
    onLoft 2 (Loft.generateEdges false) w = .ok () w' ∧
    (∃ l' voxels, w'.solids[2]? = some (.loft l' [0, 1]) ∧ l'.base.absolute = .ok voxels ∧
      ∀ first second, [first, second] <:+: layers →
        ∀ s ∈ first.vertices, ∀ f ∈ second.vertices,
          ∀ v ∈ segment (s + first.base.origin) (f + second.base.origin), v ∈ voxels) ∧
    ∀ (i : Issuer) a k slice, slice ≠ [] → (∀ v ∈ slice, v.coord a = k ∧ v.InRange) →
      ∃ filled i', traceOutline (hullVertices a k slice) true i = .ok filled i' ∧
        ∀ v ∈ slice, v ∈ filled := by
  obtain ⟨w, hw, l, bottom, top, hl, hlive, hbottom, htop, hvertices, hlives, hrange⟩ :
      ∃ w : World, w.Reached .hexadecimal ∧ ∃ (l : Loft) (bottom top : Layer),
        w.solids[2]? = some (.loft l [0, 1]) ∧ l.base.isDeleted = false ∧
        w.solids[0]? = some (.layer bottom) ∧ w.solids[1]? = some (.layer top) ∧
        [bottom, top].mapM Layer.absoluteVertices =
          .ok [[⟨0, 0, 0⟩, ⟨2, 1, 0⟩], [⟨0, 0, 3⟩]] ∧
        (∀ layer ∈ [bottom, top], layer.base.isDeleted = false) ∧
        ∀ layer ∈ [bottom, top], ∀ v ∈ layer.vertices, (v + layer.base.origin).InRange := by
    refine exists_reached [.createLayer [0, 0, 0] [[0, 0, 0], [2, 1, 0]],
      .createLayer [0, 0, 3] [[0, 0, 0]], .createLoft [0, 0, 0] [0, 1]] (by cbv) ?_
    exact ⟨_, _, _, rfl, rfl, rfl, rfl, rfl, by decide, by decide⟩
  have hlayers : w.HasLayers [0, 1] [bottom, top] := .cons hbottom (.cons htop .nil)
  obtain ⟨hcovers, hbuilds, hslices⟩ := generateEdges_covers hl hlayers
  obtain ⟨w', hrun⟩ := hbuilds .hexadecimal hw hlive hlives hrange
  exact ⟨w, w', l, _, hl, hlayers, hvertices, hrun, hcovers w' hrun, hslices⟩

end World
end VoxelAlgebra
