import VoxelAlgebra.Proofs.SetEquation
import VoxelAlgebra.Proofs.Solid.Evaluation

/-!
# Interpreting equations

A composite that owns its cache can always begin a new pass over live sets. The pass begins with the
universal and the null set, the tree of the equation is evaluated in it, and the voxels of the
result become those of the composite, whatever its origin is. All sets that are not part of the
composite stay as they are.

## Main definitions

* `Composite.sets` — the sets of a composite: its own voxels and its cache.
* `Composite.exists_resetCache`, `Composite.exists_setEquation` — preparing an interpretation.
* `Composite.exists_interpret` — an interpretation ends with the value of the tree.
-/

namespace VoxelAlgebra

open VoxelSet (ids AreApart)
open Equation (Denotes Derives)

variable {held : Set String} {bound : Bound} {i : Issuer} {others : List VoxelSet}

/-- The universe of live sets has the voxels of all of them, each once. -/
theorem Bound.exists_universe (h : bound.IsHeld held) :
    ∃ voxels, bound.universe = .ok voxels ∧ voxels.Nodup ∧ (∀ v ∈ voxels, v.InRange) ∧
      ∀ v, v ∈ voxels ↔ v ∈ bound.union := by
  have habsolute : ∀ b ∈ bound, b.2.absolute = .ok b.2.absoluteFill := fun b hb =>
    VoxelSet.absolute_eq_ok.2 ⟨(h.isSound b.2 (List.mem_map_of_mem hb)).isLive, rfl⟩
  have hmapM : bound.mapM (fun b => b.2.absolute) = .ok (bound.map fun b => b.2.absoluteFill) := by
    rw [except_mapM_eq_ok, List.forall₂_map_right_iff, List.forall₂_same]
    exact habsolute
  have hmem : ∀ v, v ∈ Voxel.distinct (bound.map fun b => b.2.absoluteFill).flatten ↔
      v ∈ bound.union := fun v => by simp [Bound.union]
  refine ⟨_, by rw [Bound.universe, hmapM]; rfl, Voxel.nodup_distinct _, fun v hv => ?_, hmem⟩
  obtain ⟨b, hb, hvb⟩ := (hmem v).1 hv
  exact (h.isSound b.2 (List.mem_map_of_mem hb)).inRange v hvb

/-- Sets that are apart can be named while they are held elsewhere. -/
theorem Bound.isHeld_of_areApart (h : AreApart held others)
    (hbound : ∀ s ∈ bound.sets, s ∈ others) : bound.IsHeld (held ∪ ids others) where
  isSound := fun s hs => h.isSound s (hbound s hs)
  held := fun s hs => .inr ⟨s, hbound s hs, rfl⟩
  unique := fun s hs t ht => h.eq_of_id (hbound s hs) (hbound t ht)

theorem Bound.value?_subset {name : String} {A : Set Voxel} (h : bound.value? name = some A) :
    A ⊆ bound.union := by
  obtain ⟨s, hs, rfl⟩ := Option.map_eq_some_iff.1 h
  obtain ⟨b, hb, rfl⟩ := List.mem_map.1 (mem_sets_of_lookup hs)
  exact fun v hv => ⟨b, hb, hv⟩

/-- Where a tree stands for a set, its names are bound. -/
theorem Datum.Evaluates.isTree {U A : Set Voxel} {d : Datum} (h : d.Evaluates U bound.value? A) :
    d.IsTree fun s => (bound.lookup s).isSome := by
  induction h with
  | universal => exact .leaf (.inl rfl)
  | null => exact .leaf (.inr (.inl rfl))
  | name _ _ hs =>
    obtain ⟨s, hs, -⟩ := Option.map_eq_some_iff.1 hs
    exact .leaf (.inr (.inr (by rw [hs, Option.isSome_some])))
  | lone _ ih => exact .lone ih
  | binary hsign _ _ ihl ihr => exact .binary hsign ihl ihr

namespace Composite

variable {c : Composite}

def sets (c : Composite) : List VoxelSet := c.base :: c.cacheSets

/-- A live composite that owns the sets of its cache, beside live sets that others hold. -/
structure IsReady (held : Set String) (bound : Bound) (i : Issuer) (c : Composite) : Prop where
  isLive : c.base.isDeleted = false
  owns : i.Owns held c.cacheSets
  isHeld : bound.IsHeld held

/-- A composite is ready if it is at hand beside the sets that it names. -/
theorem isReady_of_owns (h : i.Owns held (c.sets ++ others))
    (hbound : ∀ s ∈ bound.sets, s ∈ others) :
    c.IsReady (held ∪ ids (c.base :: others)) bound i := by
  have hperm : (c.sets ++ others).Perm (c.cacheSets ++ c.base :: others) :=
    List.perm_middle.symm
  obtain ⟨howns, hothers⟩ := Issuer.Owns.append_iff.1 (h.perm hperm)
  exact ⟨(hothers.isSound c.base List.mem_cons_self).isLive, howns,
    Bound.isHeld_of_areApart hothers fun s hs => List.mem_cons_of_mem _ (hbound s hs)⟩

/-- After a pass the composite is at hand again. -/
theorem owns_of_isPass {i' : Issuer} {c' : Composite} {cache : Cache}
    (h : i.Owns held (c.sets ++ others)) (hcache : c'.cache = some cache)
    (hpass : IsPass (held ∪ ids (c.base :: others)) bound i' cache) (hsound : c'.base.IsSound)
    (hid : c'.base.id = c.base.id) : i'.Owns held (c'.sets ++ others) := by
  have hperm : (c.sets ++ others).Perm (c.cacheSets ++ c.base :: others) :=
    List.perm_middle.symm
  have hothers := (Issuer.Owns.append_iff.1 (h.perm hperm)).2
  have howns : i'.Owns held (c.base :: (cache.sets ++ others)) :=
    (Issuer.Owns.append_iff.2 ⟨hpass.owns, hothers⟩).perm List.perm_middle
  have hsets : c'.sets = c'.base :: cache.sets := by rw [sets, cacheSets, hcache]; rfl
  rw [hsets]
  exact howns.change hsound hid

/-- A pass begins with the universal and the null set. -/
theorem exists_beginCache (h : c.IsReady held bound i) :
    ∃ i' cache, beginCache bound (i, c) = .ok cache (i', { c with cache := some cache }) ∧
      IsPass held bound i' cache := by
  obtain ⟨i₁, hrelease, howns₁⟩ :=
    (c.cacheSets.append_nil.symm ▸ h.owns).exists_releaseSets
  obtain ⟨voxels, huniverse, hnodup, hrange, hunion⟩ := Bound.exists_universe h.isHeld
  obtain ⟨universal, i₂, hcreate, horigin, hfill, -, howns₂⟩ := howns₁.exists_create .zero
    fun v hv => (Voxel.add_zero v).symm ▸ hrange v hv
  obtain ⟨null, i₃, hcreate', horigin', hfill', howns₃⟩ := howns₂.exists_create_empty
  have hu : universal.absoluteFill = voxels := (VoxelSet.absoluteFill_of_zero horigin).trans hfill
  have hn : null.absoluteFill = [] := (VoxelSet.absoluteFill_of_zero horigin').trans hfill'
  refine ⟨i₃, { universal, null }, ?_, h.isHeld, howns₃.perm (.swap universal null []), ?_, ?_,
    fun entry hentry => absurd hentry List.not_mem_nil, ?_⟩
  · simp only [beginCache, releaseCache, Edit.bind_eq_ok, Edit.get_bind, Edit.ofExcept_eq_ok,
      VoxelSet.checkAlive_eq_ok, Edit.onFirst_eq_ok, Edit.onSecond_eq_ok, Edit.modify_eq_ok,
      Edit.pure_eq_ok]
    exact ⟨(), (i, c), ⟨h.isLive, rfl⟩, (), (i₁, { c with cache := none }),
      ⟨(), (i₁, c), ⟨hrelease, rfl⟩, rfl, rfl⟩, voxels, _, ⟨huniverse, rfl⟩, universal,
      (i₂, { c with cache := none }), ⟨hcreate, rfl⟩, null, (i₃, { c with cache := none }),
      ⟨hcreate', rfl⟩, (), (i₃, { c with cache := some { universal, null } }), ⟨rfl, rfl⟩, rfl, rfl⟩
  · exact Set.ext fun v => by rw [VoxelSet.mem_voxels, hu, hunion]
  · exact Set.ext fun v => by simp [hn]
  · intro _ s hs
    obtain rfl | rfl : s = universal ∨ s = null := by simpa [Cache.sets] using hs
    · exact hu ▸ hnodup
    · exact hn ▸ .nil

/-- The cache can be made anew. -/
theorem exists_resetCache (bound : Bound) (h : i.Owns held (c.sets ++ others))
    (hbound : ∀ s ∈ bound.sets, s ∈ others) :
    ∃ i' cache, resetCache bound (i, c) = .ok () (i', { c with cache := some cache }) ∧
      i'.Owns held (({ c with cache := some cache } : Composite).sets ++ others) := by
  obtain ⟨i', cache, hbegin, hpass⟩ := exists_beginCache (isReady_of_owns h hbound)
  refine ⟨i', cache, ?_, owns_of_isPass h rfl hpass (h.isSound c.base List.mem_cons_self) rfl⟩
  rw [resetCache, Edit.bind_eq_ok]
  exact ⟨cache, _, hbegin, rfl⟩

/-- A live composite takes up every text of the grammar. -/
theorem exists_setEquation {text : String} (i : Issuer) (hlive : c.base.isDeleted = false)
    (h : Derives .expression text.toList) :
    ∃ e, setEquation text (i, c) = .ok () (i, { c with equation := e }) ∧
      IsTreeOf text e.tree := by
  obtain ⟨tokens, tree, hassign, htree⟩ := SetEquation.exists_assign h c.equation
  refine ⟨⟨text, some tokens, tree⟩, ?_, htree⟩
  simp only [setEquation, Edit.get_bind, Edit.bind_eq_ok, Edit.ofExcept_eq_ok,
    VoxelSet.checkAlive_eq_ok, Edit.onSecond_eq_ok, Edit.onPart_eq_ok]
  exact ⟨(), (i, c), ⟨hlive, rfl⟩, ⟨_, hassign, rfl⟩, rfl⟩

/-- What an interpretation ends with: a live composite with the same equation that has the voxels
`A`, and all other sets as they were. -/
structure Interprets (held : Set String) (others : List VoxelSet) (bound : Bound) (A : Set Voxel)
    (c : Composite) (i' : Issuer) (c' : Composite) : Prop where
  owns : i'.Owns held (c'.sets ++ others)
  equation : c'.equation = c.equation
  voxels : c'.base.voxels = A
  nodup : (∀ s ∈ bound.sets, s.absoluteFill.Nodup) → c'.base.absoluteFill.Nodup

theorem Interprets.isSound {A : Set Voxel} {i' : Issuer} {c' : Composite}
    (h : Interprets held others bound A c i' c') : c'.base.IsSound :=
  h.owns.isSound c'.base List.mem_cons_self

/-- Interpreting a tree whose names are bound ends with its value. -/
theorem exists_interpret {items : List Datum} (h : i.Owns held (c.sets ++ others))
    (hbound : ∀ s ∈ bound.sets, s ∈ others) (htree : c.equation.tree = .list items)
    (hitems : (Datum.list items).IsTree fun s => (bound.lookup s).isSome) :
    ∃ A i' c', interpret bound (i, c) = .ok () (i', c') ∧
      (Datum.list items).Evaluates bound.union bound.value? A ∧
      Interprets held others bound A c i' c' := by
  have hready := isReady_of_owns h hbound
  obtain ⟨i₁, cache, hbegin, hpass⟩ := exists_beginCache hready
  obtain ⟨A, hA, hyields⟩ := Evaluation.yields_resolve hitems
  obtain ⟨s, i₂, cache', hresolve, hends⟩ := hyields i₁ cache hpass
  have hs := hends.isPass.isSound hends.mem
  obtain ⟨base, hset, hsound, hid, -, hbase⟩ :=
    VoxelSet.exists_setFill_absolute hready.isLive hs.inRange
  refine ⟨A, i₂, { c with base := base, cache := some cache' }, ?_, hA,
    owns_of_isPass h rfl hends.isPass hsound hid, rfl, ?_, fun hnodup => ?_⟩
  · have hevaluate : Evaluation.evaluate bound (.list items) (i₁, cache) = .ok s (i₂, cache') := by
      rwa [Evaluation.resolve] at hresolve
    simp only [interpret, onCache, onBase, Edit.bind_eq_ok, Edit.get_bind, Edit.onPart_eq_ok,
      Edit.onSecond_eq_ok, Edit.ofExcept_eq_ok, VoxelSet.absolute_eq_ok]
    refine ⟨cache, _, hbegin, s, (i₂, { c with cache := some cache' }), ⟨(i₂, cache'), ?_, rfl⟩,
      s.absoluteFill, _, ⟨⟨hs.isLive, rfl⟩, rfl⟩, ⟨base, hset, rfl⟩, rfl⟩
    exact htree ▸ hevaluate
  · rw [← hends.voxels]
    exact Set.ext fun v => by rw [VoxelSet.mem_voxels, VoxelSet.mem_voxels, hbase]
  · exact hbase ▸ hends.isPass.nodup_of_known hnodup hends.mem

/-- Interpreting the tree of a text ends with the set of the text. -/
theorem exists_interpret_text {text : String} {A : Set Voxel} (h : i.Owns held (c.sets ++ others))
    (hbound : ∀ s ∈ bound.sets, s ∈ others) (htree : IsTreeOf text c.equation.tree)
    (hA : Denotes bound.union bound.value? .expression text.toList A) :
    ∃ i' c', interpret bound (i, c) = .ok () (i', c') ∧
      Interprets held others bound A c i' c' := by
  have hevaluates := htree.evaluates _ A _ (fun _ _ => Bound.value?_subset) hA
  obtain ⟨items, hitems⟩ := htree.isList
  rw [hitems] at hevaluates
  obtain ⟨B, i', c', hrun, hB, hinterprets⟩ :=
    exists_interpret h hbound hitems hevaluates.isTree
  obtain rfl := hB.unique hevaluates
  exact ⟨i', c', hrun, hinterprets⟩

end Composite
end VoxelAlgebra
