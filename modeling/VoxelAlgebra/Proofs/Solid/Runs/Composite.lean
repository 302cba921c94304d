import VoxelAlgebra.Proofs.Solid.Pass

/-!
# Successful runs of composites

A composite owns its own voxels and the sets of its cache. However an equation was evaluated, and
whatever its names stand for, a successful run ends with a composite that owns the same.

## Main definitions

* `Evaluation.owns_of_evaluate` — results that are kept belong to the cache.
* `Composite.owns_of_interpret` and its siblings — what a composite owns after a run.
-/

namespace VoxelAlgebra

variable {i i' : Issuer} {held : Set String} {others : List VoxelSet} {bound : Bound} {u : Unit}

namespace Evaluation

variable {c c' : Cache} {s : VoxelSet}

theorem owns_of_evaluate {tree : Datum} (h : i.Owns held (c.sets ++ others))
    (hrange : ∀ s ∈ c.known bound, s.IsInRange)
    (hrun : evaluate bound tree (i, c) = .ok s (i', c')) : i'.Owns held (c'.sets ++ others) := by
  obtain ⟨howns, hothers⟩ := Issuer.Owns.append_iff.1 h
  obtain ⟨hextends, -⟩ := Edit.EndsIn.of_ok (leaves_evaluate tree hrange) hrun
  exact Issuer.Owns.append_iff.2 ⟨hextends.owns _ howns, hothers⟩

end Evaluation

namespace Composite

variable {c c' : Composite}

/-- A pass begins only over sets in range, so the new cache is owned like the one before. -/
theorem owns_of_beginCache {cache : Cache}
    (h : c.base.isDeleted = false → i.Owns held (c.sets ++ others))
    (hrun : beginCache bound (i, c) = .ok cache (i', c')) :
    c' = { c with cache := some cache } ∧ (∀ s ∈ cache.known bound, s.IsInRange) ∧
      i'.Owns held (c'.sets ++ others) := by
  obtain ⟨rfl, hlive, hrange, hsettles⟩ := (endsIn_beginCache bound (i, c)).of_ok hrun
  have hbound : ∀ s ∈ bound.sets, s.IsInRange := fun s hs => hrange s (List.mem_append_right _ hs)
  have hperm : (c.sets ++ others).Perm (c.cacheSets ++ c.base :: others) := List.perm_middle.symm
  obtain ⟨howns, hothers⟩ := Issuer.Owns.append_iff.1 ((h hlive).perm hperm)
  refine ⟨rfl, hrange, ?_⟩
  exact (Issuer.Owns.append_iff.2 ⟨hsettles.owns hbound _ howns, hothers⟩).perm List.perm_middle

theorem owns_of_resetCache (h : c.base.isDeleted = false → i.Owns held (c.sets ++ others))
    (hrun : resetCache bound (i, c) = .ok u (i', c')) : i'.Owns held (c'.sets ++ others) := by
  simp only [resetCache, Edit.bind_eq_ok, Edit.pure_eq_ok] at hrun
  obtain ⟨cache, _, hbegin, -, rfl⟩ := hrun
  exact (owns_of_beginCache h hbegin).2.2

theorem owns_of_setEquation {text : String}
    (h : c.base.isDeleted = false → i.Owns held (c.sets ++ others))
    (hrun : setEquation text (i, c) = .ok u (i', c')) : i'.Owns held (c'.sets ++ others) := by
  simp only [setEquation, Edit.bind_eq_ok, Edit.get_bind, Edit.ofExcept_eq_ok,
    VoxelSet.checkAlive_eq_ok, Edit.onSecond_eq_ok, Edit.onPart_eq_ok] at hrun
  obtain ⟨_, _, ⟨hlive, rfl⟩, ⟨e, -, rfl⟩, rfl⟩ := hrun
  exact h hlive

theorem owns_of_interpret (h : c.base.isDeleted = false → i.Owns held (c.sets ++ others))
    (hrun : interpret bound (i, c) = .ok u (i', c')) : i'.Owns held (c'.sets ++ others) := by
  simp only [interpret, onCache, onBase, Edit.bind_eq_ok, Edit.get_bind, Edit.onPart_eq_ok,
    Edit.onSecond_eq_ok, Edit.ofExcept_eq_ok] at hrun
  obtain ⟨cache, ⟨i₁, c₁⟩, hbegin, s, _, ⟨⟨i₂, cache'⟩, hevaluate, rfl⟩, voxels, _, ⟨-, rfl⟩,
    ⟨base, hset, rfl⟩, rfl⟩ := hrun
  obtain ⟨rfl, hrange, howns⟩ := owns_of_beginCache h hbegin
  have hperm : (c.base :: (cache.sets ++ others)).Perm (cache.sets ++ c.base :: others) :=
    List.perm_middle.symm
  have howns := Evaluation.owns_of_evaluate (howns.perm hperm) hrange hevaluate
  exact .of_isChange (fun _ => howns.perm List.perm_middle) (VoxelSet.isChange_of_setFill hset)

theorem owns_of_create {origin : List Number} (h : i.Owns held others)
    (hrun : create origin bound i = .ok c i') : i'.Owns held (c.sets ++ others) := by
  simp only [create, Edit.bind_eq_ok, Edit.ofExcept_eq_ok, Edit.withSecond_eq_ok,
    Edit.pure_eq_ok] at hrun
  obtain ⟨_, _, ⟨-, rfl⟩, _, _, ⟨-, rfl⟩, base, i₁, hcreate, ⟨_, c⟩, _, hreset, rfl, rfl⟩ := hrun
  exact owns_of_resetCache (c := { base }) (fun _ => h.of_createFrom hcreate) hreset

theorem owns_of_release (h : c.base.isDeleted = false → i.Owns held (c.sets ++ others))
    (hrun : release (i, c) = .ok u (i', c')) :
    c'.base.isDeleted = true ∧ i'.Owns held others := by
  simp only [release, releaseCache, Edit.bind_eq_ok, Edit.get_bind, Edit.ofExcept_eq_ok,
    VoxelSet.checkAlive_eq_ok, Edit.onFirst_eq_ok, Edit.onSecond_eq_ok, Edit.modify_eq_ok] at hrun
  obtain ⟨_, _, ⟨hlive, rfl⟩, _, ⟨i₁, _⟩, ⟨_, ⟨_, _⟩, ⟨hreleases, rfl⟩, rfl, rfl⟩, base, ⟨i₂, _⟩,
    ⟨hrelease, rfl⟩, rfl, rfl⟩ := hrun
  have hperm : (c.sets ++ others).Perm (c.cacheSets ++ c.base :: others) := List.perm_middle.symm
  have howns := ((h hlive).perm hperm).of_releaseSets hreleases
  exact Issuer.Owns.of_release (fun _ => howns) hrelease

end Composite
end VoxelAlgebra
