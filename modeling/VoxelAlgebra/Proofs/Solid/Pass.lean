import VoxelAlgebra.Proofs.Edit.Outcome
import VoxelAlgebra.Proofs.Solid.Composite
import VoxelAlgebra.Proofs.Solid.Runs.Basic

/-!
# Passes that can fail

A tree can be of any form and its names can stand for nothing, so an evaluation can stop at any
depth. Up to there it only adds results to the cache: sets of voxels in range, which belong to
whoever owns the cache. A pass over sets in range can therefore end in any way without losing an
identifier, and the voxels of the composite are replaced only at its end, where nothing can fail.

## Main definitions

* `Evaluation.Extends` — what evaluating adds to a cache, however it ends.
* `Composite.Settles` — what a pass leaves of a composite, however it ends.
* `Composite.endsIn_interpret` — the outcome of an interpretation.
-/

namespace VoxelAlgebra

variable {bound : Bound} {i i' : Issuer} {held : Set String} {s : VoxelSet}

theorem VoxelSet.exists_create_of_inRange (i : Issuer) {voxels : List Voxel}
    (hrange : ∀ v ∈ voxels, v.InRange) : ∃ s i', create .zero voxels i = .ok s i' :=
  exists_create i fun v hv => (Voxel.add_zero v).symm ▸ hrange v hv

theorem VoxelSet.isInRange_of_create {fill : List Voxel}
    (h : create .zero fill i = .ok s i') : s.absoluteFill = fill ∧ s.IsInRange := by
  obtain ⟨-, horigin, hfill, hsound⟩ := create_eq_ok h
  exact ⟨(absoluteFill_of_zero horigin).trans hfill, hsound.inRange⟩

/-! ## Evaluations -/

open Edit (EndsIn)

namespace Evaluation

variable {p p' p'' : Issuer × Cache} {left right : VoxelSet} {op : Equation.Operator}

/-- The cache after an evaluation that was carried on or stopped anywhere: no set is lost, sets are
in range if they were before, and the sets belong to whoever owned the cache. -/
structure Extends (p p' : Issuer × Cache) : Prop where
  subset : p.2.sets ⊆ p'.2.sets
  isInRange : (∀ s ∈ p.2.sets, s.IsInRange) → ∀ s ∈ p'.2.sets, s.IsInRange
  owns : ∀ held, p.1.Owns held p.2.sets → p'.1.Owns held p'.2.sets

namespace Extends

theorem refl (p : Issuer × Cache) : Extends p p := ⟨fun _ h => h, fun h => h, fun _ h => h⟩

theorem trans (h : Extends p p') (h' : Extends p' p'') : Extends p p'' where
  subset := fun _ hs => h'.subset (h.subset hs)
  isInRange := fun hrange => h'.isInRange (h.isInRange hrange)
  owns := fun held howns => h'.owns held (h.owns held howns)

theorem mem_known (h : Extends p p') (hs : s ∈ p.2.known bound) : s ∈ p'.2.known bound :=
  List.mem_append.2 ((List.mem_append.1 hs).imp_left fun hs => h.subset hs)

theorem known_isInRange (h : Extends p p') (hrange : ∀ s ∈ p.2.known bound, s.IsInRange) :
    ∀ s ∈ p'.2.known bound, s.IsInRange := by
  obtain ⟨hsets, hbound⟩ := List.forall_mem_append.1 hrange
  exact List.forall_mem_append.2 ⟨h.isInRange hsets, hbound⟩

end Extends

theorem mem_sets_of_find? {c : Cache} (h : c.find? left.id op right.id = some s) :
    s ∈ c.sets := by
  have hlookup : ∀ key, c.results.lookup key = some s → s ∈ c.sets := by
    intro key hkey
    obtain ⟨before, behind, heq, -⟩ := List.lookup_eq_some_iff.1 hkey
    simp [Cache.sets, heq]
  unfold Cache.find? at h
  split at h
  · cases h
    exact hlookup _ ‹_›
  · split_ifs at h
    exact hlookup _ h

theorem isInRange_of_partition {region : Region} {parts : List Voxel × List Voxel}
    (h : left.partition right region = .ok parts) (hleft : left.IsInRange) :
    (∀ v ∈ parts.1, v.InRange) ∧ ∀ v ∈ parts.2, v.InRange := by
  simp only [VoxelSet.partition, except_bind_eq_ok, VoxelSet.absolute_eq_ok] at h
  obtain ⟨_, ⟨-, rfl⟩, h⟩ := h
  cases h
  simp only [List.partition_eq_filter_filter, List.mem_filter]
  exact ⟨fun v hv => hleft v hv.1, fun v hv => hleft v hv.1⟩

/-- An operation only takes over voxels of its operands. -/
theorem isInRange_of_operate {voxels : List Voxel} (h : operate left op right = .ok voxels)
    (hleft : left.IsInRange) (hright : right.IsInRange) : ∀ v ∈ voxels, v.InRange := by
  unfold operate at h
  split_ifs at h
  · exact (VoxelSet.absolute_eq_ok.1 h).2 ▸ hleft
  · cases h
    exact fun v hv => absurd hv List.not_mem_nil
  · simp only [combineVoxels, except_bind_eq_ok] at h
    obtain ⟨⟨common, leftOnly⟩, hl, ⟨_, rightOnly⟩, hr, h⟩ := h
    obtain ⟨hcommon, hleftOnly⟩ := isInRange_of_partition hl hleft
    obtain ⟨-, hrightOnly⟩ := isInRange_of_partition hr hright
    cases op <;> cases h
    · exact List.forall_mem_append.2 ⟨List.forall_mem_append.2 ⟨hleftOnly, hrightOnly⟩, hcommon⟩
    · exact hcommon
    · exact hleftOnly
    · exact List.forall_mem_append.2 ⟨hleftOnly, hrightOnly⟩

/-- An edit of a pass that ends with a set at hand, or stops on the way. -/
def Leaves (bound : Bound) (p : Issuer × Cache) (edit : Edit (Issuer × Cache) VoxelSet) : Prop :=
  edit.EndsIn p (fun s p' => Extends p p' ∧ s ∈ p'.2.known bound) fun _ p' => Extends p p'

/-- What comes after an evaluation extends the cache further. -/
theorem Leaves.bind {x : Edit (Issuer × Cache) VoxelSet}
    {f : VoxelSet → Edit (Issuer × Cache) VoxelSet} (hx : Leaves bound p x)
    (hf : ∀ s p', Extends p p' → s ∈ p'.2.known bound → Leaves bound p' (f s)) :
    Leaves bound p (x >>= f) := by
  refine Edit.endsIn_bind.2 (EndsIn.imp hx (fun s p' ⟨h, hs⟩ => ?_) fun _ _ h => h)
  exact EndsIn.imp (hf s p' h hs) (fun _ _ h' => ⟨h.trans h'.1, h'.2⟩) fun _ _ h' => h.trans h'

/-- Voxels in range can always be kept. -/
theorem leaves_store (key : OperationKey) {voxels : List Voxel}
    (hrange : ∀ v ∈ voxels, v.InRange) : Leaves bound p (store key voxels) := by
  obtain ⟨i, c⟩ := p
  obtain ⟨s, i', hcreate⟩ := VoxelSet.exists_create_of_inRange i hrange
  simp only [Leaves, store, Edit.endsIn_bind, Edit.endsIn_onFirst, Edit.endsIn_onSecond,
    Edit.endsIn_modify, Edit.endsIn_pure]
  refine Edit.endsIn_of_eq_ok hcreate ?_
  have hsets : ({ c with results := c.results ++ [(key, s)] } : Cache).sets = c.sets ++ [s] := by
    simp [Cache.sets]
  refine ⟨⟨?_, fun hc => ?_, fun held howns => ?_⟩, (IsPass.mem_known_store bound).2 (.inr rfl)⟩
  · rw [hsets]
    exact List.subset_append_left _ _
  · rw [hsets]
    exact List.forall_mem_append.2
      ⟨hc, List.forall_mem_singleton.2 (VoxelSet.isInRange_of_create hcreate).2⟩
  · rw [hsets]
    obtain ⟨hissues, -, -, hsound⟩ := VoxelSet.create_eq_ok hcreate
    exact (howns.issue hissues hsound).perm (List.perm_append_singleton s c.sets).symm

theorem leaves_apply (hleft : left.IsInRange) (hright : right.IsInRange) :
    Leaves bound p (apply left op right) := by
  simp only [Leaves, apply, Edit.endsIn_bind, Edit.endsIn_get]
  cases hfind : p.2.find? left.id op right.id with
  | some s => exact ⟨.refl p, List.mem_append_left _ (mem_sets_of_find? hfind)⟩
  | none =>
    refine Edit.endsIn_bind.2 (Edit.endsIn_ofExcept.2
      ⟨fun voxels hvoxels => ?_, fun _ _ => .refl p⟩)
    exact leaves_store _ (isInRange_of_operate hvoxels hleft hright)

theorem leaves_lookUp (token : Datum) : Leaves bound p (lookUp bound token) := by
  simp only [Leaves, lookUp, Edit.endsIn_bind, Edit.endsIn_get]
  cases token with
  | text name =>
    simp only
    split_ifs
    · exact ⟨.refl p, IsPass.universal_mem p.2 bound⟩
    · exact ⟨.refl p, IsPass.null_mem p.2 bound⟩
    · cases hlookup : bound.lookup name with
      | some s =>
        exact ⟨.refl p, List.mem_append_right _ (Bound.mem_sets_of_lookup hlookup)⟩
      | none => exact .refl p
  | null | bool | number | binary | list | record => exact .refl p

mutual

/-- Evaluating a datum, whatever it is. -/
theorem leaves_resolve (d : Datum) {p : Issuer × Cache}
    (hrange : ∀ s ∈ p.2.known bound, s.IsInRange) : Leaves bound p (resolve bound d) := by
  cases d with
  | list items =>
    rw [resolve]
    exact leaves_solve (.list items) items hrange
  | null | bool | number | binary | text | record =>
    rw [resolve]
    · exact leaves_lookUp _
    · nofun

/-- Evaluating a level of any length. -/
theorem leaves_solve (level : Datum) (items : List Datum) {p : Issuer × Cache}
    (hrange : ∀ s ∈ p.2.known bound, s.IsInRange) : Leaves bound p (solve bound level items) := by
  match items with
  | [item] =>
    rw [solve]
    exact leaves_resolve item hrange
  | [left, token, right] =>
    rw [solve]
    refine (leaves_resolve left hrange).bind fun l p₁ h₁ hl => ?_
    refine Edit.endsIn_bind.2 (Edit.endsIn_ofExcept.2 ⟨fun op _ => ?_, fun _ _ => .refl p₁⟩)
    have hrange₁ := h₁.known_isInRange hrange
    refine (leaves_resolve right hrange₁).bind fun r p₂ h₂ hr => ?_
    have hrange₂ := h₂.known_isInRange hrange₁
    exact leaves_apply (hrange₂ l (h₂.mem_known hl)) (hrange₂ r hr)
  | [] | [_, _] | _ :: _ :: _ :: _ :: _ => exact .refl p

end

theorem leaves_evaluate (tree : Datum) (hrange : ∀ s ∈ p.2.known bound, s.IsInRange) :
    Leaves bound p (evaluate bound tree) := by
  cases hparts : tree.parts with
  | some items =>
    rw [evaluate, hparts]
    exact leaves_solve tree items hrange
  | none =>
    rw [evaluate, hparts]
    exact .refl p

end Evaluation

/-! ## Composites -/

namespace Composite

variable {c c' : Composite} {p p' p'' : Issuer × Composite}

/-- A composite after a pass, however it ended: its cache belongs to whoever owned it before, if the
named sets are in range. -/
structure Settles (bound : Bound) (p p' : Issuer × Composite) : Prop where
  id : p'.2.base.id = p.2.base.id
  isDeleted : p'.2.base.isDeleted = p.2.base.isDeleted
  equation : p'.2.equation = p.2.equation
  owns : (∀ s ∈ bound.sets, s.IsInRange) →
    ∀ held, p.1.Owns held p.2.cacheSets → p'.1.Owns held p'.2.cacheSets

theorem Settles.refl (bound : Bound) (p : Issuer × Composite) : Settles bound p p :=
  ⟨rfl, rfl, rfl, fun _ _ h => h⟩

theorem isInRange_iff_of_universe {voxels : List Voxel} (h : bound.universe = .ok voxels) :
    (∀ s ∈ bound.sets, s.IsInRange) ↔ ∀ v ∈ voxels, v.InRange := by
  obtain ⟨lists, hlists, h⟩ := except_bind_eq_ok.1 h
  cases h
  have hmap : bound.sets.map VoxelSet.absoluteFill = lists := by
    simp only [except_mapM_eq_ok, VoxelSet.absolute_eq_ok] at hlists
    rw [← List.forall₂_eq_eq_eq, Bound.sets, List.map_map, List.forall₂_map_left_iff]
    exact hlists.imp fun b voxels hb => hb.2
  simp only [Voxel.mem_distinct, List.mem_flatten, ← hmap, List.mem_map]
  grind [VoxelSet.IsInRange]

/-- Sets that belong to the composite can always be deleted. -/
theorem endsIn_releaseCache (p : Issuer × Composite) :
    releaseCache.EndsIn p
      (fun _ p' => p'.2 = { p.2 with cache := none } ∧
        ∀ held, p.1.Owns held p.2.cacheSets → p'.1.Owns held [])
      (fun _ p' => p'.2 = p.2 ∧ ∀ held, ¬p.1.Owns held p.2.cacheSets) := by
  simp only [releaseCache, Edit.endsIn_bind, Edit.endsIn_get, Edit.endsIn_onFirst,
    Edit.endsIn_onSecond, Edit.endsIn_modify, true_and]
  refine Edit.endsIn_iff.2 ⟨fun _ i' hrun held howns => ?_, fun e i' hrun held howns => ?_⟩
  · rw [← List.append_nil p.2.cacheSets] at howns
    exact howns.of_releaseSets hrun
  · rw [← List.append_nil p.2.cacheSets] at howns
    obtain ⟨_, hok, -⟩ := howns.exists_releaseSets
    rw [hrun] at hok
    cases hok

/-- The outcome of beginning a pass. When it begins, the base is live, and all sets at hand are in
range. -/
theorem endsIn_beginCache (bound : Bound) (p : Issuer × Composite) :
    (beginCache bound).EndsIn p
      (fun cache p' => p'.2 = { p.2 with cache := some cache } ∧ p.2.base.isDeleted = false ∧
        (∀ s ∈ cache.known bound, s.IsInRange) ∧ Settles bound p p')
      (fun _ p' => p'.2.base = p.2.base ∧ Settles bound p p') := by
  simp only [beginCache, Edit.endsIn_bind, Edit.endsIn_get, Edit.endsIn_ofExcept, true_and]
  refine ⟨fun _ hlive => ?_, fun _ _ => .refl bound p⟩
  refine (endsIn_releaseCache p).imp ?_ ?_
  · rintro _ ⟨i₁, c₁⟩ ⟨rfl, howns₁⟩
    have hrest : Settles bound p (i₁, { p.2 with cache := none }) :=
      ⟨rfl, rfl, rfl, fun _ => howns₁⟩
    refine ⟨fun voxels huniverse => ?_, fun _ _ => ⟨rfl, hrest⟩⟩
    have hrange := isInRange_iff_of_universe huniverse
    simp only [Edit.endsIn_onFirst, Edit.endsIn_onSecond, Edit.endsIn_modify, Edit.endsIn_pure,
      true_and]
    refine Edit.endsIn_iff.2 ⟨fun universal i₂ hcreate => ?_, fun e i₂ hcreate => ?_⟩
    · obtain ⟨null, i₃, hcreate'⟩ := VoxelSet.exists_create_of_inRange i₂
        (List.forall_mem_nil Voxel.InRange)
      refine Edit.endsIn_of_eq_ok hcreate' ?_
      obtain ⟨habsolute, huniversal⟩ := VoxelSet.isInRange_of_create hcreate
      have hnull := (VoxelSet.isInRange_of_create hcreate').2
      have hbound := hrange.2 (habsolute ▸ huniversal)
      refine ⟨VoxelSet.checkAlive_eq_ok.1 hlive, ?_, rfl, rfl, rfl, fun _ held howns => ?_⟩
      · exact List.forall_mem_cons.2 ⟨huniversal, List.forall_mem_cons.2 ⟨hnull, hbound⟩⟩
      · exact (((howns₁ held howns).of_create hcreate).of_create hcreate').perm (.swap _ _ _)
    · refine ⟨rfl, rfl, rfl, fun hbound => ?_⟩
      obtain ⟨s, i', hok⟩ := VoxelSet.exists_create_of_inRange i₁ (hrange.1 hbound)
      rw [hcreate] at hok
      cases hok
  · rintro _ ⟨i₁, c₁⟩ ⟨rfl, hnot⟩
    exact ⟨rfl, rfl, rfl, rfl, fun _ held howns => absurd howns (hnot held)⟩

/-- The outcome of an interpretation. A failed one leaves the base as it was, because nothing fails
after the tree was evaluated. -/
theorem endsIn_interpret (bound : Bound) (p : Issuer × Composite) :
    (interpret bound).EndsIn p (fun _ p' => Settles bound p p')
      (fun _ p' => p'.2.base = p.2.base ∧ Settles bound p p') := by
  refine Edit.endsIn_bind.2 ((endsIn_beginCache bound p).imp ?_ fun _ _ h => h)
  rintro cache ⟨i₁, c₁⟩ ⟨rfl, hlive, hrange, hsettles⟩
  simp only [onCache, onBase, Edit.endsIn_bind, Edit.endsIn_get, Edit.endsIn_ofExcept,
    Edit.endsIn_onPart, Edit.endsIn_onSecond, Option.getD_some, true_and]
  have hgoes : ∀ i₂ cache', Evaluation.Extends (i₁, cache) (i₂, cache') →
      Settles bound p (i₂, { p.2 with cache := some cache' }) := fun i₂ cache' hextends =>
    ⟨rfl, rfl, rfl, fun hbound held howns => hextends.owns held (hsettles.owns hbound held howns)⟩
  refine (Evaluation.leaves_evaluate p.2.equation.tree hrange).imp ?_ ?_
  · rintro s ⟨i₂, cache'⟩ ⟨hextends, hs⟩
    have hsettles' := hgoes i₂ cache' hextends
    refine ⟨fun voxels hvoxels => ?_, fun _ _ => hsettles'⟩
    obtain ⟨-, rfl⟩ := VoxelSet.absolute_eq_ok.1 hvoxels
    -- the voxels of the result are in range, so they can be taken over
    obtain ⟨base, hset, hsound, hid, -, -⟩ := VoxelSet.exists_setFill_absolute hlive
      (hextends.known_isInRange hrange s hs)
    refine Edit.endsIn_of_eq_ok hset ?_
    exact ⟨hid, hsound.isLive.trans hlive.symm, rfl, hsettles'.owns⟩
  · rintro _ ⟨i₂, cache'⟩ hextends
    exact hgoes i₂ cache' hextends

/-- The outcome of making the cache anew. -/
theorem endsIn_resetCache (bound : Bound) (p : Issuer × Composite) :
    (resetCache bound).EndsIn p (fun _ p' => Settles bound p p') fun _ p' => Settles bound p p' :=
  Edit.endsIn_bind.2 ((endsIn_beginCache bound p).imp (fun _ _ h => h.2.2.2) fun _ _ h => h.2)

/-- Deleting a live composite that owns its cache gives back its own identifier and those of the
cache. -/
theorem endsIn_release {p : Issuer × Composite} (hlive : p.2.base.isDeleted = false)
    (howns : p.1.Owns held p.2.cacheSets) : release.EndsIn p
      (fun _ p' => p'.2.base.isDeleted = true ∧
        ∀ id, id ∈ p'.1.inUse ↔ id ∈ held ∧ id ≠ p.2.base.id)
      fun _ _ => False := by
  have halive : p.2.base.checkAlive = .ok () := VoxelSet.checkAlive_eq_ok.2 hlive
  simp only [release, Edit.endsIn_bind, Edit.endsIn_get, halive, Edit.endsIn_ofExcept_ok]
  refine (endsIn_releaseCache p).imp ?_ fun _ _ h => absurd howns (h.2 held)
  rintro _ ⟨i₁, c₁⟩ ⟨rfl, hfree⟩
  have hinUse : ∀ id, id ∈ i₁.inUse ↔ id ∈ held := fun id => by
    simpa using (hfree held howns).inUse id
  simp only [VoxelSet.release, Issuer.release, Edit.endsIn_onFirst, Edit.endsIn_onSecond,
    Edit.endsIn_bind, halive, Edit.endsIn_ofExcept_ok, Edit.endsIn_modify, Edit.endsIn_pure]
  refine ⟨rfl, fun id => ?_⟩
  rw [← hinUse]
  simp [Issuer.inUse, Registry.remove]

end Composite
end VoxelAlgebra
