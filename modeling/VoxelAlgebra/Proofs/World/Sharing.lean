import VoxelAlgebra.Proofs.Solid.Sharing
import VoxelAlgebra.Proofs.World.Ownership

/-!
# Shared results in a world

The names of a composite stand for objects, and several names can stand for one. Live objects have
identifiers of their own, so an interpretation computes an operation once, however often and under
whatever names it occurs in the tree.

## Main definitions

* `World.HasOwnIds`, `World.IsSound.hasOwnIds` — live objects that are told apart by identifiers.
* `World.carries_of_bound` — objects can be told from the sets that their names are bound to.
* `World.interpret_shares` — an interpretation has one result for each class of same operations.
-/

namespace VoxelAlgebra.World

variable {w w' : World} {h k k' : Handle} {o o' : Solid} {c : Composite} {bound : Bound}
  {names : List (String × Handle)}

/-- Live objects have different identifiers in use, and no set that belongs to one of them has the
identifier of another. -/
structure HasOwnIds (w : World) : Prop where
  isRegistered : w.IsRegistered
  injective : ∀ {k k' : Handle} {o o' : Solid}, w.solids[k]? = some o → w.solids[k']? = some o' →
    o.base.isDeleted = false → o'.base.isDeleted = false → o.base.id = o'.base.id → k = k'
  apart : ∀ {k k' : Handle} {o o' : Solid}, w.solids[k]? = some o → w.solids[k']? = some o' →
    o.base.isDeleted = false → o'.base.isDeleted = false → ∀ s ∈ o.parts, s.id ≠ o'.base.id

/-- The identifiers of a sound world tell its objects apart. -/
theorem IsSound.hasOwnIds (hw : w.IsSound) : w.HasOwnIds := by
  have hother : ∀ {k k' : Handle} {o o' : Solid}, w.solids[k]? = some o →
      w.solids[k']? = some o' → o'.base.isDeleted = false → k' ≠ k →
      ∀ s ∈ o.sets, s.id ≠ o'.base.id := fun {k k' o o'} ho ho' hlive' hne s hs hid => by
    have hsets := (VoxelSet.areApart_append.1 (hw.owns ho).toAreApart).1
    refine hsets.notHeld s hs (.inr ⟨o'.base, mem_others ho' hne ?_, hid.symm⟩)
    exact Solid.sets_of_isLive hlive' ▸ List.mem_cons_self
  refine ⟨hw.isRegistered, fun {k k' o o'} ho ho' hlive hlive' hid => ?_,
    fun {k k' o o'} ho ho' hlive hlive' s hs hid => ?_⟩
  · by_contra hne
    exact hother ho ho' hlive' (Ne.symm hne) o.base
      (Solid.sets_of_isLive hlive ▸ List.mem_cons_self) hid
  · by_cases hk : k' = k
    · subst hk
      obtain rfl := Option.some.inj (ho.symm.trans ho')
      have hsets := (VoxelSet.areApart_append.1 (hw.owns ho).toAreApart).1
      rw [Solid.sets_of_isLive hlive] at hsets
      exact (VoxelSet.areApart_cons.1 hsets).1.2.2.2 ⟨s, hs, hid⟩
    · exact hother ho ho' hlive' hk s (Solid.sets_of_isLive hlive ▸ List.mem_cons_of_mem _ hs) hid

/-! ## Names -/

/-- The named sets are those of objects. -/
theorem exists_of_mem_bound (hbound : World.bound names w = .ok bound w) :
    ∀ s ∈ bound.sets, ∃ (k : Handle) (o : Solid), w.solids[k]? = some o ∧ o.base = s := by
  intro s hs
  obtain ⟨e, -, o, ho⟩ := exists_object_of_bound hbound hs
  exact ⟨e.2, o, ho⟩

/-- A name is bound to the set of the object that it stands for. -/
theorem exists_lookup_of_bound (hbound : World.bound names w = .ok bound w) {name : String}
    (hname : names.lookup name = some k) :
    ∃ o, w.solids[k]? = some o ∧ bound.lookup name = some o.base := by
  have hall := (bound_eq_ok.1 hbound).2
  clear hbound
  induction hall with
  | nil => cases hname
  | @cons e b names bound hb _ ih =>
    obtain ⟨heq, o, ho, hob⟩ := hb
    rw [List.lookup_cons] at hname ⊢
    rw [heq]
    by_cases hne : name == e.1
    · rw [hne] at hname ⊢
      cases hname
      exact ⟨o, ho, congrArg some hob.symm⟩
    · rw [Bool.not_eq_true] at hne
      rw [hne] at hname ⊢
      exact ih hname

/-- Objects can be told from the live sets that their names are bound to. -/
theorem carries_of_bound (hw : w.HasOwnIds) (hbound : World.bound names w = .ok bound w)
    (hlive : ∀ s ∈ bound.sets, s.isDeleted = false) : bound.Carries (names.lookup ·) where
  unique := fun hm hn hs ht => by
    obtain ⟨o, ho, hos⟩ := exists_lookup_of_bound hbound hm
    obtain ⟨o', ho', hot⟩ := exists_lookup_of_bound hbound hn
    obtain rfl := Option.some.inj (ho.symm.trans ho')
    exact Option.some.inj (hs.symm.trans (hos.trans (hot.symm.trans ht)))
  injective := fun hm hn hs ht hid => by
    obtain ⟨o, ho, hos⟩ := exists_lookup_of_bound hbound hm
    obtain ⟨o', ho', hot⟩ := exists_lookup_of_bound hbound hn
    obtain rfl := Option.some.inj (hs.symm.trans hos)
    obtain rfl := Option.some.inj (ht.symm.trans hot)
    exact hw.injective ho ho' (hlive _ (Bound.mem_sets_of_lookup hs))
      (hlive _ (Bound.mem_sets_of_lookup ht)) hid

/-! ## Interpretations -/

/-- After an interpretation the cache has the universal set, the null set and one set for each class
of same operations of the tree. All operations of a class were resolved to that set, and those of
different classes to different ones. -/
theorem interpret_shares (hw : w.HasOwnIds) (hc : w.solids[h]? = some (.composite c names))
    {items : List Datum} (htree : c.equation.tree = .list items)
    (hitems : (Datum.list items).IsTree (· ∈ names.map Prod.fst))
    (hrun : onComposite h Composite.interpret w = .ok () w') :
    ∃ bound a c₀ i₀ c' cache, World.bound names w = .ok bound w ∧
      (Datum.list items).Reads (names.lookup ·) a ∧
      Composite.beginCache bound (w.issuer, c) = .ok c₀ (i₀, { c with cache := some c₀ }) ∧
      w'.solids[h]? = some (.composite c' names) ∧ c'.cache = some cache ∧
      Evaluation.Shares (names.lookup ·) bound (.list items) a (i₀, c₀) cache := by
  obtain ⟨_, _, bound, ho, hbound, hrun⟩ := onComposite_eq_ok.1 hrun
  cases hc.symm.trans ho
  obtain ⟨i', c', hinterpret, rfl⟩ := onPartOf_eq_ok.1 hrun
  obtain ⟨c₀, i₀, s, cache, hbegin, hevaluate, hcache⟩ := Composite.interpret_eq_ok hinterpret
  obtain ⟨-, hempty, hlive, hlives, -⟩ := Composite.beginCache_eq_ok hbegin
  have hmemoizes := Composite.memoizes_of_beginCache hbegin (carries_of_bound hw hbound hlives)
    (fun s hs => by
      obtain ⟨k, o, ho, rfl⟩ := exists_of_mem_bound hbound s hs
      exact hw.isRegistered k o ho (hlives _ hs))
    fun s hs t ht => by
      obtain ⟨k, o, ho, rfl⟩ := exists_of_mem_bound hbound t ht
      exact hw.apart hc ho hlive (hlives _ ht) s hs
  obtain ⟨a, ha⟩ := Datum.IsTree.exists_reads (ν := (names.lookup ·))
    (hitems.mono fun name hname => by
      obtain ⟨e, he, rfl⟩ := List.mem_map.1 hname
      exact List.lookup_isSome_iff.2 ⟨e, he, beq_self_eq_true e.1⟩)
  have hresolve : Evaluation.resolve bound (.list items) (i₀, c₀) = .ok s (i', cache) := by
    rw [htree] at hevaluate
    rwa [Evaluation.resolve]
  exact ⟨bound, a, c₀, i₀, c', cache, hbound, ha, hbegin, solids_put hc _, hcache,
    Evaluation.shares_of_resolve ha hmemoizes hempty hresolve⟩

/-- The union of two sets and the swapped union under another name are one operation, which is then
intersected with itself: two classes, so four sets. -/
theorem interpret_shares_swapped : ∃ (w w' : World) (c c₁ : Composite),
    w.HasOwnIds ∧ w.solids[2]? = some (.composite c [("a", 0), ("b", 1), ("c", 0)]) ∧
    c.equation.tree = .list [.list [.text "a", .text "∪", .text "b"], .text "∩",
      .list [.text "b", .text "∪", .list [.text "c"]]] ∧
    (Datum.list [.list [.text "a", .text "∪", .text "b"], .text "∩",
      .list [.text "b", .text "∪", .list [.text "c"]]]).IsTree
      (· ∈ [("a", 0), ("b", 1), ("c", 0)].map Prod.fst) ∧
    onComposite 2 Composite.interpret w = .ok () w' ∧
    w'.solids[2]? = some (.composite c₁ [("a", 0), ("b", 1), ("c", 0)]) ∧
    c₁.cacheSets.length = 4 ∧
    ∃ bound a c₀ i₀ c' cache, World.bound [("a", 0), ("b", 1), ("c", 0)] w = .ok bound w ∧
      (Datum.list [.list [.text "a", .text "∪", .text "b"], .text "∩",
        .list [.text "b", .text "∪", .list [.text "c"]]]).Reads
        ([("a", 0), ("b", 1), ("c", 0)].lookup ·) a ∧
      Composite.beginCache bound (w.issuer, c) = .ok c₀ (i₀, { c with cache := some c₀ }) ∧
      w'.solids[2]? = some (.composite c' [("a", 0), ("b", 1), ("c", 0)]) ∧
      c'.cache = some cache ∧
      Evaluation.Shares ([("a", 0), ("b", 1), ("c", 0)].lookup ·) bound
        (.list [.list [.text "a", .text "∪", .text "b"], .text "∩",
          .list [.text "b", .text "∪", .list [.text "c"]]]) a (i₀, c₀) cache := by
  obtain ⟨w, hreached, w', c, c₁, hc, htree, hrun, hc₁, hlength⟩ :
      ∃ w : World, w.Reached .hexadecimal ∧ ∃ (w' : World) (c c₁ : Composite),
        w.solids[2]? = some (.composite c [("a", 0), ("b", 1), ("c", 0)]) ∧
        c.equation.tree = .list [.list [.text "a", .text "∪", .text "b"], .text "∩",
          .list [.text "b", .text "∪", .list [.text "c"]]] ∧
        onComposite 2 Composite.interpret w = .ok () w' ∧
        w'.solids[2]? = some (.composite c₁ [("a", 0), ("b", 1), ("c", 0)]) ∧
        c₁.cacheSets.length = 4 := by
    refine exists_reached [.createSet [0, 0, 0] [], .createSet [0, 0, 0] [],
      .createComposite [0, 0, 0] [("a", 0), ("b", 1), ("c", 0)],
      .setTree 2 (.list [.list [.text "a", .text "∪", .text "b"], .text "∩",
        .list [.text "b", .text "∪", .list [.text "c"]]])] (by cbv) ?_
    exact ⟨_, _, _, rfl, rfl, by cbv, by rfl, by rfl⟩
  have hitems : (Datum.list [.list [.text "a", .text "∪", .text "b"], .text "∩",
      .list [.text "b", .text "∪", .list [.text "c"]]]).IsTree
      (· ∈ [("a", 0), ("b", 1), ("c", 0)].map Prod.fst) :=
    .binary rfl (.binary rfl (.leaf (by simp)) (.leaf (by simp)))
      (.binary rfl (.leaf (by simp)) (.lone (.leaf (by simp))))
  have hw := hreached.isSound.hasOwnIds
  exact ⟨w, w', c, c₁, hw, hc, htree, hitems, hrun, hc₁, hlength,
    interpret_shares hw hc htree hitems hrun⟩

end VoxelAlgebra.World
