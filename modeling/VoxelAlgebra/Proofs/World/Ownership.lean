import VoxelAlgebra.Proofs.Solid.Representation
import VoxelAlgebra.Proofs.Solid.Runs.Composite
import VoxelAlgebra.Proofs.World.Failure

/-!
# Identifiers of a composite

A composite has an identifier of its own and one for every set of its cache. Whatever is done to it,
and whether that succeeds or fails, these are the only identifiers in use besides those that were in
use before it was made. So its deletion gives back exactly what it took, and no object that it names
ever loses its identifier.

## Main definitions

* `World.attempt`, `World.Attempts` — operations on a composite that may fail.
* `World.Balances` — a composite beside the identifiers that are held by others.
* `World.IsBalanced.attempt`, `World.IsBalanced.of_attempts` — one operation, and all.
* `World.Accounts` — the identifiers in use after any operations and after the deletion.
-/

namespace VoxelAlgebra

theorem VoxelSet.ids_singleton (s : VoxelSet) : ids [s] = {s.id} := by
  ext id
  simp [eq_comm]

namespace World

variable {w w' : World} {h k : Handle} {o : Solid} {c c' : Composite} {held : Set String}
  {names names' : List (String × Handle)}

/-! ## Operations that may fail -/

/-- The operations on a composite, and changes of the voxels of any object. None of them makes or
deletes an object. -/
def Operation.Concerns (h : Handle) : Operation → Prop
  | changeNames k _ | setEquation k _ | setTree k _ | resetCache k | interpret k => k = h
  | setOrigin .. | setFill .. | addFill .. | recompute _ => True
  | _ => False

/-- The world that an operation leaves, whether it succeeds or fails. -/
def attempt (op : Operation) (w : World) : World := (op.run.outcome w).2

theorem attempt_of_eq_ok {op : Operation} {u : Unit} (hrun : op.run w = .ok u w') :
    attempt op w = w' := by
  rw [attempt, Edit.outcome, hrun]

theorem attempt_of_eq_error {op : Operation} {e : Fault} (hrun : op.run w = .error e w') :
    attempt op w = w' := by
  rw [attempt, Edit.outcome, hrun]

def IsInRange (w : World) : Prop :=
  ∀ (k : Handle) (o : Solid), w.solids[k]? = some o → o.base.IsInRange

instance (w : World) : Decidable w.IsInRange :=
  decidable_of_iff (∀ o ∈ w.solids.toList, ∀ v ∈ o.base.absoluteFill, v.InRange)
    ⟨fun hw _ o ho => hw o (Array.mem_toList_iff.2 (Array.mem_of_getElem? ho)), fun hw o ho => by
      obtain ⟨k, hk⟩ := Array.getElem?_of_mem (Array.mem_toList_iff.1 ho)
      exact hw k o hk⟩

/-- The worlds that operations on a composite lead to, successful or not, with voxels in range on
the way. -/
inductive Attempts (h : Handle) (w : World) : World → Prop
  | refl : Attempts h w w
  | step {w' : World} {op : Operation} : Attempts h w w' → w'.IsInRange → op.Concerns h →
    Attempts h w (attempt op w')

namespace Attempts

theorem step_ok {w'' : World} {op : Operation} (hw : Attempts h w w')
    (hrun : op.run w' = .ok () w'') (hrange : w'.IsInRange) (hop : op.Concerns h) :
    Attempts h w w'' :=
  attempt_of_eq_ok hrun ▸ hw.step hrange hop

theorem step_error {w'' : World} {op : Operation} {e : Fault} (hw : Attempts h w w')
    (hrun : op.run w' = .error e w'') (hrange : w'.IsInRange) (hop : op.Concerns h) :
    Attempts h w w'' :=
  attempt_of_eq_error hrun ▸ hw.step hrange hop

end Attempts

def IsRegistered (w : World) : Prop :=
  ∀ (k : Handle) (o : Solid), w.solids[k]? = some o → o.base.isDeleted = false →
    o.base.id ∈ w.issuer.inUse

theorem IsSound.isRegistered (hw : w.IsSound) : w.IsRegistered := by
  intro k o ho hlive
  have hmem : o.base ∈ w.sets := (sets_perm ho).mem_iff.2
    (List.mem_append_left _ (Solid.sets_of_isLive hlive ▸ List.mem_cons_self))
  exact (hw.inUse _).2 (.inr ⟨o.base, hmem, rfl⟩)

/-- An edit of the voxels of an object. -/
theorem endsIn_onSet {α : Type} {edit : Edit VoxelSet α} {Q : α → World → Prop}
    {E : Fault → World → Prop} (hread : ∀ e, E e w)
    (hedit : ∀ o, w.solids[k]? = some o → edit.EndsIn o.base
      (fun a t => Q a (put k (o.withBase t) w)) fun e t => E e (put k (o.withBase t) w)) :
    (onSet k edit).EndsIn w Q E :=
  Edit.endsIn_bind.2 (endsIn_solid.2 ⟨fun o ho =>
    Edit.endsIn_onPart.2 (Edit.endsIn_onSecond.2 (hedit o ho)), fun _ => hread _⟩)

theorem IsInRange.put (hw : w.IsInRange) (ho : o.base.IsInRange) : (put h o w).IsInRange := by
  intro k o' ho'
  obtain rfl | ho' := eq_or_of_solids_put ho'
  · exact ho
  · exact hw k o' ho'

theorem IsInRange.bound {bound : Bound} (hw : w.IsInRange)
    (hbound : World.bound names w = .ok bound w) : ∀ s ∈ bound.sets, s.IsInRange := by
  intro s hs
  obtain ⟨e, -, o, ho, rfl⟩ := exists_object_of_bound hbound hs
  exact hw e.2 o ho

/-! ## Ownership -/

/-- A live composite beside the identifiers that others hold: in use are these, its own and those of
its cache, and every other live object has one that others hold. -/
structure Balances (held : Set String) (h : Handle) (w : World) (c : Composite)
    (names : List (String × Handle)) : Prop where
  composite : w.solids[h]? = some (.composite c names)
  isLive : c.base.isDeleted = false
  notHeld : c.base.id ∉ held
  owns : w.issuer.Owns (held ∪ {c.base.id}) c.cacheSets
  others : ∀ k ≠ h, ∀ o : Solid, w.solids[k]? = some o → o.base.isDeleted = false →
    o.base.id ∈ held

/-- The composite of a handle is balanced, whatever its voxels, equation and names are. -/
def IsBalanced (held : Set String) (h : Handle) (w : World) : Prop :=
  ∃ c names, Balances held h w c names

def KeepsBalance (held : Set String) (h : Handle) (w : World) (edit : Edit World Unit) : Prop :=
  edit.EndsIn w (fun _ => IsBalanced held h) fun _ => IsBalanced held h

namespace Balances

/-- The composite is changed, with the sets that it owns. -/
theorem put_composite (hw : Balances held h w c names) {i : Issuer} (hid : c'.base.id = c.base.id)
    (hlive : c'.base.isDeleted = c.base.isDeleted)
    (howns : i.Owns (held ∪ {c.base.id}) c'.cacheSets) :
    Balances held h (put h (.composite c' names') { w with issuer := i }) c' names' where
  composite := solids_put hw.composite _
  isLive := hlive.trans hw.isLive
  notHeld := hid ▸ hw.notHeld
  owns := hid ▸ howns
  others := fun k hk o ho => hw.others k hk o (solids_put_of_ne hk.symm _ _ ▸ ho)

/-- The voxels of an object are changed. -/
theorem put_base (hw : Balances held h w c names) (ho : w.solids[k]? = some o) {t : VoxelSet}
    (hsame : o.base.IsSame t) : IsBalanced held h (put k (o.withBase t) w) := by
  by_cases hk : k = h
  · subst hk
    obtain rfl : o = .composite c names := Option.some.inj (ho.symm.trans hw.composite)
    exact ⟨{ c with base := t }, names, hw.put_composite hsame.id hsame.isDeleted hw.owns⟩
  · refine ⟨c, names, ?_, hw.isLive, hw.notHeld, hw.owns, fun j hj o' ho' hlive => ?_⟩
    · rw [solids_put_of_ne hk]
      exact hw.composite
    · obtain rfl | hjk := eq_or_ne k j
      · rw [solids_put ho] at ho'
        cases ho'
        rw [Solid.base_withBase] at hlive ⊢
        rw [hsame.id]
        exact hw.others k hj o ho (hsame.isDeleted ▸ hlive)
      · exact hw.others j hj o' (solids_put_of_ne hjk _ _ ▸ ho') hlive

theorem onSet (hw : Balances held h w c names) (k : Handle) (change : VoxelSet.Change) :
    KeepsBalance held h w (World.onSet k change.run) :=
  endsIn_onSet (fun _ => ⟨c, names, hw⟩) fun o ho =>
    (change.isSafe_run o.base).imp (fun _ _ hsame => hw.put_base ho hsame)
      fun _ _ hsafe => hw.put_base ho hsafe.1

/-- An edit that settles the composite over sets in range. -/
theorem onComposite (hw : Balances held h w c names) (hrange : w.IsInRange)
    {edit : Bound → Edit (Issuer × Composite) Unit}
    (hedit : ∀ bound p, (edit bound).EndsIn p (fun _ => Composite.Settles bound p)
      fun _ => Composite.Settles bound p) :
    KeepsBalance held h w (World.onComposite h edit) := by
  refine endsIn_onComposite hw.composite (fun _ => ⟨c, names, hw⟩) fun bound hbound => ?_
  have hsettles : ∀ p : Issuer × Composite, Composite.Settles bound (w.issuer, c) p →
      IsBalanced held h (World.put h (.composite p.2 names) { w with issuer := p.1 }) :=
    fun p hp => ⟨p.2, names,
      hw.put_composite hp.id hp.isDeleted (hp.owns (hrange.bound hbound) _ hw.owns)⟩
  exact (hedit bound _).imp (fun _ => hsettles) fun _ => hsettles

/-- An edit of the equation alone. -/
theorem onEquation (hw : Balances held h w c names) {edit : Edit (Issuer × Composite) Unit}
    (hedit : ∀ i c, edit.EndsIn (i, c) (fun _ p => ∃ e, p = (i, { c with equation := e }))
      fun _ p => ∃ e, p = (i, { c with equation := e })) :
    KeepsBalance held h w (World.onComposite h fun _ => edit) := by
  have hput : ∀ p : Issuer × Composite, (∃ e, p = (w.issuer, { c with equation := e })) →
      IsBalanced held h (World.put h (.composite p.2 names) { w with issuer := p.1 }) := by
    rintro _ ⟨e, rfl⟩
    exact ⟨{ c with equation := e }, names, hw.put_composite rfl rfl hw.owns⟩
  exact endsIn_onComposite hw.composite (fun _ => ⟨c, names, hw⟩) fun _ _ =>
    (hedit w.issuer c).imp (fun _ => hput) fun _ => hput

/-- Other names are taken up also when the cache cannot be made for them. -/
theorem changeNames (hw : Balances held h w c names) (hrange : w.IsInRange)
    (names' : List (String × Handle)) : KeepsBalance held h w (World.changeNames h names') := by
  rw [KeepsBalance, World.changeNames, endsIn_solid_bind hw.composite]
  simp only [Edit.endsIn_bind, Edit.endsIn_ofExcept, Edit.endsIn_modify]
  refine ⟨fun _ _ => ?_, fun _ _ => ⟨c, names, hw⟩⟩
  have hput : Balances held h (World.put h (.composite c (bindNames names')) w) c
      (bindNames names') := hw.put_composite rfl rfl hw.owns
  have hbase : c.base.IsInRange := hrange h _ hw.composite
  have hrange' : (World.put h (.composite c (bindNames names')) w).IsInRange := hrange.put hbase
  exact hput.onComposite hrange' Composite.endsIn_resetCache

end Balances

/-- Every operation on the composite keeps the balance, whether it succeeds or fails. -/
theorem IsBalanced.attempt (hw : IsBalanced held h w) (hrange : w.IsInRange) {op : Operation}
    (hop : op.Concerns h) : IsBalanced held h (attempt op w) := by
  obtain ⟨c, names, hw⟩ := hw
  refine Edit.EndsIn.outcome (P := IsBalanced held h) ?_
  cases op with
  | setOrigin k origin => exact hw.onSet k (.setOrigin origin)
  | setFill k fill => exact hw.onSet k (.setFill fill)
  | addFill k more => exact hw.onSet k (.addFill more)
  | recompute k => exact hw.onSet k .recompute
  | changeNames k names' =>
    obtain rfl : k = h := hop
    exact hw.changeNames hrange names'
  | setEquation k text =>
    obtain rfl : k = h := hop
    refine hw.onEquation fun i c => ?_
    simp only [Composite.setEquation, Edit.endsIn_bind, Edit.endsIn_get, Edit.endsIn_ofExcept,
      Edit.endsIn_onSecond, Edit.endsIn_onPart]
    exact ⟨fun _ _ => Edit.endsIn_of_forall (fun _ e => ⟨e, rfl⟩) fun _ e => ⟨e, rfl⟩,
      fun _ _ => ⟨c.equation, rfl⟩⟩
  | setTree k tree =>
    obtain rfl : k = h := hop
    exact hw.onEquation fun i c => ⟨{ c.equation with tree }, rfl⟩
  | resetCache k =>
    obtain rfl : k = h := hop
    exact hw.onComposite hrange Composite.endsIn_resetCache
  | interpret k =>
    obtain rfl : k = h := hop
    exact hw.onComposite hrange fun bound p =>
      (Composite.endsIn_interpret bound p).imp (fun _ _ hp => hp) fun _ _ hp => hp.2
  | _ => exact hop.elim

/-- So do any operations one after the other. -/
theorem IsBalanced.of_attempts (hw : IsBalanced held h w) (hrun : Attempts h w w') :
    IsBalanced held h w' := by
  induction hrun with
  | refl => exact hw
  | step _ hrange hop ih => exact ih.attempt hrange hop

/-! ## Beginning and end -/

/-- A new composite is balanced beside the identifiers that were in use before. -/
theorem isBalanced_of_createComposite {origin : List Number} (hw : w.IsRegistered)
    (hcreate : createComposite origin names w = .ok h w') :
    IsBalanced {id | id ∈ w.issuer.inUse} h w' := by
  simp only [createComposite, Edit.bind_eq_ok, bound_eq_ok, onIssuer_eq_ok, add_eq_ok] at hcreate
  obtain ⟨bound, _, ⟨rfl, -⟩, c, _, ⟨i, hrun, rfl⟩, rfl, rfl⟩ := hcreate
  have howns := Composite.owns_of_create (Issuer.Owns.of_inUse w.issuer) hrun
  rw [List.append_nil] at howns
  have hperm : c.sets.Perm (c.cacheSets ++ [c.base]) := (List.perm_append_singleton _ _).symm
  obtain ⟨hcache, hbase⟩ := Issuer.Owns.append_iff.1 (howns.perm hperm)
  refine ⟨c, bindNames names, ?_, ?_, ?_, ?_, fun k hk o ho hlive => ?_⟩
  · simp
  · exact (hbase.isSound c.base (List.mem_singleton_self _)).isLive
  · exact hbase.notHeld c.base (List.mem_singleton_self _)
  · exact VoxelSet.ids_singleton c.base ▸ hcache
  · rw [Array.getElem?_push, if_neg hk] at ho
    exact hw k o ho hlive

theorem Balances.inUse_iff (hw : Balances held h w c names) (id : String) : id ∈ w.issuer.inUse ↔
    id ∈ held ∨ id = c.base.id ∨ ∃ s ∈ c.cacheSets, s.id = id := by
  rw [hw.owns.inUse, Set.mem_union, Set.mem_singleton_iff, or_assoc, VoxelSet.mem_ids]

theorem Balances.isRegistered (hw : Balances held h w c names) : w.IsRegistered := by
  intro k o ho hlive
  rw [hw.inUse_iff]
  obtain rfl | hk := eq_or_ne k h
  · obtain rfl := Option.some.inj (hw.composite.symm.trans ho)
    exact .inr (.inl rfl)
  · exact .inl (hw.others k hk o ho hlive)

/-- Deleting the composite gives back what it took, and leaves the others theirs. -/
theorem Balances.exists_delete (hw : Balances held h w c names) :
    ∃ w', delete h w = .ok () w' ∧ (∀ id, id ∈ w'.issuer.inUse ↔ id ∈ held) ∧ w'.IsRegistered := by
  have hdelete : (delete h).EndsIn w
      (fun _ w' => (∀ id, id ∈ w'.issuer.inUse ↔ id ∈ held) ∧ w'.IsRegistered)
      fun _ _ => False := by
    rw [delete, endsIn_solid_bind hw.composite]
    refine Edit.endsIn_onPart.2 ((Composite.endsIn_release hw.isLive hw.owns).imp ?_ fun _ _ h => h)
    rintro _ ⟨i, c'⟩ ⟨hdeleted, hinUse⟩
    have hheld : ∀ id, id ∈ i.inUse ↔ id ∈ held := fun id => by
      rw [hinUse, Set.mem_union, Set.mem_singleton_iff]
      exact ⟨fun hid => hid.1.resolve_right hid.2,
        fun hid => ⟨.inl hid, fun heq => hw.notHeld (heq ▸ hid)⟩⟩
    refine ⟨hheld, fun k o ho hlive => (hheld _).2 ?_⟩
    obtain rfl | hne := eq_or_ne h k
    · obtain rfl := Option.some.inj
        ((solids_put (w := { w with issuer := i }) hw.composite _).symm.trans ho)
      exact absurd (hlive.symm.trans hdeleted) Bool.false_ne_true
    · exact hw.others k hne.symm o (solids_put_of_ne hne _ _ ▸ ho) hlive
  obtain ⟨_, w', hrun, hw'⟩ := hdelete.exists_ok
  exact ⟨w', hrun, hw'⟩

/-- The identifiers of a composite that was made in `w₀`. -/
structure Accounts (w₀ : World) (h : Handle) (w : World) (c : Composite)
    (names : List (String × Handle)) : Prop where
  composite : w.solids[h]? = some (.composite c names)
  isLive : c.base.isDeleted = false
  /-- In use are the identifiers from before, its own and those of its cache. -/
  inUse : ∀ id, id ∈ w.issuer.inUse ↔
    id ∈ w₀.issuer.inUse ∨ id ∈ c.base.id :: c.cacheSets.map VoxelSet.id
  /-- Every set of the cache has an identifier for itself. -/
  nodup : (c.base.id :: c.cacheSets.map VoxelSet.id).Nodup
  fresh : ∀ id ∈ c.base.id :: c.cacheSets.map VoxelSet.id, id ∉ w₀.issuer.inUse
  cache_isLive : ∀ s ∈ c.cacheSets, s.isDeleted = false
  /-- No set of the cache is that of a live object, named or not. -/
  cache_apart : ∀ s ∈ c.cacheSets, ∀ (k : Handle) (o : Solid), w.solids[k]? = some o →
    o.base.isDeleted = false → o.base.id ≠ s.id
  isRegistered : w.IsRegistered
  /-- The deletion leaves in use what was before. -/
  delete : ∃ w', World.delete h w = .ok () w' ∧
    (∀ id, id ∈ w'.issuer.inUse ↔ id ∈ w₀.issuer.inUse) ∧ w'.IsRegistered

theorem Balances.accounts {w₀ : World} (hw : Balances {id | id ∈ w₀.issuer.inUse} h w c names) :
    Accounts w₀ h w c names := by
  have hcache : ∀ s ∈ c.cacheSets, s.id ≠ c.base.id ∧ s.id ∉ w₀.issuer.inUse := fun s hs => by
    simpa using hw.owns.notHeld s hs
  refine ⟨hw.composite, hw.isLive, fun id => ?_, ?_, ?_, fun s hs => (hw.owns.isSound s hs).isLive,
    fun s hs k o ho hlive hid => ?_, hw.isRegistered, hw.exists_delete⟩
  · rw [hw.inUse_iff, List.mem_cons, List.mem_map]
    exact Iff.rfl
  · refine List.nodup_cons.2 ⟨fun hmem => ?_, hw.owns.nodup⟩
    obtain ⟨s, hs, hid⟩ := List.mem_map.1 hmem
    exact (hcache s hs).1 hid
  · exact List.forall_mem_cons.2 ⟨hw.notHeld, List.forall_mem_map.2 fun s hs => (hcache s hs).2⟩
  · obtain ⟨hne, hfresh⟩ := hcache s hs
    obtain rfl | hk := eq_or_ne k h
    · obtain rfl := Option.some.inj (hw.composite.symm.trans ho)
      exact hne hid.symm
    · exact hfresh (hid ▸ hw.others k hk o ho hlive)

/-- Whatever is done to a composite, and however that ends, its identifiers are accounted for: in
use are those from before it was made, its own and a further one for every set of its cache. The
sets of the cache are live, and none of them is the set of an object. The deletion succeeds and
gives back all that the composite took. -/
theorem accounts_of_attempts {w₀ w₁ : World} {origin : List Number} (hw : w₀.IsRegistered)
    (hcreate : createComposite origin names w₀ = .ok h w₁) (hrun : Attempts h w₁ w) :
    ∃ c names', Accounts w₀ h w c names' := by
  obtain ⟨c, names', hw'⟩ := (isBalanced_of_createComposite hw hcreate).of_attempts hrun
  exact ⟨c, names', hw'.accounts⟩

/-- An equation of a wrong form, an interpretation of a tree without levels, and names of which one
stands for a deleted set: all of these fail. -/
theorem accounts_of_failures : ∃ (w₀ w₁ w₂ w₃ w₄ w : World) (e₁ e₂ e₃ : Fault),
    w₀.IsRegistered ∧ createComposite [0, 0, 0] [("a", 0)] w₀ = .ok 2 w₁ ∧
    (Operation.setEquation 2 "a!").run w₁ = .error e₁ w₂ ∧
    (Operation.setTree 2 (.list [])).run w₂ = .ok () w₃ ∧
    (Operation.interpret 2).run w₃ = .error e₂ w₄ ∧
    (Operation.changeNames 2 [("a", 0), ("b", 1)]).run w₄ = .error e₃ w ∧
    Attempts 2 w₁ w ∧ ∃ c names', Accounts w₀ 2 w c names' := by
  obtain ⟨w₀, hreached, w₁, w₂, w₃, w₄, w, e₁, e₂, e₃, hcreate, h₁, h₂, h₃, h₄, hrange₁, hrange₂,
      hrange₃, hrange₄⟩ : ∃ w₀ : World, w₀.Reached .hexadecimal ∧
        ∃ (w₁ w₂ w₃ w₄ w : World) (e₁ e₂ e₃ : Fault),
        createComposite [0, 0, 0] [("a", 0)] w₀ = .ok 2 w₁ ∧
        (Operation.setEquation 2 "a!").run w₁ = .error e₁ w₂ ∧
        (Operation.setTree 2 (.list [])).run w₂ = .ok () w₃ ∧
        (Operation.interpret 2).run w₃ = .error e₂ w₄ ∧
        (Operation.changeNames 2 [("a", 0), ("b", 1)]).run w₄ = .error e₃ w ∧
        w₁.IsInRange ∧ w₂.IsInRange ∧ w₃.IsInRange ∧ w₄.IsInRange := by
    refine exists_reached [.createSet [0, 0, 0] [], .createSet [0, 0, 1] [], .delete 1] (by cbv) ?_
    exact ⟨_, _, _, _, _, _, _, _, by cbv, by cbv, by cbv, by cbv, by cbv, by decide, by decide,
      by decide, by decide⟩
  have hattempts₃ : Attempts 2 w₁ w₃ :=
    (Attempts.refl.step_error h₁ hrange₁ rfl).step_ok h₂ hrange₂ rfl
  have hattempts : Attempts 2 w₁ w :=
    (hattempts₃.step_error h₃ hrange₃ rfl).step_error h₄ hrange₄ rfl
  have hw := hreached.isSound.isRegistered
  exact ⟨w₀, w₁, w₂, w₃, w₄, w, e₁, e₂, e₃, hw, hcreate, h₁, h₂, h₃, h₄, hattempts,
    accounts_of_attempts hw hcreate hattempts⟩

end World
end VoxelAlgebra
