import Mathlib.Data.Set.Insert
import Mathlib.Tactic.Tauto
import VoxelAlgebra.Proofs.Solid.VoxelSet
import VoxelAlgebra.Solid.Composite

/-!
# Ownership of identifiers

The identifiers in use are those that are held elsewhere and those of the sets that an operation
has at hand. Making a set adds it to those at hand, deleting one takes it away, and what is held
elsewhere stays as it is.

## Main definitions

* `VoxelSet.AreApart` — live sets with identifiers of their own.
* `Issuer.Owns` — the sets at hand beside what is held elsewhere.
* `Issuer.Owns.exists_create`, `Issuer.Owns.exists_releaseSets` — making and deleting sets.
-/

namespace VoxelAlgebra

namespace VoxelSet

def ids (sets : List VoxelSet) : Set String := {id | ∃ s ∈ sets, s.id = id}

/-- Live sets with different names as identifiers, none of which is held elsewhere. -/
structure AreApart (held : Set String) (sets : List VoxelSet) : Prop where
  isSound : ∀ s ∈ sets, s.IsSound
  isName : ∀ s ∈ sets, Equation.IsName s.id
  nodup : (sets.map VoxelSet.id).Nodup
  notHeld : ∀ s ∈ sets, s.id ∉ held

variable {held : Set String} {sets sets' : List VoxelSet} {s t : VoxelSet}

@[simp] theorem mem_ids {id : String} : id ∈ ids sets ↔ ∃ s ∈ sets, s.id = id := Iff.rfl

theorem areApart_nil (held : Set String) : AreApart held [] where
  isSound := fun _ hs => absurd hs List.not_mem_nil
  isName := fun _ hs => absurd hs List.not_mem_nil
  nodup := List.nodup_nil
  notHeld := fun _ hs => absurd hs List.not_mem_nil

theorem areApart_cons : AreApart held (s :: sets) ↔
    (s.IsSound ∧ Equation.IsName s.id ∧ s.id ∉ held ∧ s.id ∉ ids sets) ∧ AreApart held sets := by
  constructor
  · rintro ⟨hsound, hname, hnodup, hnot⟩
    rw [List.map_cons, List.nodup_cons, List.mem_map] at hnodup
    rw [List.forall_mem_cons] at hsound hname hnot
    exact ⟨⟨hsound.1, hname.1, hnot.1, hnodup.1⟩, hsound.2, hname.2, hnodup.2, hnot.2⟩
  · rintro ⟨⟨hs, hid, hheld, hids⟩, hsound, hname, hnodup, hnot⟩
    exact ⟨List.forall_mem_cons.2 ⟨hs, hsound⟩, List.forall_mem_cons.2 ⟨hid, hname⟩,
      List.nodup_cons.2 ⟨fun h => hids (List.mem_map.1 h), hnodup⟩,
      List.forall_mem_cons.2 ⟨hheld, hnot⟩⟩

theorem AreApart.perm (h : AreApart held sets) (hperm : sets.Perm sets') :
    AreApart held sets' where
  isSound := fun s hs => h.isSound s (hperm.mem_iff.2 hs)
  isName := fun s hs => h.isName s (hperm.mem_iff.2 hs)
  nodup := (hperm.map VoxelSet.id).nodup_iff.1 h.nodup
  notHeld := fun s hs => h.notHeld s (hperm.mem_iff.2 hs)

theorem AreApart.eq_of_id (h : AreApart held sets) (hs : s ∈ sets) (ht : t ∈ sets)
    (hid : s.id = t.id) : s = t :=
  List.inj_on_of_nodup_map h.nodup hs ht hid

/-- Sets can be held elsewhere instead of being at hand. -/
theorem areApart_append : AreApart held (sets ++ sets') ↔
    AreApart (held ∪ ids sets') sets ∧ AreApart held sets' := by
  induction sets with
  | nil => exact ⟨fun h => ⟨areApart_nil _, h⟩, And.right⟩
  | cons s sets ih =>
    have hids : s.id ∈ ids (sets ++ sets') ↔ s.id ∈ ids sets ∨ s.id ∈ ids sets' := by
      simp [or_and_right, exists_or]
    rw [List.cons_append, areApart_cons, areApart_cons, ih, hids, Set.mem_union]
    tauto

end VoxelSet

namespace Issuer

open VoxelSet (ids AreApart areApart_cons areApart_append)

/-- The identifiers in use are those that are held elsewhere and those of the sets at hand, which
are live and apart. -/
structure Owns (i : Issuer) (held : Set String) (sets : List VoxelSet) : Prop
    extends VoxelSet.AreApart held sets where
  inUse : ∀ id, id ∈ i.inUse ↔ id ∈ held ∨ id ∈ ids sets

namespace Owns

variable {i i' : Issuer} {held : Set String} {sets sets' rest : List VoxelSet} {s t : VoxelSet}

/-- With no set at hand, all identifiers in use are held elsewhere. -/
theorem of_inUse (i : Issuer) : i.Owns {id | id ∈ i.inUse} [] :=
  ⟨VoxelSet.areApart_nil _, fun id => by simp⟩

theorem perm (h : i.Owns held sets) (hperm : sets.Perm sets') : i.Owns held sets' :=
  ⟨h.toAreApart.perm hperm, fun id => by simp only [h.inUse id, VoxelSet.mem_ids, hperm.mem_iff]⟩

/-- Sets can be held elsewhere instead of being at hand. -/
theorem append_iff : i.Owns held (sets ++ sets') ↔
    i.Owns (held ∪ ids sets') sets ∧ AreApart held sets' := by
  have hids : ∀ id, (id ∈ held ∨ id ∈ ids (sets ++ sets')) ↔
      id ∈ held ∪ ids sets' ∨ id ∈ ids sets := by
    intro id
    simp only [VoxelSet.mem_ids, List.mem_append, or_and_right, exists_or, Set.mem_union]
    exact (or_congr_right or_comm).trans or_assoc.symm
  constructor
  · rintro ⟨hapart, hinUse⟩
    obtain ⟨hsets, hsets'⟩ := areApart_append.1 hapart
    exact ⟨⟨hsets, fun id => (hinUse id).trans (hids id)⟩, hsets'⟩
  · rintro ⟨⟨hsets, hinUse⟩, hsets'⟩
    exact ⟨areApart_append.2 ⟨hsets, hsets'⟩, fun id => (hinUse id).trans (hids id).symm⟩

/-- Where sets are not at hand any more, their identifiers alone are not in use any more. -/
theorem inUse_iff_of_append (h : i.Owns held (sets ++ rest)) (h' : i'.Owns held rest)
    (id : String) : id ∈ i'.inUse ↔ id ∈ i.inUse ∧ id ∉ ids sets := by
  obtain ⟨hsets, -⟩ := append_iff.1 h
  rw [h'.inUse, hsets.inUse, Set.mem_union]
  constructor
  · intro hleft
    refine ⟨.inl hleft, ?_⟩
    rintro ⟨s, hs, rfl⟩
    exact hsets.notHeld s hs hleft
  · rintro ⟨hleft | hids, hnot⟩
    exacts [hleft, absurd hids hnot]

/-- A changed set takes the place of the one with its identifier. -/
theorem change (h : i.Owns held (s :: sets)) (ht : t.IsSound) (hid : t.id = s.id) :
    i.Owns held (t :: sets) := by
  obtain ⟨⟨-, hname, hheld, hids⟩, hsets⟩ := areApart_cons.1 h.toAreApart
  refine ⟨areApart_cons.2 ⟨⟨ht, hid ▸ hname, hid ▸ hheld, hid ▸ hids⟩, hsets⟩, fun id => ?_⟩
  rw [h.inUse id, VoxelSet.mem_ids, VoxelSet.mem_ids, List.exists_mem_cons_iff,
    List.exists_mem_cons_iff, hid]

/-- A changed set takes the place of the one with its identifier, wherever that is. -/
theorem change_middle (h : i.Owns held (sets ++ s :: rest)) (ht : t.IsSound) (hid : t.id = s.id) :
    i.Owns held (sets ++ t :: rest) :=
  ((h.perm List.perm_middle).change ht hid).perm List.perm_middle.symm

/-- A set with an identifier that was issued for it is at hand. -/
theorem issue (h : i.Owns held sets) (hissues : i.Issues s.id i') (hs : s.IsSound) :
    i'.Owns held (s :: sets) := by
  have hfresh : ¬(s.id ∈ held ∨ s.id ∈ ids sets) := fun hmem =>
    hissues.fresh ((h.inUse s.id).2 hmem)
  refine ⟨areApart_cons.2 ⟨⟨hs, hissues.isName, fun hheld => hfresh (.inl hheld),
    fun hids => hfresh (.inr hids)⟩, h.toAreApart⟩, fun id => ?_⟩
  rw [hissues.inUse, List.mem_append, List.mem_singleton, h.inUse id, VoxelSet.mem_ids,
    VoxelSet.mem_ids, List.exists_mem_cons_iff, eq_comm (a := id)]
  exact or_assoc.trans (or_congr_right or_comm)

/-- A new set of voxels in range is at hand. -/
theorem exists_create (h : i.Owns held sets) (origin : Voxel) {fill : List Voxel}
    (hrange : ∀ v ∈ fill, (v + origin).InRange) :
    ∃ s i', VoxelSet.create origin fill i = .ok s i' ∧ s.origin = origin ∧ s.fill = fill ∧
      i.Issues s.id i' ∧ i'.Owns held (s :: sets) := by
  obtain ⟨s, i', hcreate⟩ := VoxelSet.exists_create i hrange
  obtain ⟨hissues, horigin, hfill, hsound⟩ := VoxelSet.create_eq_ok hcreate
  exact ⟨s, i', hcreate, horigin, hfill, hissues, h.issue hissues hsound⟩

/-- Making a set without voxels. -/
theorem exists_create_empty (h : i.Owns held sets) :
    ∃ s i', VoxelSet.create .zero [] i = .ok s i' ∧ s.origin = .zero ∧ s.fill = [] ∧
      i'.Owns held (s :: sets) := by
  obtain ⟨s, i', hcreate, horigin, hfill, -, howns⟩ :=
    h.exists_create .zero fun v hv => absurd hv List.not_mem_nil
  exact ⟨s, i', hcreate, horigin, hfill, howns⟩

/-- Deleting a set at hand. -/
theorem exists_release (h : i.Owns held (s :: rest)) :
    ∃ i', s.release i = .ok s.emptied i' ∧ i'.Owns held rest := by
  obtain ⟨⟨hs, -, hheld, hids⟩, hrest⟩ := areApart_cons.1 h.toAreApart
  have hrelease : s.release i = .ok s.emptied { i with registry := i.registry.remove s.id } := by
    simp only [VoxelSet.release, Edit.bind_eq_ok, Edit.ofExcept_eq_ok, VoxelSet.checkAlive_eq_ok,
      Issuer.release, Edit.modify_eq_ok, Edit.pure_eq_ok]
    exact ⟨(), i, ⟨hs.isLive, rfl⟩, (), _, rfl, trivial, rfl⟩
  refine ⟨_, hrelease, hrest, fun id => ?_⟩
  have hinUse : id ∈ Issuer.inUse { i with registry := i.registry.remove s.id } ↔
      id ∈ i.inUse ∧ id ≠ s.id := by
    simp [Issuer.inUse, Registry.remove]
  rw [hinUse, h.inUse id, VoxelSet.mem_ids, List.exists_mem_cons_iff]
  constructor
  · rintro ⟨hheld | rfl | hrest, hne⟩
    exacts [.inl hheld, absurd rfl hne, .inr hrest]
  · rintro (hheld' | hrest)
    · exact ⟨.inl hheld', fun hid => hheld (hid ▸ hheld')⟩
    · exact ⟨.inr (.inr hrest), fun hid => hids (hid ▸ hrest)⟩

/-- Deleting several sets at hand. -/
theorem exists_releaseSets (h : i.Owns held (sets ++ rest)) :
    ∃ i', Composite.releaseSets sets i = .ok () i' ∧ i'.Owns held rest := by
  induction sets generalizing i with
  | nil => exact ⟨i, rfl, h⟩
  | cons s sets ih =>
    obtain ⟨i₁, hrelease, h₁⟩ := h.exists_release
    obtain ⟨i₂, hreleases, h₂⟩ := ih h₁
    refine ⟨i₂, ?_, h₂⟩
    rw [Composite.releaseSets, Edit.bind_eq_ok]
    exact ⟨_, i₁, hrelease, hreleases⟩

end Owns
end Issuer
end VoxelAlgebra
