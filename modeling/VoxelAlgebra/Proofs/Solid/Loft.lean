import VoxelAlgebra.Proofs.Solid.Section

/-!
# The workshop of a loft

A loft is built with a workshop that is made for it and given back: a line and a composite, which
also computes the union of all sections. The sections stay at hand with the loft until it is reset
or deleted.

## Main definitions

* `Loft.sets` — the sets of a loft: its own voxels and its sections.
* `Loft.HasWorkshop`, `Loft.IsReadable` — what sections are built with, and what of.
* `Loft.exists_unionVoxels` — the union of the sections.
* `Loft.exists_resetSections`, `Loft.exists_release` — giving sections and lofts back.
-/

namespace VoxelAlgebra

open Equation (Denotes IsName)

variable {i : Issuer} {held : Set String} {others : List VoxelSet}

/-- Deleting a composite gives back all its sets. -/
theorem Composite.exists_release {c : Composite} (h : i.Owns held (c.sets ++ others)) :
    ∃ i' c', release (i, c) = .ok () (i', c') ∧ c'.base.isDeleted = true ∧
      i'.Owns held others := by
  have hlive := (h.isSound c.base List.mem_cons_self).isLive
  have hperm : (c.sets ++ others).Perm (c.cacheSets ++ c.base :: others) := List.perm_middle.symm
  obtain ⟨i₁, hreleases, howns₁⟩ := (h.perm hperm).exists_releaseSets
  obtain ⟨i₂, hrelease, howns₂⟩ := howns₁.exists_release
  refine ⟨i₂, ⟨c.base.emptied, c.equation, none⟩, ?_, rfl, howns₂⟩
  simp only [release, releaseCache, Edit.get_bind, Edit.bind_eq_ok, Edit.ofExcept_eq_ok,
    VoxelSet.checkAlive_eq_ok, Edit.onFirst_eq_ok, Edit.onSecond_eq_ok, Edit.modify_eq_ok]
  exact ⟨(), (i, c), ⟨hlive, rfl⟩, (), (i₁, { c with cache := none }),
    ⟨(), (i₁, c), ⟨hreleases, rfl⟩, rfl, rfl⟩, _, (i₂, { c with cache := none }), ⟨hrelease, rfl⟩,
    rfl, rfl⟩

/-- A composite without names can always be made. -/
theorem Composite.exists_create (h : i.Owns held others) :
    ∃ c i', create [0, 0, 0] [] i = .ok c i' ∧ i'.Owns held (c.sets ++ others) := by
  obtain ⟨base, i₁, hcreate, -, -, howns⟩ := h.exists_create_empty
  obtain ⟨i₂, cache, hreset, howns₂⟩ := exists_resetCache [] (c := { base }) howns
    fun s hs => absurd hs List.not_mem_nil
  refine ⟨{ base, cache := some cache }, i₂, ?_, howns₂⟩
  have huniverse : Bound.universe [] = .ok [] := rfl
  simp only [create, huniverse, Edit.bind_eq_ok, Edit.ofExcept_eq_ok,
    Edit.withSecond_eq_ok, Edit.pure_eq_ok]
  exact ⟨[], i, ⟨rfl, rfl⟩, [], i, ⟨rfl, rfl⟩, base, i₁, hcreate, ((), _), i₂, hreset, rfl, rfl⟩

namespace Loft

def sets (l : Loft) : List VoxelSet := l.base :: l.sections.map Prod.snd

variable {w : Workshop} {first second : Profile}

/-- A workshop whose sets are at hand, with the line at the zero origin. -/
structure HasWorkshop (held : Set String) (others : List VoxelSet) (i : Issuer) (w : Workshop) :
    Prop where
  owns : i.Owns held (w.composite.sets ++ w.line :: others)
  line : w.line.origin = .zero

theorem HasWorkshop.perm {others' : List VoxelSet} (h : HasWorkshop held others i w)
    (hperm : others.Perm others') : HasWorkshop held others' i w :=
  ⟨h.owns.perm ((hperm.cons _).append_left _), h.line⟩

def IsReadable (p : Profile) : Prop :=
  ∃ vertices, p.vertices = .ok vertices ∧ ∀ v ∈ vertices, v.InRange

/-! ## The union of the sections -/

/-- Sets that are apart are found under their identifiers. -/
theorem lookup_id {sections : List VoxelSet} (h : VoxelSet.AreApart held sections) {s : VoxelSet}
    (hs : s ∈ sections) : (sections.map fun s => (s.id, s)).lookup s.id = some s := by
  induction sections with
  | nil => cases hs
  | cons t rest ih =>
    obtain ⟨⟨-, -, -, hids⟩, hrest⟩ := VoxelSet.areApart_cons.1 h
    rw [List.map_cons, List.lookup_cons]
    obtain rfl | hs := List.mem_cons.1 hs
    · simp
    · have hne : s.id ≠ t.id := fun hid => hids ⟨s, hs, hid⟩
      simp only [beq_eq_false_iff_ne.2 hne, ih hrest hs]

/-- The union of sets under their identifiers stands for the voxels of all of them. -/
theorem exists_denotes_union {bound : Bound} {s : VoxelSet} {rest : List VoxelSet}
    (hnames : ∀ t ∈ s :: rest, IsName t.id)
    (hvalue : ∀ t ∈ s :: rest, bound.value? t.id = some t.voxels) :
    ∃ A, Denotes bound.union bound.value? .expression
        (String.intercalate "∪" ((s :: rest).map VoxelSet.id)).toList A ∧
      ∀ v, v ∈ A ↔ ∃ t ∈ s :: rest, v ∈ t.voxels := by
  obtain ⟨hname, hrestNames⟩ := List.forall_mem_cons.1 hnames
  obtain ⟨hs, hrest⟩ := List.forall_mem_cons.1 hvalue
  obtain ⟨A, hA, hmem⟩ := Denotes.union (U := bound.union) (rest.map VoxelSet.id)
    (.run (.signed (hname.denotes hs))) (List.forall_mem_map.2 hrestNames)
    (List.forall_mem_map.2 fun t ht => ⟨_, hrest t ht⟩)
  refine ⟨A, hA, fun v => ?_⟩
  rw [hmem, List.exists_mem_cons_iff]
  refine or_congr_right ⟨?_, ?_⟩
  · rintro ⟨_, hid, B, hB, hv⟩
    obtain ⟨t, ht, rfl⟩ := List.mem_map.1 hid
    rw [hrest t ht] at hB
    cases hB
    exact ⟨t, ht, hv⟩
  · rintro ⟨t, ht, hv⟩
    exact ⟨t.id, List.mem_map_of_mem ht, _, hrest t ht, hv⟩

/-- The voxels of the union are those of the sections, each once if every section has no
duplicates. -/
theorem exists_unionVoxels {sections : List VoxelSet}
    (h : HasWorkshop held (sections ++ others) i w) :
    ∃ voxels i' w', unionVoxels sections (i, w) = .ok voxels (i', w') ∧
      HasWorkshop held (sections ++ others) i' w' ∧
      (∀ v, v ∈ voxels ↔ ∃ s ∈ sections, v ∈ s.voxels) ∧
      ((∀ s ∈ sections, s.absoluteFill.Nodup) → voxels.Nodup) := by
  cases sections with
  | nil => exact ⟨[], i, w, rfl, h, fun v => by simp, fun _ => .nil⟩
  | cons s rest =>
    let bound : Bound := (s :: rest).map fun s => (s.id, s)
    have hapart := (VoxelSet.areApart_append.1 h.owns.toAreApart).2
    have hsections : VoxelSet.AreApart (held ∪ VoxelSet.ids others) (s :: rest) :=
      (VoxelSet.areApart_append.1 (VoxelSet.areApart_cons.1 hapart).2).1
    have hvalue : ∀ t ∈ s :: rest, bound.value? t.id = some t.voxels := fun t ht => by
      rw [Bound.value?, lookup_id hsections ht, Option.map_some]
    have hsets : bound.sets = s :: rest := by simp [bound, Bound.sets, Function.comp_def]
    have hbound : ∀ t ∈ bound.sets, t ∈ w.line :: (s :: rest ++ others) := fun t ht =>
      List.mem_cons_of_mem _ (List.mem_append_left _ (hsets ▸ ht))
    obtain ⟨A, hA, hmem⟩ := exists_denotes_union hsections.isName hvalue
    obtain ⟨i₁, cache, hreset, howns₁⟩ := Composite.exists_resetCache bound h.owns hbound
    obtain ⟨e, hset, htree⟩ := Composite.exists_setEquation i₁
      (c := { w.composite with cache := some cache })
      (howns₁.isSound w.composite.base List.mem_cons_self).isLive hA.derives
    obtain ⟨i₂, c, hinterpret, hc⟩ := Composite.exists_interpret_text
      (c := { w.composite with cache := some cache, equation := e }) howns₁ hbound htree hA
    refine ⟨c.base.absoluteFill, i₂, { w with composite := c }, ?_, ⟨hc.owns, h.line⟩,
      fun v => ?_, fun hnodup => hc.nodup (hsets ▸ hnodup)⟩
    · simp only [unionVoxels, Workshop.onComposite, List.isEmpty_cons, Bool.false_eq_true, if_false,
        Edit.onPart_eq_ok, Edit.bind_eq_ok, Edit.get_bind, Edit.ofExcept_eq_ok,
        VoxelSet.absolute_eq_ok]
      exact ⟨(i₂, c), ⟨(), _, hreset, (), _, hset, (), _, hinterpret, ⟨hc.isSound.isLive, rfl⟩,
        rfl⟩, rfl⟩
    · rw [← VoxelSet.mem_voxels, hc.voxels, hmem]

/-! ## Building a loft -/

/-- A live loft gives its sections back. -/
theorem exists_resetSections {l : Loft} (h : i.Owns held (l.sets ++ others)) :
    ∃ i' base, resetSections (i, l) = .ok () (i', { base }) ∧ i'.Owns held (base :: others) ∧
      base.id = l.base.id ∧ base.origin = l.base.origin := by
  have hlive := (h.isSound l.base List.mem_cons_self).isLive
  have hperm : (l.sets ++ others).Perm (l.sections.map Prod.snd ++ l.base :: others) :=
    List.perm_middle.symm
  obtain ⟨i', hreleases, howns⟩ := (h.perm hperm).exists_releaseSets
  obtain ⟨base, hset, hsound, hid, horigin, -⟩ := VoxelSet.exists_setFill [] hlive
    fun v hv => absurd hv List.not_mem_nil
  refine ⟨i', base, ?_, howns.change hsound hid, hid, horigin⟩
  simp only [resetSections, onBase, Edit.get_bind, Edit.bind_eq_ok, Edit.ofExcept_eq_ok,
    VoxelSet.checkAlive_eq_ok, Edit.onFirst_eq_ok, Edit.onSecond_eq_ok, Edit.onPart_eq_ok,
    Edit.modify_eq_ok]
  exact ⟨(), (i, l), ⟨hlive, rfl⟩, (), (i', l), ⟨hreleases, rfl⟩, (),
    (i', { l with sections := [], isShell := false }), ⟨rfl, rfl⟩, ⟨base, hset, rfl⟩, rfl⟩

/-- A live loft gives its sections back, then itself. -/
theorem exists_release {l : Loft} (h : i.Owns held (l.sets ++ others)) :
    ∃ i' l', release (i, l) = .ok () (i', l') ∧ l'.base.isDeleted = true ∧ i'.Owns held others := by
  obtain ⟨i₁, base, hreset, howns₁, -, -⟩ := exists_resetSections h
  obtain ⟨i₂, hrelease, howns₂⟩ := howns₁.exists_release
  refine ⟨i₂, { base := base.emptied }, ?_, rfl, howns₂⟩
  simp only [release, Edit.get_bind, Edit.bind_eq_ok, Edit.onFirst_eq_ok, Edit.onSecond_eq_ok,
    Edit.modify_eq_ok]
  exact ⟨(), (i₁, { base }), hreset, base.emptied, (i₂, { base }), ⟨hrelease, rfl⟩, rfl, rfl⟩

end Loft
end VoxelAlgebra
