import Mathlib
import VoxelAlgebra.Proofs.Solid.Runs.Loft
import VoxelAlgebra.Proofs.Solid.Runs.Sweep
import VoxelAlgebra.World

/-!
# Objects and their sets

Every object of a world owns its voxels and what belongs to it, and the identifiers in use are
exactly those of all these sets. An edit of one object sees the sets of the others as held
elsewhere.

## Main definitions

* `Solid.sets`, `World.sets`, `World.others` — the sets of an object, of all, and of all but one.
* `World.IsSound` — the identifiers in use are those of the sets of the world.
* `World.solid_eq_ok` and its siblings — what reading a world gives.
* `World.onLayer_eq_ok` and its siblings — what successful edits of objects are.
* `Solid.Created`, `Solid.Released`, `World.delete_eq_ok` — new objects, and deletions.
* `World.IsSound.onPartOf` — an edit of one object leaves the world sound.
-/

namespace VoxelAlgebra

namespace Solid

/-- The sets that belong to an object besides its own voxels. -/
def parts : Solid → List VoxelSet
  | set _ | line _ | layer _ => []
  | composite c _ => c.cacheSets
  | sweep s _ => s.cap.elim [] fun cap => [cap.base]
  | loft l _ => l.sections.map Prod.snd

/-- The sets of an object. A deleted object has none. -/
def sets (o : Solid) : List VoxelSet := if o.base.isDeleted then [] else o.base :: o.parts

variable {o : Solid}

theorem sets_of_isLive (h : o.base.isDeleted = false) : o.sets = o.base :: o.parts := by
  simp [sets, h]

theorem sets_of_isDeleted (h : o.base.isDeleted = true) : o.sets = [] := by
  simp [sets, h]

/-- The sets of an object are at hand if its voxels are, together with what belongs to it. -/
theorem owns_sets {i : Issuer} {held : Set String} {rest : List VoxelSet}
    (h : i.Owns held (o.base :: o.parts ++ rest)) : i.Owns held (o.sets ++ rest) := by
  rwa [sets_of_isLive (h.isSound o.base List.mem_cons_self).isLive]

@[simp] theorem parts_withBase (s : VoxelSet) (o : Solid) : (o.withBase s).parts = o.parts := by
  cases o <;> rfl

inductive Created (i i' : Issuer) : Solid → Prop
  | set {origin : List Number} {fill : List (List Number)} {s : VoxelSet}
      (h : VoxelSet.createFrom origin fill i = .ok s i') : Created i i' (.set s)
  | line {origin : List Number} {endpoints : List (List Number)} {doublePass : Bool} {l : Line}
      (h : Line.create origin endpoints doublePass i = .ok l i') : Created i i' (.line l)
  | layer {origin : List Number} {vertices : List (List Number)} {l : Layer}
      (h : Layer.createFrom origin vertices i = .ok l i') : Created i i' (.layer l)
  | composite {origin : List Number} {bound : Bound} {c : Composite}
      (names : List (String × Handle)) (h : Composite.create origin bound i = .ok c i') :
      Created i i' (.composite c names)
  | sweep {origin vector : List Number} {set : Option VoxelSet} {s : Sweep} (swept : Handle)
      (h : Sweep.create origin vector set i = .ok s i') : Created i i' (.sweep s swept)
  | loft {origin : List Number} {l : Loft} (profiles : List Handle)
      (h : Loft.create origin i = .ok l i') : Created i i' (.loft l profiles)

/-- An object of each kind, before and after it gave back itself and its parts. -/
inductive Released (i i' : Issuer) : Solid → Solid → Prop
  | set {s s' : VoxelSet} (h : s.release i = .ok s' i') : Released i i' (.set s) (.set s')
  | line {l : Line} {s' : VoxelSet} (h : l.base.release i = .ok s' i') :
      Released i i' (.line l) (.line { l with base := s' })
  | layer {l l' : Layer} (h : l.release i = .ok l' i') : Released i i' (.layer l) (.layer l')
  | composite {c c' : Composite} {names : List (String × Handle)}
      (h : Composite.release (i, c) = .ok () (i', c')) : Released i i' (.composite c names)
        (.composite c' (if c'.base.isDeleted then [] else names))
  | sweep {s s' : Sweep} {swept : Handle} (h : Sweep.release (i, s) = .ok () (i', s')) :
      Released i i' (.sweep s swept) (.sweep s' swept)
  | loft {l l' : Loft} {profiles : List Handle} (h : Loft.release (i, l) = .ok () (i', l')) :
      Released i i' (.loft l profiles) (.loft l' profiles)

end Solid

namespace World

variable {w w' : World} {h k : Handle} {o o' : Solid}

/-! ## Sets of objects -/

def sets (w : World) : List VoxelSet := w.solids.toList.flatMap Solid.sets

def others (w : World) (h : Handle) : List VoxelSet :=
  (w.solids.toList.eraseIdx h).flatMap Solid.sets

theorem sets_perm (ho : w.solids[h]? = some o) : w.sets.Perm (o.sets ++ w.others h) := by
  obtain ⟨hlt, rfl⟩ := Array.getElem?_eq_some_iff.1 ho
  have hperm := List.getElem_cons_eraseIdx_perm (l := w.solids.toList) (n := h) (by simpa using hlt)
  simpa [sets, others] using (hperm.symm.flatMap_right Solid.sets)

theorem mem_others (hk : w.solids[k]? = some o) (hne : k ≠ h) {s : VoxelSet} (hs : s ∈ o.sets) :
    s ∈ w.others h := by
  refine List.mem_flatMap.2 ⟨o, List.mem_eraseIdx_iff_getElem?.2 ⟨k, hne, ?_⟩, hs⟩
  rwa [Array.getElem?_toList]

@[simp] theorem others_put (h : Handle) (o : Solid) (w : World) :
    (put h o w).others h = w.others h := by
  simp [others, put, List.eraseIdx_modify_of_eq]

theorem solids_put (ho : w.solids[h]? = some o) (o' : Solid) :
    (put h o' w).solids[h]? = some o' := by
  simp [put, Array.getElem?_modify, ho]

theorem solids_put_of_ne (hne : h ≠ k) (o : Solid) (w : World) :
    (put h o w).solids[k]? = w.solids[k]? := by
  simp [put, Array.getElem?_modify, hne]

/-- After an object was put, a handle stands for it or for what it stood for before. -/
theorem eq_or_of_solids_put {p : Solid} (hk : (put h o w).solids[k]? = some p) :
    p = o ∨ w.solids[k]? = some p := by
  obtain rfl | hne := eq_or_ne h k
  · cases hold : w.solids[h]? with
    | none => simp [put, Array.getElem?_modify, hold] at hk
    | some old =>
      rw [solids_put hold] at hk
      exact .inl (Option.some.inj hk).symm
  · rw [solids_put_of_ne hne] at hk
    exact .inr hk

theorem solids_put_eq_none : (put h o w).solids[k]? = none ↔ w.solids[k]? = none := by
  simp only [put, Array.getElem?_modify]
  split <;> simp

/-- An object that is put where it was changes nothing. -/
theorem put_self (ho : w.solids[h]? = some o) : put h o w = w := by
  have hsolids : (put h o w).solids = w.solids := Array.ext_getElem? fun k => by
    obtain rfl | hne := eq_or_ne h k
    · rw [solids_put ho, ho]
    · exact solids_put_of_ne hne o w
  calc put h o w = { w with solids := (put h o w).solids } := rfl
    _ = w := by rw [hsolids]

/-- A deleted object leaves the sets of the others. -/
theorem sets_put_of_isDeleted (ho : w.solids[h]? = some o) (hdeleted : o'.base.isDeleted = true)
    (i : Issuer) : (put h o' { w with issuer := i }).sets.Perm (w.others h) := by
  have hsets := sets_perm (w := put h o' { w with issuer := i }) (solids_put ho o')
  rw [Solid.sets_of_isDeleted hdeleted, others_put] at hsets
  exact hsets

/-! ## Runs -/

@[simp] theorem solid_eq_ok : solid h w = .ok o w' ↔ w.solids[h]? = some o ∧ w = w' := by
  rw [solid, Edit.get_bind]
  cases w.solids[h]? <;> simp

theorem base_eq_ok {s : VoxelSet} :
    base h w = .ok s w' ↔ ∃ o, w.solids[h]? = some o ∧ o.base = s ∧ w = w' := by
  rw [base, map_eq_pure_bind, Edit.bind_eq_ok]
  simp only [solid_eq_ok, Edit.pure_eq_ok]
  constructor
  · rintro ⟨o, _, ⟨ho, rfl⟩, hs, rfl⟩
    exact ⟨o, ho, hs, rfl⟩
  · rintro ⟨o, ho, hs, rfl⟩
    exact ⟨o, w, ⟨ho, rfl⟩, hs, rfl⟩

theorem profile_eq_ok {p : Profile} :
    profile h w = .ok p w' ↔ ∃ o, w.solids[h]? = some o ∧ o.profile = p ∧ w = w' := by
  rw [profile, map_eq_pure_bind, Edit.bind_eq_ok]
  simp only [solid_eq_ok, Edit.pure_eq_ok]
  constructor
  · rintro ⟨o, _, ⟨ho, rfl⟩, hp, rfl⟩
    exact ⟨o, ho, hp, rfl⟩
  · rintro ⟨o, ho, hp, rfl⟩
    exact ⟨o, w, ⟨ho, rfl⟩, hp, rfl⟩

/-- The profiles of objects are read without changing anything. -/
theorem profiles_eq_ok {handles : List Handle} {profiles : List Profile} :
    handles.mapM profile w = .ok profiles w' ↔ w = w' ∧
      List.Forall₂ (fun k p => ∃ o, w.solids[k]? = some o ∧ o.profile = p) handles profiles := by
  rw [Edit.mapM_eq_ok fun k p s s' hread => by
    obtain ⟨_, -, -, rfl⟩ := profile_eq_ok.1 hread
    rfl]
  simp only [profile_eq_ok, and_true]

theorem onPartOf_eq_ok {α τ : Type} {part : τ} {write : τ → Solid} {edit : Edit (Issuer × τ) α}
    {a : α} : onPartOf h part write edit w = .ok a w' ↔
      ∃ i p, edit (w.issuer, part) = .ok a (i, p) ∧
        w' = put h (write p) { w with issuer := i } := by
  rw [onPartOf, Edit.onPart_eq_ok, Prod.exists]
  simp only [eq_comm (b := w')]

theorem onIssuer_eq_ok {α : Type} {edit : Edit Issuer α} {a : α} :
    onIssuer edit w = .ok a w' ↔ ∃ i, edit w.issuer = .ok a i ∧ w' = { w with issuer := i } := by
  rw [onIssuer, Edit.onPart_eq_ok]
  simp only [eq_comm (b := w')]

theorem add_eq_ok : add o w = .ok h w' ↔
    h = w.solids.size ∧ w' = { w with solids := w.solids.push o } := by
  simp only [add, Edit.get_bind, Edit.bind_eq_ok, Edit.modify_eq_ok, Edit.pure_eq_ok]
  constructor
  · rintro ⟨_, _, rfl, rfl, rfl⟩
    exact ⟨rfl, rfl⟩
  · rintro ⟨rfl, rfl⟩
    exact ⟨(), _, rfl, rfl, rfl⟩

/-- Names are bound to the sets of their objects, without changing anything. -/
theorem bound_eq_ok {names : List (String × Handle)} {bound : Bound} :
    World.bound names w = .ok bound w' ↔ w = w' ∧
      List.Forall₂ (fun e b => b.1 = e.1 ∧ ∃ o, w.solids[e.2]? = some o ∧ o.base = b.2)
        names bound := by
  have hread : ∀ (e : String × Handle) (b : String × VoxelSet) (s s' : World),
      (do return (e.1, ← base e.2) : Edit World (String × VoxelSet)) s = .ok b s' ↔
        (b.1 = e.1 ∧ ∃ o, s.solids[e.2]? = some o ∧ o.base = b.2) ∧ s = s' := by
    rintro ⟨name, h⟩ ⟨name', t⟩ s s'
    simp only [Edit.bind_eq_ok, base_eq_ok, Edit.pure_eq_ok, Prod.mk.injEq]
    constructor
    · rintro ⟨_, _, ⟨o, ho, rfl, rfl⟩, ⟨rfl, rfl⟩, rfl⟩
      exact ⟨⟨rfl, o, ho, rfl⟩, rfl⟩
    · rintro ⟨⟨rfl, o, ho, rfl⟩, rfl⟩
      exact ⟨_, s, ⟨o, ho, rfl, rfl⟩, ⟨rfl, rfl⟩, rfl⟩
  have hrel : (fun (e : String × Handle) (b : String × VoxelSet) =>
      (do return (e.1, ← base e.2) : Edit World (String × VoxelSet)) w = .ok b w) =
      fun e b => b.1 = e.1 ∧ ∃ o, w.solids[e.2]? = some o ∧ o.base = b.2 := by
    funext e b
    simp only [hread, and_true]
  rw [← hrel]
  exact Edit.mapM_eq_ok fun e b s s' hrun => ((hread e b s s').1 hrun).2.symm

/-- The sets that names are bound to are those of the objects that the names stand for. -/
theorem exists_object_of_bound {names : List (String × Handle)} {bound : Bound} {s : VoxelSet}
    (hbound : World.bound names w = .ok bound w') (hs : s ∈ bound.sets) :
    ∃ e ∈ names, ∃ o, w.solids[e.2]? = some o ∧ o.base = s := by
  obtain ⟨b, hb, rfl⟩ := List.mem_map.1 hs
  obtain ⟨e, he, -, ho⟩ := exists_mem_of_forall₂ (bound_eq_ok.1 hbound).2 hb
  exact ⟨e, he, ho⟩

/-! ## Runs on a kind of objects -/

section

variable {α : Type} {a : α} {u : Unit}

theorem onSet_eq_ok {edit : Edit VoxelSet α} : onSet h edit w = .ok a w' ↔
    ∃ o, w.solids[h]? = some o ∧
      onPartOf h o.base (fun base => o.withBase base) (Edit.onSecond edit) w = .ok a w' := by
  simp only [onSet, Edit.bind_eq_ok, solid_eq_ok]
  constructor
  · rintro ⟨o, _, ⟨ho, rfl⟩, hrun⟩
    exact ⟨o, ho, hrun⟩
  · rintro ⟨o, ho, hrun⟩
    exact ⟨o, w, ⟨ho, rfl⟩, hrun⟩

theorem onLine_eq_ok {edit : Edit Line α} : onLine h edit w = .ok a w' ↔
    ∃ l, w.solids[h]? = some (.line l) ∧
      onPartOf h l .line (Edit.onSecond edit) w = .ok a w' := by
  simp only [onLine, Edit.bind_eq_ok, solid_eq_ok]
  constructor
  · rintro ⟨o, _, ⟨ho, rfl⟩, hrun⟩
    cases o with
    | line l => exact ⟨l, ho, hrun⟩
    | set | layer | composite | sweep | loft => exact (Edit.throw_eq_ok.1 hrun).elim
  · rintro ⟨l, hl, hrun⟩
    exact ⟨_, w, ⟨hl, rfl⟩, hrun⟩

theorem onLayer_eq_ok {edit : Edit (Issuer × Layer) α} : onLayer h edit w = .ok a w' ↔
    ∃ l, w.solids[h]? = some (.layer l) ∧ onPartOf h l .layer edit w = .ok a w' := by
  simp only [onLayer, Edit.bind_eq_ok, solid_eq_ok]
  constructor
  · rintro ⟨o, _, ⟨ho, rfl⟩, hrun⟩
    cases o with
    | layer l => exact ⟨l, ho, hrun⟩
    | set | line | composite | sweep | loft => exact (Edit.throw_eq_ok.1 hrun).elim
  · rintro ⟨l, hl, hrun⟩
    exact ⟨_, w, ⟨hl, rfl⟩, hrun⟩

theorem onComposite_eq_ok {edit : Bound → Edit (Issuer × Composite) α} :
    onComposite h edit w = .ok a w' ↔ ∃ c names bound,
      w.solids[h]? = some (.composite c names) ∧ World.bound names w = .ok bound w ∧
      onPartOf h c (fun c => .composite c names) (edit bound) w = .ok a w' := by
  simp only [onComposite, Edit.bind_eq_ok, solid_eq_ok]
  constructor
  · rintro ⟨o, _, ⟨ho, rfl⟩, hrun⟩
    cases o with
    | composite c names =>
      obtain ⟨bound, _, hbound, hrun⟩ := Edit.bind_eq_ok.1 hrun
      obtain ⟨rfl, -⟩ := bound_eq_ok.1 hbound
      exact ⟨c, names, bound, ho, hbound, hrun⟩
    | set | line | layer | sweep | loft => exact (Edit.throw_eq_ok.1 hrun).elim
  · rintro ⟨c, names, bound, hc, hbound, hrun⟩
    exact ⟨_, w, ⟨hc, rfl⟩, Edit.bind_eq_ok.2 ⟨bound, w, hbound, hrun⟩⟩

theorem onLoft_eq_ok {edit : List Profile → Edit (Issuer × Loft) α} :
    onLoft h edit w = .ok a w' ↔ ∃ l handles profiles,
      w.solids[h]? = some (.loft l handles) ∧ handles.mapM profile w = .ok profiles w ∧
      onPartOf h l (fun l => .loft l handles) (edit profiles) w = .ok a w' := by
  simp only [onLoft, Edit.bind_eq_ok, solid_eq_ok]
  constructor
  · rintro ⟨o, _, ⟨ho, rfl⟩, hrun⟩
    cases o with
    | loft l handles =>
      obtain ⟨profiles, _, hprofiles, hrun⟩ := Edit.bind_eq_ok.1 hrun
      obtain ⟨rfl, -⟩ := profiles_eq_ok.1 hprofiles
      exact ⟨l, handles, profiles, ho, hprofiles, hrun⟩
    | set | line | layer | composite | sweep => exact (Edit.throw_eq_ok.1 hrun).elim
  · rintro ⟨l, handles, profiles, hl, hprofiles, hrun⟩
    exact ⟨_, w, ⟨hl, rfl⟩, Edit.bind_eq_ok.2 ⟨profiles, w, hprofiles, hrun⟩⟩

/-- The composite takes up the other names first, and then a cache for them. -/
theorem changeNames_eq_ok {names : List (String × Handle)} : changeNames h names w = .ok u w' ↔
    ∃ c old, w.solids[h]? = some (.composite c old) ∧ c.base.isDeleted = false ∧
      onComposite h Composite.resetCache (put h (.composite c (bindNames names)) w) = .ok u w' := by
  simp only [changeNames, Edit.bind_eq_ok, solid_eq_ok]
  constructor
  · rintro ⟨o, _, ⟨ho, rfl⟩, hrun⟩
    cases o with
    | composite c old =>
      simp only [Edit.bind_eq_ok, Edit.ofExcept_eq_ok, Edit.modify_eq_ok] at hrun
      obtain ⟨_, _, ⟨hlive, rfl⟩, _, _, rfl, hreset⟩ := hrun
      exact ⟨c, old, ho, VoxelSet.checkAlive_eq_ok.1 hlive, hreset⟩
    | set | line | layer | sweep | loft => exact (Edit.throw_eq_ok.1 hrun).elim
  · rintro ⟨c, old, hc, hlive, hreset⟩
    refine ⟨_, w, ⟨hc, rfl⟩, ?_⟩
    simp only [Edit.bind_eq_ok, Edit.ofExcept_eq_ok, Edit.modify_eq_ok]
    exact ⟨(), w, ⟨VoxelSet.checkAlive_eq_ok.2 hlive, rfl⟩, (), _, rfl, hreset⟩

theorem changeVector_eq_ok {vector : List Number} : changeVector h vector w = .ok u w' ↔
    ∃ s swept o, w.solids[h]? = some (.sweep s swept) ∧ w.solids[swept]? = some o ∧
      onPartOf h s (fun s => .sweep s swept) (Sweep.changeVector vector o.base) w =
        .ok u w' := by
  simp only [changeVector, Edit.bind_eq_ok, solid_eq_ok]
  constructor
  · rintro ⟨o, _, ⟨ho, rfl⟩, hrun⟩
    cases o with
    | sweep s swept =>
      obtain ⟨_, _, hbase, hrun⟩ := Edit.bind_eq_ok.1 hrun
      obtain ⟨o, hswept, rfl, rfl⟩ := base_eq_ok.1 hbase
      exact ⟨s, swept, o, ho, hswept, hrun⟩
    | set | line | layer | composite | loft => exact (Edit.throw_eq_ok.1 hrun).elim
  · rintro ⟨s, swept, o, hs, hswept, hrun⟩
    exact ⟨_, w, ⟨hs, rfl⟩,
      Edit.bind_eq_ok.2 ⟨o.base, w, base_eq_ok.2 ⟨o, hswept, rfl, rfl⟩, hrun⟩⟩

/-- The sweep goes over to the other object first, and then back to the voxels of that one. -/
theorem changeSwept_eq_ok {swept : Handle} : changeSwept h swept w = .ok u w' ↔
    ∃ s old o, w.solids[h]? = some (.sweep s old) ∧ s.base.isDeleted = false ∧
      (put h (.sweep s swept) w).solids[swept]? = some o ∧
      onPartOf h s (fun s => .sweep s swept) (Sweep.reset o.base) (put h (.sweep s swept) w) =
        .ok u w' := by
  simp only [changeSwept, Edit.bind_eq_ok, solid_eq_ok]
  constructor
  · rintro ⟨o, _, ⟨ho, rfl⟩, hrun⟩
    cases o with
    | sweep s old =>
      simp only [Edit.bind_eq_ok, Edit.ofExcept_eq_ok, Edit.modify_eq_ok, base_eq_ok] at hrun
      obtain ⟨_, _, ⟨hlive, rfl⟩, _, _, rfl, _, _, ⟨o, hswept, rfl, rfl⟩, hrun⟩ := hrun
      exact ⟨s, old, o, ho, VoxelSet.checkAlive_eq_ok.1 hlive, hswept, hrun⟩
    | set | line | layer | composite | loft => exact (Edit.throw_eq_ok.1 hrun).elim
  · rintro ⟨s, old, o, hs, hlive, hswept, hrun⟩
    refine ⟨_, w, ⟨hs, rfl⟩, ?_⟩
    simp only [Edit.bind_eq_ok, Edit.ofExcept_eq_ok, Edit.modify_eq_ok, base_eq_ok]
    exact ⟨(), w, ⟨VoxelSet.checkAlive_eq_ok.2 hlive, rfl⟩, (), _, rfl, o.base, _,
      ⟨o, hswept, rfl, rfl⟩, hrun⟩

theorem extrude_eq_ok {shell : Bool} : extrude h shell w = .ok u w' ↔
    ∃ s swept o, w.solids[h]? = some (.sweep s swept) ∧ w.solids[swept]? = some o ∧
      onPartOf h s (fun s => .sweep s swept) (Sweep.extrude shell o.profile) w = .ok u w' := by
  simp only [extrude, Edit.bind_eq_ok, solid_eq_ok]
  constructor
  · rintro ⟨o, _, ⟨ho, rfl⟩, hrun⟩
    cases o with
    | sweep s swept =>
      obtain ⟨_, _, hprofile, hrun⟩ := Edit.bind_eq_ok.1 hrun
      obtain ⟨o, hswept, rfl, rfl⟩ := profile_eq_ok.1 hprofile
      exact ⟨s, swept, o, ho, hswept, hrun⟩
    | set | line | layer | composite | loft => exact (Edit.throw_eq_ok.1 hrun).elim
  · rintro ⟨s, swept, o, hs, hswept, hrun⟩
    exact ⟨_, w, ⟨hs, rfl⟩,
      Edit.bind_eq_ok.2 ⟨o.profile, w, profile_eq_ok.2 ⟨o, hswept, rfl, rfl⟩, hrun⟩⟩

theorem delete_eq_ok : delete h w = .ok u w' ↔ ∃ o o' i, w.solids[h]? = some o ∧
    Solid.Released w.issuer i o o' ∧ w' = put h o' { w with issuer := i } := by
  simp only [delete, Edit.bind_eq_ok, solid_eq_ok]
  constructor
  · rintro ⟨o, _, ⟨ho, rfl⟩, hrun⟩
    cases o with
    | set s =>
      simp only [Edit.bind_eq_ok, onIssuer_eq_ok, Edit.modify_eq_ok] at hrun
      obtain ⟨s', _, ⟨i, hrelease, rfl⟩, rfl⟩ := hrun
      exact ⟨_, _, i, ho, .set hrelease, rfl⟩
    | line l =>
      simp only [Edit.bind_eq_ok, onIssuer_eq_ok, Edit.modify_eq_ok] at hrun
      obtain ⟨s', _, ⟨i, hrelease, rfl⟩, rfl⟩ := hrun
      exact ⟨_, _, i, ho, .line hrelease, rfl⟩
    | layer l =>
      simp only [Edit.bind_eq_ok, onIssuer_eq_ok, Edit.modify_eq_ok] at hrun
      obtain ⟨l', _, ⟨i, hrelease, rfl⟩, rfl⟩ := hrun
      exact ⟨_, _, i, ho, .layer hrelease, rfl⟩
    | composite c names =>
      obtain ⟨i, c', hrelease, rfl⟩ := onPartOf_eq_ok.1 hrun
      exact ⟨_, _, i, ho, .composite hrelease, rfl⟩
    | sweep s swept =>
      obtain ⟨i, s', hrelease, rfl⟩ := onPartOf_eq_ok.1 hrun
      exact ⟨_, _, i, ho, .sweep hrelease, rfl⟩
    | loft l profiles =>
      obtain ⟨i, l', hrelease, rfl⟩ := onPartOf_eq_ok.1 hrun
      exact ⟨_, _, i, ho, .loft hrelease, rfl⟩
  · rintro ⟨o, o', i, ho, hreleased, rfl⟩
    refine ⟨o, w, ⟨ho, rfl⟩, ?_⟩
    cases hreleased with
    | set hrelease | line hrelease | layer hrelease =>
      simp only [Edit.bind_eq_ok, onIssuer_eq_ok, Edit.modify_eq_ok]
      exact ⟨_, _, ⟨i, hrelease, rfl⟩, rfl⟩
    | composite hrelease | sweep hrelease | loft hrelease =>
      exact onPartOf_eq_ok.2 ⟨i, _, hrelease, rfl⟩

end

/-! ## Ownership -/

/-- The identifiers in use are those of the sets of the world, and all of these are apart. -/
def IsSound (w : World) : Prop := w.issuer.Owns ∅ w.sets

theorem isSound_empty (source : IdSource) : (empty source).IsSound :=
  ⟨VoxelSet.areApart_nil ∅, fun id => by simp [empty, Issuer.inUse, sets]⟩

namespace IsSound

/-- The sets of an object are at hand beside those of the others. -/
theorem owns (hw : w.IsSound) (ho : w.solids[h]? = some o) :
    w.issuer.Owns ∅ (o.sets ++ w.others h) :=
  Issuer.Owns.perm hw (sets_perm ho)

/-- The voxels and the parts of a live object are at hand beside the sets of the others. -/
theorem owns_of_isLive (hw : w.IsSound) (ho : w.solids[h]? = some o)
    (hlive : o.base.isDeleted = false) : w.issuer.Owns ∅ (o.base :: o.parts ++ w.others h) :=
  Solid.sets_of_isLive hlive ▸ hw.owns ho

theorem put {i : Issuer} (ho : w.solids[h]? = some o) (h' : i.Owns ∅ (o'.sets ++ w.others h)) :
    (put h o' { w with issuer := i }).IsSound := by
  have hperm := sets_perm (w := World.put h o' { w with issuer := i }) (solids_put ho o')
  rw [others_put] at hperm
  exact Issuer.Owns.perm h' hperm.symm

/-- An edit of a live object that owns its sets before and after leaves the world sound. -/
theorem onPartOf {α τ : Type} {part : τ} {write : τ → Solid} {edit : Edit (Issuer × τ) α} {a : α}
    (hw : w.IsSound) (ho : w.solids[h]? = some o)
    (hrun : onPartOf h part write edit w = .ok a w')
    (hedit : ∀ i p,
      (o.base.isDeleted = false → w.issuer.Owns ∅ (o.base :: o.parts ++ w.others h)) →
      edit (w.issuer, part) = .ok a (i, p) →
      i.Owns ∅ ((write p).base :: (write p).parts ++ w.others h)) : w'.IsSound := by
  obtain ⟨i, p, hpart, rfl⟩ := onPartOf_eq_ok.1 hrun
  exact IsSound.put ho (Solid.owns_sets (hedit i p (hw.owns_of_isLive ho) hpart))

/-- An object that was deleted leaves the sets of the others. -/
theorem put_deleted {i : Issuer} (ho : w.solids[h]? = some o)
    (h' : o'.base.isDeleted = true ∧ i.Owns ∅ (w.others h)) :
    (World.put h o' { w with issuer := i }).IsSound := by
  refine IsSound.put ho ?_
  rw [Solid.sets_of_isDeleted h'.1]
  exact h'.2

/-- A new object is added with its sets. -/
theorem add {i : Issuer} (h' : i.Owns ∅ (o.base :: o.parts ++ w.sets)) :
    ({ issuer := i, solids := w.solids.push o } : World).IsSound := by
  have hsets : ({ issuer := i, solids := w.solids.push o } : World).sets = w.sets ++ o.sets := by
    simp [sets]
  rw [IsSound, hsets]
  exact (Solid.owns_sets h').perm List.perm_append_comm

end IsSound
end World
end VoxelAlgebra
