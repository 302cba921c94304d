import VoxelAlgebra.Proofs.Solid.Pass
import VoxelAlgebra.Proofs.World.Operations

/-!
# Operations that fail

An edit of one object leaves all other objects as they are, also when it fails. An interpretation
that fails, at whatever depth of the tree, leaves the composite with its voxels, its derived state,
its equation and its names; only its cache is another one.

## Main definitions

* `World.endsIn_solid` and its siblings — the outcomes of reading a world.
* `World.endsIn_onComposite` — the outcome of an edit of a composite.
* `World.interpret_keeps` — what an interpretation leaves alone.
-/

namespace VoxelAlgebra.World

variable {α : Type} {w w' : World} {h k : Handle} {o : Solid} {c : Composite}
  {names : List (String × Handle)}

theorem endsIn_solid {Q : Solid → World → Prop} {E : Fault → World → Prop} :
    (solid h).EndsIn w Q E ↔
      (∀ o, w.solids[h]? = some o → Q o w) ∧ (w.solids[h]? = none → E .noSuchObject w) := by
  simp only [solid, Edit.endsIn_bind, Edit.endsIn_get]
  cases w.solids[h]? <;> simp

/-- An edit of an object that is there goes on with that object. -/
theorem endsIn_solid_bind {f : Solid → Edit World α} {Q : α → World → Prop}
    {E : Fault → World → Prop} (ho : w.solids[h]? = some o) :
    (solid h >>= f).EndsIn w Q E ↔ (f o).EndsIn w Q E := by
  simp only [Edit.endsIn_bind, solid, Edit.endsIn_get, ho, Edit.endsIn_pure]

theorem endsIn_base : (base h).EndsIn w (fun _ w' => w' = w) fun _ w' => w' = w := by
  rw [base, map_eq_pure_bind, Edit.endsIn_bind, endsIn_solid]
  exact ⟨fun _ _ => rfl, fun _ => rfl⟩

theorem endsIn_profile : (profile k).EndsIn w
    (fun p w' => w' = w ∧ ∃ o, w.solids[k]? = some o ∧ o.profile = p)
    fun _ w' => w' = w ∧ w.solids[k]? = none := by
  rw [profile, map_eq_pure_bind, Edit.endsIn_bind, endsIn_solid]
  exact ⟨fun o ho => ⟨rfl, o, ho, rfl⟩, fun hnone => ⟨rfl, hnone⟩⟩

/-- Names are read without changing anything, also where an object is missing. -/
theorem endsIn_bound (names : List (String × Handle)) : (World.bound names).EndsIn w
    (fun bound w' => w' = w ∧ World.bound names w = .ok bound w) fun _ w' => w' = w := by
  have hread : (World.bound names).EndsIn w (fun _ w' => w' = w) fun _ w' => w' = w :=
    Edit.endsIn_mapM_of_read fun e =>
      Edit.endsIn_bind.2 (endsIn_base.imp (fun _ _ hw => hw) fun _ _ hw => hw)
  refine Edit.endsIn_iff.2 ⟨fun bound w' hrun => ?_, fun _ _ => hread.of_error⟩
  obtain rfl := hread.of_ok hrun
  exact ⟨rfl, hrun⟩

/-- An edit of a composite ends with the composite and the issuer that the edit leaves. -/
theorem endsIn_onComposite {edit : Bound → Edit (Issuer × Composite) α} {Q : α → World → Prop}
    {E : Fault → World → Prop} (hc : w.solids[h]? = some (.composite c names))
    (hread : ∀ e, E e w)
    (hedit : ∀ bound, World.bound names w = .ok bound w → (edit bound).EndsIn (w.issuer, c)
      (fun a p => Q a (put h (.composite p.2 names) { w with issuer := p.1 }))
      fun e p => E e (put h (.composite p.2 names) { w with issuer := p.1 })) :
    (onComposite h edit).EndsIn w Q E := by
  rw [onComposite, endsIn_solid_bind hc]
  refine Edit.endsIn_bind.2 ((endsIn_bound names).imp ?_ fun e w' hw => hw ▸ hread e)
  rintro bound _ ⟨rfl, hbound⟩
  exact Edit.endsIn_onPart.2 (hedit bound hbound)

/-- An interpretation that fails leaves the voxels of the composite with all that is derived from
them, its equation and its names. However it ends, every other object stays as it is. -/
theorem interpret_keeps (hc : w.solids[h]? = some (.composite c names)) :
    (∀ e w', onComposite h Composite.interpret w = .error e w' →
      ∃ c', w'.solids[h]? = some (.composite c' names) ∧ c'.base = c.base ∧
        c'.equation = c.equation) ∧
    ∀ k ≠ h, ((onComposite h Composite.interpret).outcome w).2.solids[k]? = w.solids[k]? := by
  constructor
  · intro e w' hrun
    refine Edit.EndsIn.of_error (Q := fun _ _ => True) (E := fun _ w' => ∃ c',
      w'.solids[h]? = some (.composite c' names) ∧ c'.base = c.base ∧
        c'.equation = c.equation) (endsIn_onComposite hc (fun _ => ⟨c, hc, rfl, rfl⟩) ?_) hrun
    refine fun bound _ => (Composite.endsIn_interpret bound _).imp (fun _ _ _ => trivial) ?_
    exact fun _ p ⟨hbase, hsettles⟩ => ⟨p.2, solids_put hc _, hbase, hsettles.equation⟩
  · intro k hk
    refine Edit.EndsIn.outcome (P := fun w' => w'.solids[k]? = w.solids[k]?)
      (endsIn_onComposite hc (fun _ => rfl) fun bound _ => ?_)
    exact (Composite.endsIn_interpret bound _).imp (fun _ _ _ => solids_put_of_ne hk.symm _ _)
      fun _ _ _ => solids_put_of_ne hk.symm _ _

/-- An intersection with a name that stands for nothing, which is found out after the union on its
left was computed. -/
theorem interpret_keeps_unbound : ∃ (w w' : World) (c : Composite) (e : Fault),
    runAll [.createSet [0, 0, 0] [], .createComposite [0, 0, 0] [("a", 0)],
      .setFill 1 [[0, 0, 0], [1, 0, 0]],
      .setTree 1 (.list [.list [.text "a", .text "∪", .text "Ω"], .text "∩", .text "b"])]
      (empty .hexadecimal) = .ok () w ∧
    w.solids[1]? = some (.composite c [("a", 0)]) ∧ c.base.fill.length = 2 ∧
    onComposite 1 Composite.interpret w = .error e w' ∧
    (∀ e w', onComposite 1 Composite.interpret w = .error e w' →
      ∃ c', w'.solids[1]? = some (.composite c' [("a", 0)]) ∧ c'.base = c.base ∧
        c'.equation = c.equation) ∧
    ∀ k ≠ 1, ((onComposite 1 Composite.interpret).outcome w).2.solids[k]? = w.solids[k]? := by
  obtain ⟨w, w', c, e, hsetup, hc, hfill, hrun⟩ : ∃ (w w' : World) (c : Composite) (e : Fault),
      runAll [.createSet [0, 0, 0] [], .createComposite [0, 0, 0] [("a", 0)],
        .setFill 1 [[0, 0, 0], [1, 0, 0]],
        .setTree 1 (.list [.list [.text "a", .text "∪", .text "Ω"], .text "∩", .text "b"])]
        (empty .hexadecimal) = .ok () w ∧
      w.solids[1]? = some (.composite c [("a", 0)]) ∧ c.base.fill.length = 2 ∧
      onComposite 1 Composite.interpret w = .error e w' := by
    exact ⟨_, _, _, _, by cbv, by rfl, by rfl, by cbv⟩
  exact ⟨w, w', c, e, hsetup, hc, hfill, hrun, interpret_keeps hc⟩

end VoxelAlgebra.World
