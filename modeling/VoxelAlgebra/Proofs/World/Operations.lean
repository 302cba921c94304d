import VoxelAlgebra.Proofs.Solid.Sweep
import VoxelAlgebra.Proofs.World.Objects

/-!
# Worlds that operations lead to

Objects are made, changed and deleted one operation after the other. Every successful operation
keeps the identifiers in use exactly those of the sets of the world, so in every world that
operations lead to, live sets are sound and have different identifiers.

## Main definitions

* `World.Operation`, `World.Operation.run` — what can be done to a world.
* `World.Reached` — the worlds that successful operations lead to.
* `World.exists_created` — operations that make an object.
* `World.isSound_step`, `World.Reached.isSound` — one operation, and all of them.
* `World.exists_reached` — a world that given operations lead to.
-/

namespace VoxelAlgebra.World

/-- What can be done to a world. A tree may also be given to a composite without an equation. -/
inductive Operation where
  | createSet (origin : List Number) (fill : List (List Number))
  | createLine (origin : List Number) (endpoints : List (List Number)) (doublePass : Bool)
  | createLayer (origin : List Number) (vertices : List (List Number))
  | createComposite (origin : List Number) (names : List (String × Handle))
  | createSweep (origin vector : List Number) (swept : Option Handle)
  | createLoft (origin : List Number) (profiles : List Handle)
  | setOrigin (h : Handle) (origin : List Number)
  | setFill (h : Handle) (fill : List (List Number))
  | addFill (h : Handle) (more : List (List Number))
  | recompute (h : Handle)
  | generateLine (h : Handle)
  | changeEndpoints (h : Handle) (endpoints : List (List Number))
  | changeVertices (h : Handle) (vertices : List (List Number))
  | generateEdges (h : Handle)
  | fillPolygon (h : Handle)
  | changeNames (h : Handle) (names : List (String × Handle))
  | setEquation (h : Handle) (text : String)
  | setTree (h : Handle) (tree : Datum)
  | resetCache (h : Handle)
  | interpret (h : Handle)
  | changeVector (h : Handle) (vector : List Number)
  | changeSwept (h swept : Handle)
  | extrude (h : Handle) (shell : Bool)
  | generateSections (h : Handle) (shell : Bool)
  | resetSections (h : Handle)
  | delete (h : Handle)

def assignTree (h : Handle) (tree : Datum) : Edit World Unit :=
  onComposite h fun _ => Edit.onSecond
    (modify fun c => { c with equation := { c.equation with tree := tree } })

def Operation.run : Operation → Edit World Unit
  | createSet origin fill => do let _ ← World.createSet origin fill
  | createLine origin endpoints doublePass => do
    let _ ← World.createLine origin endpoints doublePass
  | createLayer origin vertices => do let _ ← World.createLayer origin vertices
  | createComposite origin names => do let _ ← World.createComposite origin names
  | createSweep origin vector swept => do let _ ← World.createSweep origin vector swept
  | createLoft origin profiles => do let _ ← World.createLoft origin profiles
  | setOrigin h origin => onSet h (VoxelSet.setOriginFrom origin)
  | setFill h fill => onSet h (VoxelSet.setFillFrom fill)
  | addFill h more => onSet h (VoxelSet.addFillFrom more)
  | recompute h => onSet h VoxelSet.recompute
  | generateLine h => onLine h Line.generate
  | changeEndpoints h endpoints => onLine h (Line.changeEndpoints endpoints)
  | changeVertices h vertices => onLayer h (Edit.onSecond (Layer.changeVertices vertices))
  | generateEdges h => onLayer h (Edit.onSecond Layer.generateEdges)
  | fillPolygon h => onLayer h Layer.fillPolygon
  | changeNames h names => World.changeNames h names
  | setEquation h text => onComposite h fun _ => Composite.setEquation text
  | setTree h tree => assignTree h tree
  | resetCache h => onComposite h Composite.resetCache
  | interpret h => onComposite h Composite.interpret
  | changeVector h vector => World.changeVector h vector
  | changeSwept h swept => World.changeSwept h swept
  | extrude h shell => World.extrude h shell
  | generateSections h shell => onLoft h (Loft.generateEdges shell)
  | resetSections h => onLoft h fun _ => Loft.resetSections
  | delete h => World.delete h

def runAll : List Operation → Edit World Unit
  | [] => pure ()
  | op :: rest => do
    op.run
    runAll rest

/-- The worlds that successful operations lead to. -/
inductive Reached (source : IdSource) : World → Prop
  | empty : Reached source (empty source)
  | step {w w' : World} (op : Operation) : Reached source w → op.run w = .ok () w' →
    Reached source w'

variable {w w' : World} {h : Handle} {u : Unit}

/-- Reading the set of an object that may be given or not changes nothing. -/
theorem eq_of_mapM_base {swept : Option Handle} {set : Option VoxelSet}
    (hread : swept.mapM base w = .ok set w') : w = w' := by
  cases swept with
  | none => exact (Edit.pure_eq_ok.1 hread).2
  | some k =>
    simp only [Option.mapM_some, map_eq_pure_bind, Edit.bind_eq_ok, base_eq_ok,
      Edit.pure_eq_ok] at hread
    obtain ⟨_, _, ⟨_, -, -, rfl⟩, -, rfl⟩ := hread
    rfl

theorem exists_of_discard {α : Type} {x : Edit World α}
    (hrun : (do let _ ← x : Edit World Unit) w = .ok u w') : ∃ a, x w = .ok a w' := by
  obtain ⟨a, _, hx, hend⟩ := Edit.bind_eq_ok.1 hrun
  obtain ⟨-, rfl⟩ := Edit.pure_eq_ok.1 hend
  exact ⟨a, hx⟩

/-! ## New objects -/

def Operation.IsCreation : Operation → Prop
  | createSet .. | createLine .. | createLayer .. | createComposite .. | createSweep ..
  | createLoft .. => True
  | _ => False

/-- A new object is added after the others. -/
theorem exists_created {op : Operation} (hop : op.IsCreation) (hrun : op.run w = .ok u w') :
    ∃ o i, Solid.Created w.issuer i o ∧ w' = { issuer := i, solids := w.solids.push o } := by
  cases op with
  | createSet =>
    obtain ⟨k, hcreate⟩ := exists_of_discard hrun
    simp only [createSet, Edit.bind_eq_ok, onIssuer_eq_ok, add_eq_ok] at hcreate
    obtain ⟨s, _, ⟨i, hset, rfl⟩, -, rfl⟩ := hcreate
    exact ⟨_, i, .set hset, rfl⟩
  | createLine =>
    obtain ⟨k, hcreate⟩ := exists_of_discard hrun
    simp only [createLine, Edit.bind_eq_ok, onIssuer_eq_ok, add_eq_ok] at hcreate
    obtain ⟨l, _, ⟨i, hline, rfl⟩, -, rfl⟩ := hcreate
    exact ⟨_, i, .line hline, rfl⟩
  | createLayer =>
    obtain ⟨k, hcreate⟩ := exists_of_discard hrun
    simp only [createLayer, Edit.bind_eq_ok, onIssuer_eq_ok, add_eq_ok] at hcreate
    obtain ⟨l, _, ⟨i, hlayer, rfl⟩, -, rfl⟩ := hcreate
    exact ⟨_, i, .layer hlayer, rfl⟩
  | createComposite =>
    obtain ⟨k, hcreate⟩ := exists_of_discard hrun
    simp only [createComposite, Edit.bind_eq_ok, bound_eq_ok, onIssuer_eq_ok,
      add_eq_ok] at hcreate
    obtain ⟨bound, _, ⟨rfl, -⟩, c, _, ⟨i, hcomposite, rfl⟩, -, rfl⟩ := hcreate
    exact ⟨_, i, .composite _ hcomposite, rfl⟩
  | createSweep =>
    obtain ⟨k, hcreate⟩ := exists_of_discard hrun
    simp only [createSweep, Edit.bind_eq_ok, onIssuer_eq_ok, add_eq_ok] at hcreate
    obtain ⟨set, w₁, hset, s, _, ⟨i, hsweep, rfl⟩, -, rfl⟩ := hcreate
    obtain rfl := eq_of_mapM_base hset
    exact ⟨_, i, .sweep _ hsweep, rfl⟩
  | createLoft =>
    obtain ⟨k, hcreate⟩ := exists_of_discard hrun
    simp only [createLoft, Edit.bind_eq_ok, onIssuer_eq_ok, add_eq_ok] at hcreate
    obtain ⟨l, _, ⟨i, hloft, rfl⟩, -, rfl⟩ := hcreate
    exact ⟨_, i, .loft _ hloft, rfl⟩
  | _ => exact hop.elim

namespace IsSound

theorem of_created {o : Solid} {i : Issuer} (hw : w.IsSound) (ho : o.Created w.issuer i) :
    ({ issuer := i, solids := w.solids.push o } : World).IsSound := by
  refine IsSound.add ?_
  cases ho with
  | set hcreate => exact Issuer.Owns.of_createFrom hw hcreate
  | line hcreate => exact Line.owns_of_create hw hcreate
  | layer hcreate => exact Layer.owns_of_createFrom hw hcreate
  | composite _ hcreate => exact Composite.owns_of_create hw hcreate
  | sweep _ hcreate => exact Sweep.owns_of_create hw hcreate
  | loft _ hcreate => exact Loft.owns_of_create hw hcreate

theorem createSweep {origin vector : List Number} {swept : Option Handle} (hw : w.IsSound)
    (hrun : World.createSweep origin vector swept w = .ok h w') : w'.IsSound := by
  have hop : (Operation.createSweep origin vector swept).run w = .ok () w' :=
    Edit.bind_eq_ok.2 ⟨h, w', hrun, rfl⟩
  obtain ⟨o, i, hcreated, rfl⟩ := exists_created (by trivial) hop
  exact hw.of_created hcreated

/-! ## Edits of objects -/

theorem onSet {α : Type} {edit : Edit VoxelSet α} {a : α} (hw : w.IsSound)
    (hedit : ∀ s t, edit s = .ok a t → VoxelSet.IsChange s t)
    (hrun : World.onSet h edit w = .ok a w') : w'.IsSound := by
  obtain ⟨o, ho, hrun⟩ := onSet_eq_ok.1 hrun
  refine hw.onPartOf ho hrun fun i t h hpart => ?_
  obtain ⟨hset, rfl⟩ := Edit.onSecond_eq_ok.1 hpart
  rw [Solid.base_withBase, Solid.parts_withBase]
  exact .of_isChange h (hedit _ _ hset)

theorem onLine {edit : Edit Line Unit} (hw : w.IsSound)
    (hedit : ∀ l l', edit l = .ok u l' → VoxelSet.IsChange l.base l'.base)
    (hrun : World.onLine h edit w = .ok u w') : w'.IsSound := by
  obtain ⟨l, hl, hrun⟩ := onLine_eq_ok.1 hrun
  refine hw.onPartOf hl hrun fun i t h hpart => ?_
  obtain ⟨hline, rfl⟩ := Edit.onSecond_eq_ok.1 hpart
  exact .of_isChange h (hedit _ _ hline)

theorem onLayer {edit : Edit (Issuer × Layer) Unit} (hw : w.IsSound)
    (hedit : ∀ i i' l l' held rest, (l.base.isDeleted = false → i.Owns held (l.base :: rest)) →
      edit (i, l) = .ok u (i', l') → i'.Owns held (l'.base :: rest))
    (hrun : World.onLayer h edit w = .ok u w') : w'.IsSound := by
  obtain ⟨l, hl, hrun⟩ := onLayer_eq_ok.1 hrun
  exact hw.onPartOf hl hrun fun i t h hpart => hedit _ _ _ _ _ _ h hpart

/-- An edit of a layer that needs no identifiers. -/
theorem onLayer_onSecond {edit : Edit Layer Unit} (hw : w.IsSound)
    (hedit : ∀ l l', edit l = .ok u l' → VoxelSet.IsChange l.base l'.base)
    (hrun : World.onLayer h (Edit.onSecond edit) w = .ok u w') : w'.IsSound := by
  refine hw.onLayer (fun i i' l l' held rest howns hlayer => ?_) hrun
  obtain ⟨hlayer, rfl⟩ := Edit.onSecond_eq_ok.1 hlayer
  exact .of_isChange howns (hedit _ _ hlayer)

theorem onComposite {edit : Bound → Edit (Issuer × Composite) Unit} (hw : w.IsSound)
    (hedit : ∀ bound i i' c c' held others,
      (c.base.isDeleted = false → i.Owns held (c.sets ++ others)) →
      edit bound (i, c) = .ok u (i', c') → i'.Owns held (c'.sets ++ others))
    (hrun : World.onComposite h edit w = .ok u w') : w'.IsSound := by
  obtain ⟨c, names, bound, hc, -, hrun⟩ := onComposite_eq_ok.1 hrun
  exact hw.onPartOf hc hrun fun i t h hpart => hedit _ _ _ _ _ _ _ h hpart

theorem onLoft {edit : List Profile → Edit (Issuer × Loft) Unit} (hw : w.IsSound)
    (hedit : ∀ profiles i i' l l' held others,
      (l.base.isDeleted = false → i.Owns held (l.sets ++ others)) →
      edit profiles (i, l) = .ok u (i', l') → i'.Owns held (l'.sets ++ others))
    (hrun : World.onLoft h edit w = .ok u w') : w'.IsSound := by
  obtain ⟨l, handles, profiles, hl, -, hrun⟩ := onLoft_eq_ok.1 hrun
  exact hw.onPartOf hl hrun fun i t h hpart => hedit _ _ _ _ _ _ _ h hpart

theorem assignTree {tree : Datum} (hw : w.IsSound)
    (hrun : World.assignTree h tree w = .ok u w') : w'.IsSound := by
  obtain ⟨c, names, bound, hc, -, hrun⟩ := onComposite_eq_ok.1 hrun
  obtain ⟨i, c', hedit, rfl⟩ := onPartOf_eq_ok.1 hrun
  obtain ⟨rfl, rfl⟩ : { c with equation := { c.equation with tree := tree } } = c' ∧
      w.issuer = i := by simpa [Edit.onSecond_eq_ok] using hedit
  -- the tree is no part of what the composite owns
  have howns := hw.owns hc
  exact IsSound.put hc howns

/-! ## Changes that follow handles -/

theorem changeNames {names : List (String × Handle)} (hw : w.IsSound)
    (hrun : World.changeNames h names w = .ok u w') : w'.IsSound := by
  obtain ⟨c, old, hc, -, hreset⟩ := changeNames_eq_ok.1 hrun
  have howns := hw.owns hc
  have hput : (World.put h (.composite c (bindNames names)) w).IsSound := IsSound.put hc howns
  exact hput.onComposite (fun _ _ _ _ _ _ _ => Composite.owns_of_resetCache) hreset

theorem changeVector {vector : List Number} (hw : w.IsSound)
    (hrun : World.changeVector h vector w = .ok u w') : w'.IsSound := by
  obtain ⟨s, swept, o, hs, -, hrun⟩ := changeVector_eq_ok.1 hrun
  exact hw.onPartOf hs hrun fun i t h hpart => Sweep.owns_of_changeVector h hpart

theorem changeSwept {swept : Handle} (hw : w.IsSound)
    (hrun : World.changeSwept h swept w = .ok u w') : w'.IsSound := by
  obtain ⟨s, old, o, hs, -, -, hrun⟩ := changeSwept_eq_ok.1 hrun
  have howns := hw.owns hs
  have hput : (World.put h (.sweep s swept) w).IsSound := IsSound.put hs howns
  exact hput.onPartOf (solids_put hs _) hrun fun i t h hpart => Sweep.owns_of_reset h hpart

theorem extrude {shell : Bool} (hw : w.IsSound) (hrun : World.extrude h shell w = .ok u w') :
    w'.IsSound := by
  obtain ⟨s, swept, o, hs, -, hrun⟩ := extrude_eq_ok.1 hrun
  exact hw.onPartOf hs hrun fun i t h hpart => Sweep.owns_of_extrude h hpart

theorem delete (hw : w.IsSound) (hrun : World.delete h w = .ok u w') : w'.IsSound := by
  obtain ⟨o, o', i, ho, hreleased, rfl⟩ := delete_eq_ok.1 hrun
  have howns : o.base.isDeleted = false →
      w.issuer.Owns ∅ (o.base :: o.parts ++ w.others h) := hw.owns_of_isLive ho
  refine IsSound.put_deleted ho ?_
  cases hreleased with
  | set hrelease | line hrelease => exact Issuer.Owns.of_release howns hrelease
  | layer hrelease => exact Layer.owns_of_release howns hrelease
  | composite hrelease => exact Composite.owns_of_release howns hrelease
  | sweep hrelease => exact Sweep.owns_of_release howns hrelease
  | loft hrelease => exact Loft.owns_of_release howns hrelease

end IsSound

/-- A live object can be deleted. Its identifier and those of its parts are given back, and no
other. -/
theorem exists_delete {o : Solid} {held : Set String} {rest : List VoxelSet}
    (ho : w.solids[h]? = some o) (howns : w.issuer.Owns held (o.base :: o.parts ++ rest)) :
    ∃ i o', delete h w = .ok () (put h o' { w with issuer := i }) ∧ o'.base.isDeleted = true ∧
      i.Owns held rest := by
  have hdelete {i : Issuer} {o' : Solid} (hreleased : Solid.Released w.issuer i o o') :
      delete h w = .ok () (put h o' { w with issuer := i }) :=
    delete_eq_ok.2 ⟨o, o', i, ho, hreleased, rfl⟩
  cases o with
  | set s =>
    obtain ⟨i, hrelease, hi⟩ := howns.exists_release
    exact ⟨i, _, hdelete (.set hrelease), rfl, hi⟩
  | line l =>
    obtain ⟨i, hrelease, hi⟩ := howns.exists_release
    exact ⟨i, _, hdelete (.line hrelease), rfl, hi⟩
  | layer l =>
    obtain ⟨i, hrelease, hi⟩ := howns.exists_release
    refine ⟨i, .layer { l with base := l.base.emptied, edges := [] }, hdelete (.layer ?_), rfl, hi⟩
    simp only [Layer.release, Edit.bind_eq_ok, Edit.pure_eq_ok]
    exact ⟨_, i, hrelease, rfl, rfl⟩
  | composite c names =>
    obtain ⟨i, c', hrelease, hdeleted, hi⟩ := Composite.exists_release howns
    exact ⟨i, _, hdelete (.composite hrelease), hdeleted, hi⟩
  | sweep s swept =>
    obtain ⟨i, s', hrelease, hdeleted, hi⟩ := Sweep.exists_release howns
    exact ⟨i, _, hdelete (.sweep hrelease), hdeleted, hi⟩
  | loft l profiles =>
    obtain ⟨i, l', hrelease, hdeleted, hi⟩ := Loft.exists_release howns
    exact ⟨i, _, hdelete (.loft hrelease), hdeleted, hi⟩

/-! ## All operations -/

/-- Every successful operation leaves a sound world sound. -/
theorem isSound_step {op : Operation} (hw : w.IsSound) (hrun : op.run w = .ok u w') :
    w'.IsSound := by
  cases op with
  | createSet | createLine | createLayer | createComposite | createSweep | createLoft =>
    obtain ⟨o, i, hcreated, rfl⟩ := exists_created (by trivial) hrun
    exact hw.of_created hcreated
  | setOrigin => exact hw.onSet (fun _ _ => VoxelSet.isChange_of_setOriginFrom) hrun
  | setFill => exact hw.onSet (fun _ _ => VoxelSet.isChange_of_setFillFrom) hrun
  | addFill => exact hw.onSet (fun _ _ => VoxelSet.isChange_of_addFillFrom) hrun
  | recompute => exact hw.onSet (fun _ _ => VoxelSet.isChange_of_recompute) hrun
  | generateLine => exact hw.onLine (fun _ _ => Line.isChange_of_generate) hrun
  | changeEndpoints => exact hw.onLine (fun _ _ => Line.isChange_of_changeEndpoints) hrun
  | changeVertices => exact hw.onLayer_onSecond (fun _ _ => Layer.isChange_of_changeVertices) hrun
  | generateEdges => exact hw.onLayer_onSecond (fun _ _ => Layer.isChange_of_generateEdges) hrun
  | fillPolygon => exact hw.onLayer (fun _ _ _ _ _ _ => Layer.owns_of_fillPolygon) hrun
  | changeNames => exact hw.changeNames hrun
  | setEquation => exact hw.onComposite (fun _ _ _ _ _ _ _ => Composite.owns_of_setEquation) hrun
  | setTree => exact hw.assignTree hrun
  | resetCache => exact hw.onComposite (fun _ _ _ _ _ _ _ => Composite.owns_of_resetCache) hrun
  | interpret => exact hw.onComposite (fun _ _ _ _ _ _ _ => Composite.owns_of_interpret) hrun
  | changeVector => exact hw.changeVector hrun
  | changeSwept => exact hw.changeSwept hrun
  | extrude => exact hw.extrude hrun
  | generateSections => exact hw.onLoft (fun _ _ _ _ _ _ _ => Loft.owns_of_generateEdges) hrun
  | resetSections =>
    refine hw.onLoft (fun _ _ _ _ _ _ _ h hrun => ?_) hrun
    obtain ⟨base, rfl, howns⟩ := Loft.owns_of_resetSections h hrun
    exact howns
  | delete => exact hw.delete hrun

theorem Reached.isSound {source : IdSource} (h : w.Reached source) : w.IsSound := by
  induction h with
  | empty => exact isSound_empty source
  | step op _ hrun ih => exact isSound_step ih hrun

theorem Reached.runAll {source : IdSource} {ops : List Operation} (hw : w.Reached source)
    (hrun : World.runAll ops w = .ok u w') : w'.Reached source := by
  induction ops generalizing w with
  | nil =>
    obtain ⟨-, rfl⟩ := Edit.pure_eq_ok.1 hrun
    exact hw
  | cons op rest ih =>
    simp only [World.runAll, Edit.bind_eq_ok] at hrun
    obtain ⟨_, w₁, hop, hrest⟩ := hrun
    exact ih (hw.step op hop) hrest

/-- A world that given operations lead to, with what can be read off it. The world is found by
evaluating the run, so that its evaluation is a proof of `hrun` and `hw` speaks of its result. -/
theorem exists_reached {source : IdSource} (ops : List Operation) {P : World → Prop}
    (hrun : World.runAll ops (empty source) = .ok () w) (hw : P w) :
    ∃ w : World, w.Reached source ∧ P w :=
  ⟨w, Reached.empty.runAll hrun, hw⟩

end VoxelAlgebra.World
