import VoxelAlgebra.Proofs.Solid.Known
import VoxelAlgebra.Proofs.World.Failure

/-!
# Calls that may fail

Calls are made one after the other, and those that fail may leave something behind. A layer falls
behind its voxels when an addition to it is refused behind rows that it has added, and it catches
up with the next change of it that succeeds. No other call has a part in this: it leaves the layer
alone, or voxels out of range, or a layer that is deleted.

## Main definitions

* `World.Operation.Changes`, `World.Operation.LeavesBehind` — operations on the voxels of a layer.
* `World.Led` — the worlds that calls lead to, and whether a layer is behind in them.
* `World.Tracks`, `World.KeepsTrack` — what the layer of a handle knows, and edits that keep it.
* `World.endsIn_run_tracks`, `World.Led.tracks` — after one operation, and after all.
-/

namespace VoxelAlgebra

def Solid.Knows (behind : Prop) : Solid → Prop
  | .layer l => l.base.Knows behind
  | _ => True

/-- What an object knows after a change of its voxels. -/
theorem Solid.endsIn_change_knows {o : Solid} {behind : Prop} (ho : o.Knows behind)
    (change : VoxelSet.Change) : change.run.EndsIn o.base
      (fun _ t => (o.withBase t).Knows False)
      fun _ t => (o.withBase t).Knows (behind ∨ change.LeavesBehind) := by
  cases o with
  | layer l =>
    exact (change.endsIn_run_knows ho).imp (fun _ _ hsound => hsound.knows) fun _ _ h => h
  | set | line | composite | sweep | loft =>
    exact Edit.endsIn_of_forall (fun _ _ => trivial) fun _ _ => trivial

namespace World

variable {α β τ : Type} {w w' : World} {h k : Handle} {o : Solid} {behind : Prop}

/-! ## Operations -/

/-- The operations that give the layer `h` other voxels, or take all that it has into account. -/
def Operation.Changes (h : Handle) : Operation → Prop
  | setOrigin k _ | setFill k _ | addFill k _ | recompute k | changeVertices k _ | generateEdges k
  | fillPolygon k => k = h
  | _ => False

/-- The operation adds rows to the object `h` and is refused at one behind them. -/
def Operation.LeavesBehind (h : Handle) (w : World) : Operation → Prop
  | addFill k rows => k = h ∧ (∃ o, w.solids[h]? = some o) ∧
    (VoxelSet.Change.addFill rows).LeavesBehind
  | _ => False

/-- The worlds that calls lead to, whether they succeed or fail. The condition tells whether the
object `h` is behind: an addition to it was refused behind rows that it had added, and no change of
it has succeeded since. -/
inductive Led (source : IdSource) (h : Handle) : Prop → World → Prop
  | empty : Led source h False (World.empty source)
  | ok {behind : Prop} {w w' : World} {op : Operation} : Led source h behind w →
    op.run w = .ok () w' → Led source h (behind ∧ ¬op.Changes h) w'
  | error {behind : Prop} {w w' : World} {op : Operation} {e : Fault} : Led source h behind w →
    op.run w = .error e w' → Led source h (behind ∨ op.LeavesBehind h w) w'

/-- Where every operation succeeded nothing is behind. -/
theorem Reached.led {source : IdSource} (hw : w.Reached source) (h : Handle) :
    w.Led source h False := by
  induction hw with
  | empty => exact .empty
  | step op _ hrun ih => simpa using ih.ok hrun

/-! ## Reading -/

section

variable {P : World → Prop}

theorem keeps_solid (k : Handle) : (solid k).Keeps P := fun _ hw =>
  endsIn_solid.2 ⟨fun _ _ => hw, fun _ => hw⟩

theorem keeps_base (k : Handle) : (base k).Keeps P := by
  rw [base, map_eq_pure_bind]
  exact (keeps_solid k).bind fun _ => .pure _

theorem keeps_profile (k : Handle) : (profile k).Keeps P := by
  rw [profile, map_eq_pure_bind]
  exact (keeps_solid k).bind fun _ => .pure _

theorem keeps_bound (names : List (String × Handle)) : (World.bound names).Keeps P :=
  Edit.Keeps.mapM (fun _ => (keeps_base _).bind fun _ => .pure _) names

theorem keeps_mapM_base (swept : Option Handle) : Edit.Keeps P (swept.mapM base) := by
  cases swept with
  | none => exact .pure none
  | some k =>
    rw [Option.mapM_some, map_eq_pure_bind]
    exact (keeps_base k).bind fun _ => .pure _

end

/-! ## The layer of a handle -/

/-- What the object of a handle knows, if it is a layer. Nothing is behind before there is one. -/
structure Tracks (h : Handle) (behind : Prop) (w : World) : Prop where
  absent : w.solids[h]? = none → ¬behind
  knows : ∀ o, w.solids[h]? = some o → o.Knows behind

theorem tracks_put (ho : w.solids[h]? = some o) {o' : Solid} (hknows : o'.Knows behind)
    (i : Issuer) : Tracks h behind (put h o' { w with issuer := i }) where
  absent hnone := by
    rw [solids_put (w := { w with issuer := i }) ho] at hnone
    cases hnone
  knows p hp := by
    rw [solids_put (w := { w with issuer := i }) ho] at hp
    cases hp
    exact hknows

namespace Tracks

theorem of_iff {behind' : Prop} (hw : Tracks h behind w) (hiff : behind ↔ behind') :
    Tracks h behind' w :=
  propext hiff ▸ hw

theorem congr (hw : Tracks h behind w) (hsolids : w'.solids[h]? = w.solids[h]?) :
    Tracks h behind w' where
  absent hnone := hw.absent (hsolids ▸ hnone)
  knows o ho := hw.knows o (hsolids ▸ ho)

theorem put_of_ne (hw : Tracks h behind w) (hne : k ≠ h) (o : Solid) (i : Issuer) :
    Tracks h behind (World.put k o { w with issuer := i }) :=
  hw.congr (solids_put_of_ne hne o _)

theorem put (hw : Tracks h behind w) (hknows : o.Knows behind) (k : Handle) (i : Issuer) :
    Tracks h behind (World.put k o { w with issuer := i }) where
  absent hnone := hw.absent (solids_put_eq_none.1 hnone)
  knows p hp := by
    obtain rfl | hp := eq_or_of_solids_put hp
    · exact hknows
    · exact hw.knows p hp

/-- An object that is added knows all of its voxels. -/
theorem push (hw : Tracks h behind w) (hknows : o.Knows False) (i : Issuer) :
    Tracks h behind { issuer := i, solids := w.solids.push o } := by
  by_cases hsize : h = w.solids.size
  · subst hsize
    have hnot : ¬behind := hw.absent (by simp)
    rw [eq_false hnot]
    exact ⟨fun _ => not_false, fun p hp => by simp_all⟩
  · refine hw.congr ?_
    rw [Array.getElem?_push, if_neg hsize]

end Tracks

/-! ## Edits that keep track -/

def KeepsTrack (h : Handle) (behind : Prop) (edit : Edit World α) : Prop :=
  edit.Keeps (Tracks h behind)

namespace KeepsTrack

theorem put (k : Handle) (o : Solid) (ho : o.Knows behind) :
    KeepsTrack h behind (modify (World.put k o)) := fun w hw => hw.put ho k w.issuer

theorem add (o : Solid) (ho : o.Knows False) : KeepsTrack h behind (World.add o) := fun w hw =>
  hw.push ho w.issuer

/-- The issuer has no part in what a layer knows. It goes on with results that satisfy `P`. -/
theorem onIssuer_bind {edit : Edit Issuer β} {f : β → Edit World α} {P : β → Prop}
    (hedit : ∀ b i i', edit i = .ok b i' → P b) (hf : ∀ b, P b → KeepsTrack h behind (f b)) :
    KeepsTrack h behind (onIssuer edit >>= f) := fun w hw =>
  Edit.endsIn_bind.2 (Edit.endsIn_onPart.2 (Edit.endsIn_iff.2
    ⟨fun b i hrun => hf b (hedit b w.issuer i hrun) _ (hw.congr rfl), fun _ _ _ => hw.congr rfl⟩))

/-- A part of an object of another kind. -/
theorem onPartOf (k : Handle) {part : τ} (write : τ → Solid) {edit : Edit (Issuer × τ) α}
    (hwrite : ∀ t, (write t).Knows behind) :
    KeepsTrack h behind (World.onPartOf k part write edit) := fun _ hw =>
  Edit.endsIn_onPart.2 (Edit.endsIn_of_forall (fun _ p => hw.put (hwrite p.2) k p.1)
    fun _ p => hw.put (hwrite p.2) k p.1)

/-! ### Objects of other kinds -/

theorem onLine (k : Handle) (edit : Edit Line α) : KeepsTrack h behind (World.onLine k edit) := by
  refine (keeps_solid k).bind fun o => ?_
  cases o with
  | line l => exact onPartOf k .line fun _ => trivial
  | set | layer | composite | sweep | loft => exact .throw _

theorem onComposite (k : Handle) (edit : Bound → Edit (Issuer × Composite) α) :
    KeepsTrack h behind (World.onComposite k edit) := by
  refine (keeps_solid k).bind fun o => ?_
  cases o with
  | composite c names =>
    exact (keeps_bound names).bind fun _ =>
      onPartOf k (fun c => .composite c names) fun _ => trivial
  | set | line | layer | sweep | loft => exact .throw _

theorem onLoft (k : Handle) (edit : List Profile → Edit (Issuer × Loft) α) :
    KeepsTrack h behind (World.onLoft k edit) := by
  refine (keeps_solid k).bind fun o => ?_
  cases o with
  | loft l profiles =>
    exact (Edit.Keeps.mapM keeps_profile profiles).bind fun _ =>
      onPartOf k (fun l => .loft l profiles) fun _ => trivial
  | set | line | layer | composite | sweep => exact .throw _

/-- Other names are taken up before the cache is made for them. -/
theorem changeNames (k : Handle) (names : List (String × Handle)) :
    KeepsTrack h behind (World.changeNames k names) := by
  refine (keeps_solid k).bind fun o => ?_
  cases o with
  | composite c _ =>
    exact (Edit.Keeps.ofExcept _).bind fun _ =>
      (put k (.composite c (bindNames names)) trivial).bind fun _ => onComposite k _
  | set | line | layer | sweep | loft => exact .throw _

theorem changeVector (k : Handle) (vector : List Number) :
    KeepsTrack h behind (World.changeVector k vector) := by
  refine (keeps_solid k).bind fun o => ?_
  cases o with
  | sweep s swept =>
    exact (keeps_base swept).bind fun _ =>
      onPartOf k (fun s => .sweep s swept) fun _ => trivial
  | set | line | layer | composite | loft => exact .throw _

/-- Another object is taken up before the sweep goes back to its voxels. -/
theorem changeSwept (k swept : Handle) : KeepsTrack h behind (World.changeSwept k swept) := by
  refine (keeps_solid k).bind fun o => ?_
  cases o with
  | sweep s _ =>
    exact (Edit.Keeps.ofExcept _).bind fun _ =>
      (put k (.sweep s swept) trivial).bind fun _ =>
        (keeps_base swept).bind fun _ =>
          onPartOf k (fun s => .sweep s swept) fun _ => trivial
  | set | line | layer | composite | loft => exact .throw _

theorem extrude (k : Handle) (shell : Bool) : KeepsTrack h behind (World.extrude k shell) := by
  refine (keeps_solid k).bind fun o => ?_
  cases o with
  | sweep s swept =>
    exact (keeps_profile swept).bind fun _ =>
      onPartOf k (fun s => .sweep s swept) fun _ => trivial
  | set | line | layer | composite | loft => exact .throw _

/-! ### Beginning and end -/

/-- A new layer knows all of its voxels. -/
theorem create {op : Operation} (hop : op.IsCreation) : KeepsTrack h behind op.run := by
  have hdiscard {x : Edit World Handle} (hx : KeepsTrack h behind x) :
      KeepsTrack h behind (do let _ ← x : Edit World Unit) := hx.bind fun _ => .pure ()
  cases op with
  | createSet =>
    exact hdiscard (onIssuer_bind (fun _ _ _ _ => trivial) fun s _ => add (.set s) trivial)
  | createLine =>
    exact hdiscard (onIssuer_bind (fun _ _ _ _ => trivial) fun l _ => add (.line l) trivial)
  | createLayer =>
    exact hdiscard (onIssuer_bind (fun _ _ _ => Layer.isSound_of_createFrom) fun l hl =>
      add (.layer l) hl.knows)
  | createComposite _ names =>
    exact hdiscard ((keeps_bound (bindNames names)).bind fun _ =>
      onIssuer_bind (fun _ _ _ _ => trivial) fun c _ =>
        add (.composite c (bindNames names)) trivial)
  | createSweep _ _ swept =>
    exact hdiscard ((keeps_mapM_base swept).bind fun _ =>
      onIssuer_bind (fun _ _ _ _ => trivial) fun s _ =>
        add (.sweep s (swept.getD 0)) trivial)
  | createLoft _ profiles =>
    exact hdiscard (onIssuer_bind (fun _ _ _ _ => trivial) fun l _ =>
      add (.loft l profiles) trivial)
  | _ => exact hop.elim

/-- A deleted layer has no voxels to know. -/
theorem delete (k : Handle) : KeepsTrack h behind (World.delete k) := by
  refine (keeps_solid k).bind fun o => ?_
  cases o with
  | set s =>
    exact onIssuer_bind (fun _ _ _ _ => trivial) fun s _ => put k (.set s) trivial
  | line l =>
    exact onIssuer_bind (fun _ _ _ _ => trivial) fun base _ =>
      put k (.line { l with base }) trivial
  | layer l =>
    exact onIssuer_bind (fun _ _ _ => Layer.isDeleted_of_release) fun l hl =>
      put k (.layer l) (VoxelSet.knows_of_isDeleted hl)
  | composite c names =>
    exact onPartOf k (fun c => .composite c (if c.base.isDeleted then [] else names))
      fun _ => trivial
  | sweep s swept => exact onPartOf k (fun s => .sweep s swept) fun _ => trivial
  | loft l profiles => exact onPartOf k (fun l => .loft l profiles) fun _ => trivial

end KeepsTrack

/-! ## Changes of voxels -/

namespace Tracks

/-- An object takes all of its voxels into account when it is changed with success. -/
theorem onPartOf_of_change (hw : Tracks h behind w) (ho : w.solids[k]? = some o) {part : τ}
    (write : τ → Solid) {edit : Edit (Issuer × τ) α} {left : Prop}
    (hedit : o.Knows behind → edit.EndsIn (w.issuer, part)
      (fun _ p => (write p.2).Knows False) fun _ p => (write p.2).Knows (behind ∨ left)) :
    (World.onPartOf k part write edit).EndsIn w (fun _ => Tracks h (behind ∧ k ≠ h))
      fun _ => Tracks h (behind ∨ k = h ∧ left) := by
  by_cases hk : k = h
  · subst hk
    simp only [ne_eq, not_true_eq_false, and_false, true_and]
    exact Edit.endsIn_onPart.2 ((hedit (hw.knows o ho)).imp
      (fun _ p hp => tracks_put ho hp p.1) fun _ p hp => tracks_put ho hp p.1)
  · simp only [ne_eq, hk, not_false_eq_true, and_true, false_and, or_false]
    exact Edit.endsIn_onPart.2 (Edit.endsIn_of_forall
      (fun _ p => hw.put_of_ne hk (write p.2) p.1) fun _ p => hw.put_of_ne hk (write p.2) p.1)

theorem onSet (hw : Tracks h behind w) (k : Handle) (change : VoxelSet.Change) :
    (World.onSet k change.run).EndsIn w (fun _ => Tracks h (behind ∧ k ≠ h))
      fun _ => Tracks h (behind ∨ k = h ∧ (∃ o, w.solids[h]? = some o) ∧ change.LeavesBehind) := by
  rw [World.onSet, Edit.endsIn_bind, endsIn_solid]
  constructor
  · intro o ho
    have hchange := hw.onPartOf_of_change ho (fun t => o.withBase t) fun hknows =>
      Edit.endsIn_onSecond.2 (Solid.endsIn_change_knows hknows change)
    refine hchange.imp (fun _ _ hw' => hw') fun _ w' hw' => hw'.of_iff (or_congr_right ?_)
    exact and_congr_right fun hk => (and_iff_right ⟨o, hk ▸ ho⟩).symm
  · intro hnone
    refine hw.of_iff (or_iff_left ?_).symm
    rintro ⟨rfl, ⟨o, ho⟩, -⟩
    rw [hnone] at ho
    cases ho

/-- An edit of a layer that cannot leave anything behind. -/
theorem onLayer (hw : Tracks h behind w) (k : Handle) {edit : Edit (Issuer × Layer) α}
    (hedit : ∀ l, l.base.Knows behind → edit.EndsIn (w.issuer, l)
      (fun _ p => p.2.base.IsSound) fun _ p => p.2.base.Knows behind) :
    (World.onLayer k edit).EndsIn w (fun _ => Tracks h (behind ∧ k ≠ h))
      fun _ => Tracks h behind := by
  rw [World.onLayer, Edit.endsIn_bind, endsIn_solid]
  refine ⟨fun o ho => ?_, fun _ => hw⟩
  cases o with
  | layer l =>
    have hknows (p : Issuer × Layer) (hp : p.2.base.Knows behind) :
        (Solid.layer p.2).Knows (behind ∨ False) := by
      rwa [or_false]
    have hchange := hw.onPartOf_of_change ho .layer fun hl =>
      (hedit l hl).imp (fun _ _ hsound => hsound.knows) fun _ => hknows
    exact hchange.imp (fun _ _ hw' => hw') fun _ _ hw' => hw'.of_iff (by simp)
  | set | line | composite | sweep | loft => exact hw

end Tracks

/-! ## All operations -/

/-- What a layer knows after an operation, whether it succeeds or fails. -/
theorem endsIn_run_tracks (op : Operation) (hw : Tracks h behind w) :
    op.run.EndsIn w (fun _ => Tracks h (behind ∧ ¬op.Changes h))
      fun _ => Tracks h (behind ∨ op.LeavesBehind h w) := by
  have hkeeps {edit : Edit World Unit} (hedit : KeepsTrack h behind edit) :
      edit.EndsIn w (fun _ => Tracks h (behind ∧ ¬False)) fun _ => Tracks h (behind ∨ False) := by
    simpa using hedit w hw
  have hset {k : Handle} {change : VoxelSet.Change} (hnot : ¬change.LeavesBehind) :
      (onSet k change.run).EndsIn w (fun _ => Tracks h (behind ∧ k ≠ h))
        fun _ => Tracks h (behind ∨ False) := by
    simpa [hnot] using hw.onSet k change
  have hlayer {k : Handle} {edit : Edit (Issuer × Layer) Unit}
      (hedit : ∀ l, l.base.Knows behind → edit.EndsIn (w.issuer, l)
        (fun _ p => p.2.base.IsSound) fun _ p => p.2.base.Knows behind) :
      (onLayer k edit).EndsIn w (fun _ => Tracks h (behind ∧ k ≠ h))
        fun _ => Tracks h (behind ∨ False) := by
    simpa using hw.onLayer k hedit
  cases op with
  | createSet | createLine | createLayer | createComposite | createSweep | createLoft =>
    exact hkeeps (.create trivial)
  | setOrigin k origin => exact hset (VoxelSet.Change.not_leavesBehind_setOrigin origin)
  | setFill k fill => exact hset (VoxelSet.Change.not_leavesBehind_setFill fill)
  | addFill k more => exact hw.onSet k (.addFill more)
  | recompute k => exact hset VoxelSet.Change.not_leavesBehind_recompute
  | generateLine k => exact hkeeps (.onLine k _)
  | changeEndpoints k => exact hkeeps (.onLine k _)
  | changeVertices k rows =>
    exact hlayer fun l hl => Edit.endsIn_onSecond.2 (Layer.endsIn_changeVertices_knows rows hl)
  | generateEdges k =>
    exact hlayer fun l hl => Edit.endsIn_onSecond.2 (Layer.endsIn_generateEdges_knows hl)
  | fillPolygon k => exact hlayer fun l hl => Layer.endsIn_fillPolygon_knows w.issuer hl
  | changeNames k names => exact hkeeps (.changeNames k names)
  | setEquation k | setTree k | resetCache k | interpret k => exact hkeeps (.onComposite k _)
  | changeVector k vector => exact hkeeps (.changeVector k vector)
  | changeSwept k swept => exact hkeeps (.changeSwept k swept)
  | extrude k shell => exact hkeeps (.extrude k shell)
  | generateSections k | resetSections k => exact hkeeps (.onLoft k _)
  | delete k => exact hkeeps (.delete k)

/-- In every world that calls lead to, a layer knows all of its voxels unless it is behind. -/
theorem Led.tracks {source : IdSource} (hw : w.Led source h behind) : Tracks h behind w := by
  induction hw with
  | empty => exact ⟨fun _ => not_false, fun o ho => by simp [World.empty] at ho⟩
  | ok _ hrun ih => exact (endsIn_run_tracks _ ih).of_ok hrun
  | error _ hrun ih => exact (endsIn_run_tracks _ ih).of_error hrun

end World
end VoxelAlgebra
