import VoxelAlgebra.Proofs.Solid.FailedChange
import VoxelAlgebra.Proofs.Solid.Runs.Basic
import VoxelAlgebra.Solid.Layer

/-!
# Voxels that are left behind

A change that fails may leave new voxels beside an old derived state. Where the voxels are in range,
this comes from one thing only: an addition that is refused behind rows that it has already added.
These rows stay behind until a change succeeds, and up to then the derived state is that of the
voxels in front of them. Everything else that fails, in layers too, either writes nothing or leaves
voxels out of range.

## Main definitions

* `VoxelSet.Knows` — the first voxels of a set, from which its derived state was worked out.
* `VoxelSet.Change.LeavesBehind` — a change that adds rows and is refused then.
* `VoxelSet.Change.endsIn_run_knows` — what a set knows after a change.
* `Layer.endsIn_changeVertices_knows` and its siblings — what a layer knows.
-/

namespace VoxelAlgebra

variable {behind : Prop}

namespace VoxelSet

variable {s : VoxelSet}

/-- The derived state of a live set in range is that of the first of its voxels. These are all of
them if and only if none were left behind. -/
def Knows (s : VoxelSet) (behind : Prop) : Prop :=
  s.isDeleted = false → s.IsInRange → ∃ known, known <+: s.absoluteFill ∧
    Derived.of known = .ok s.derived ∧ (known = s.absoluteFill ↔ ¬behind)

theorem IsSound.knows (hs : s.IsSound) : s.Knows False :=
  fun _ _ => ⟨s.absoluteFill, List.prefix_rfl, hs.derived, iff_of_true rfl not_false⟩

theorem knows_of_isDeleted (h : s.isDeleted = true) : s.Knows behind := fun hlive => by
  rw [h] at hlive
  cases hlive

/-- Where nothing can be derived, there are voxels out of range. -/
theorem knows_of_error {e : Fault} (h : Derived.of s.absoluteFill = .error e) :
    s.Knows behind := fun _ hrange => by
  obtain ⟨d, hd⟩ := Derived.exists_of s.absoluteFill hrange
  rw [h] at hd
  cases hd

/-- Voxels that are written beside the old derived state are left behind. -/
theorem Knows.append (hs : s.Knows behind) {more : List Voxel} (hne : more ≠ []) :
    Knows { s with fill := s.fill ++ more } True := by
  intro hlive hrange
  have habsolute : absoluteFill { s with fill := s.fill ++ more } =
      s.absoluteFill ++ more.map (· + s.origin) := List.map_append
  rw [IsInRange, habsolute] at hrange
  obtain ⟨known, hfirst, hknown, -⟩ :=
    hs hlive fun v hv => hrange v (List.mem_append_left _ hv)
  have hlength := hfirst.length_le
  refine ⟨known, ?_, hknown, iff_of_false (fun hall => ?_) (not_not_intro trivial)⟩
  · rw [habsolute]
    exact hfirst.trans (List.prefix_append _ _)
  · have hmore : 0 < more.length := List.length_pos_iff.2 hne
    rw [hall, habsolute, List.length_append, List.length_map] at hlength
    omega

namespace Change

/-- The change adds rows and is refused at one behind them. -/
def LeavesBehind (change : Change) : Prop := change.IsTakenUp ∧ ¬change.IsReadable

@[simp] theorem not_leavesBehind_setOrigin (origin : List Number) :
    ¬(setOrigin origin).LeavesBehind := fun h => h.2 h.1

@[simp] theorem not_leavesBehind_setFill (rows : List (List Number)) :
    ¬(setFill rows).LeavesBehind := fun h => h.2 h.1

@[simp] theorem not_leavesBehind_recompute : ¬recompute.LeavesBehind := fun h => h.1

/-- A change that succeeds leaves nothing behind, and one that fails leaves behind no more than what
it adds. -/
theorem endsIn_run_knows (change : Change) (hs : s.Knows behind) : change.run.EndsIn s
    (fun _ t => t.IsSound) fun _ t => t.Knows (behind ∨ change.LeavesBehind) := by
  refine Edit.endsIn_iff.2 ⟨fun u t hrun => (isChange_of_run hrun).isSound, fun e t hrun => ?_⟩
  cases hlive : s.isDeleted with
  | true =>
    have hsame := ((change.isSafe_run s).of_error hrun).1
    exact knows_of_isDeleted (hsame.isDeleted.trans hlive)
  | false =>
    obtain ⟨herror, rfl⟩ := (change.endsIn_run hlive).of_error hrun
    by_cases hread : change.IsReadable
    · exact knows_of_error (herror hread)
    by_cases htaken : change.IsTakenUp
    · have hbehind : behind ∨ change.LeavesBehind := .inr ⟨htaken, hread⟩
      rw [eq_true hbehind]
      cases change with
      | addFill rows => exact hs.append htaken
      | setOrigin | setFill => exact absurd htaken hread
      | recompute => exact htaken.elim
    · have hnot : ¬change.LeavesBehind := fun h => htaken h.1
      rw [or_iff_left hnot, taken_eq_self htaken]
      exact hs

end Change

/-- Other voxels take the place of those that were left behind, unless they are out of range. -/
theorem endsIn_setFill_knows (fill : List Voxel) (hlive : s.isDeleted = false) :
    (setFill fill).EndsIn s (fun _ t => t.IsSound) fun _ t => t.Knows behind := by
  refine Edit.endsIn_iff.2 ⟨fun u t => isSound_of_setFill, fun e t hrun => ?_⟩
  obtain ⟨herror, rfl⟩ := (endsIn_modify_recompute (s := s) (f := fun s => { s with fill })
    hlive hlive).of_error hrun
  exact knows_of_error herror

end VoxelSet

/-! ## Layers -/

namespace Layer

variable {l : Layer}

theorem isSound_of_createFrom {origin : List Number} {rows : List (List Number)} {i i' : Issuer}
    (h : createFrom origin rows i = .ok l i') : l.base.IsSound := by
  simp only [createFrom, Edit.bind_eq_ok, Edit.ofExcept_eq_ok, Edit.pure_eq_ok,
    except_bind_eq_ok] at h
  obtain ⟨_, _, -, _, _, -, _, _, ⟨⟨_, -, hbase⟩, rfl⟩, rfl, -⟩ := h
  exact (VoxelSet.isSound_of_ofParts hbase).2

theorem isDeleted_of_release {l' : Layer} {i i' : Issuer} (h : l.release i = .ok l' i') :
    l'.base.isDeleted = true := by
  simp only [release, VoxelSet.release, Edit.bind_eq_ok, Edit.pure_eq_ok] at h
  obtain ⟨_, _, ⟨_, _, -, _, _, -, rfl, rfl⟩, rfl, -⟩ := h
  rfl

theorem endsIn_changeVertices_knows (rows : List (List Number)) (hl : l.base.Knows behind) :
    (changeVertices rows).EndsIn l (fun _ l' => l'.base.IsSound)
      fun _ l' => l'.base.Knows behind := by
  simp only [changeVertices, onBase, Edit.endsIn_bind, Edit.endsIn_get, Edit.endsIn_ofExcept,
    Edit.endsIn_modify, Edit.endsIn_onPart, VoxelSet.checkAlive_eq_ok]
  exact ⟨fun _ hlive => ⟨fun vertices _ => VoxelSet.endsIn_setFill_knows vertices hlive,
    fun _ _ => hl⟩, fun _ _ => hl⟩

theorem endsIn_generateEdges_knows (hl : l.base.Knows behind) :
    generateEdges.EndsIn l (fun _ l' => l'.base.IsSound) fun _ l' => l'.base.Knows behind := by
  simp only [generateEdges, onBase, Edit.endsIn_bind, Edit.endsIn_get, Edit.endsIn_ofExcept,
    Edit.endsIn_set, Edit.endsIn_onPart, VoxelSet.checkAlive_eq_ok]
  exact ⟨fun _ hlive => VoxelSet.endsIn_setFill_knows _ hlive, fun _ _ => hl⟩

theorem endsIn_fillPolygon_knows (i : Issuer) (hl : l.base.Knows behind) :
    fillPolygon.EndsIn (i, l) (fun _ p => p.2.base.IsSound) fun _ p => p.2.base.Knows behind := by
  simp only [fillPolygon, onBase, Edit.endsIn_bind, Edit.endsIn_get, Edit.endsIn_ofExcept,
    Edit.endsIn_onFirst, Edit.endsIn_onSecond, Edit.endsIn_onPart, VoxelSet.checkAlive_eq_ok]
  refine ⟨fun _ hlive => ?_, fun _ _ => hl⟩
  exact Edit.endsIn_of_forall (fun fill _ => VoxelSet.endsIn_setFill_knows _ hlive) fun _ _ => hl

end Layer

end VoxelAlgebra
