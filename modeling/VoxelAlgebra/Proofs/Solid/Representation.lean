import Mathlib
import VoxelAlgebra.Proofs.Edit.Outcome
import VoxelAlgebra.Proofs.Solid.Runs.Basic

/-!
# The derived state over runs

Box, order of the axes, slices and boxes of the slices describe the same voxels. A set has them from
its beginning, and however its origin and voxels are changed, every successful change works all of
them out again.

## Main definitions

* `AxisOrder.Precedes` — the order of axes by decreasing size.
* `VoxelSet.Represents` — what the derived state of voxels is.
* `VoxelSet.IsSafe` — how changes end, whether they succeed or fail.
* `VoxelSet.Change` — changes of origin and voxels as a caller gives them.
* `VoxelSet.represents_of_runAll` — the derived state after any run of changes.
-/

namespace VoxelAlgebra

/-! ## Axes and slices -/

namespace AxisOrder

/-- Axes of a larger size come first, and axes of one size in x, y, z order. -/
def Precedes (size : Axis → Int) (a b : Axis) : Prop :=
  size b < size a ∨ (size a = size b ∧ a.index < b.index)

theorem toList_byDecreasing_perm (size : Axis → Int) :
    (byDecreasing size).toList.Perm Axis.all := by
  unfold byDecreasing
  split_ifs <;> decide

theorem pairwise_byDecreasing (size : Axis → Int) :
    (byDecreasing size).toList.Pairwise (Precedes size) := by
  unfold byDecreasing
  split_ifs <;>
    · simp only [toList, Precedes, Axis.index, List.pairwise_cons, List.mem_cons,
        List.not_mem_nil, or_false, forall_eq_or_imp, forall_eq]
      grind

end AxisOrder

theorem pairwise_coordinatesBetween (low high : Int) :
    (coordinatesBetween low high).Pairwise (· < ·) := by
  rw [coordinatesBetween, List.pairwise_map]
  exact List.pairwise_lt_range.imp fun h => by omega

theorem keys_directoryOf (o : AxisOrder) (low high : Int) (voxels : List Voxel) :
    (directoryOf o low high voxels).map Prod.fst = coordinatesBetween low high := by
  simp [directoryOf, Function.comp_def]

theorem Number.ne_noEntry_of_toCoordinate {q : Number} {e : Fault}
    (h : q.toCoordinate = .error e) : e ≠ .noEntry := by
  unfold toCoordinate at h
  split at h <;> cases h <;> nofun

/-- A row of numbers is read without looking up a slice. -/
theorem Voxel.ne_noEntry_of_ofNumbers {row : List Number} {e : Fault}
    (h : Voxel.ofNumbers row = .error e) : e ≠ .noEntry := by
  simp only [ofNumbers, except_bind_eq_error] at h
  obtain h | ⟨_, -, h | ⟨_, -, h | ⟨_, -, h⟩⟩⟩ := h
  -- a number that is there is one that cannot be taken over; otherwise it is missing
  iterate 3
    · split at h
      · exact Number.ne_noEntry_of_toCoordinate h
      · cases h
        rintro ⟨⟩
  · cases h

/-- Only a voxel out of range keeps the derived state from being worked out. -/
theorem Derived.of_eq_error {voxels : List Voxel} {e : Fault} (h : Derived.of voxels = .error e) :
    e = .outOfRange := by
  by_cases hrange : ∀ v ∈ voxels, v.InRange
  · obtain ⟨d, hd⟩ := Derived.exists_of voxels hrange
    rw [hd] at h
    cases h
  · cases voxels with
    | nil => exact absurd (fun v hv => absurd hv List.not_mem_nil) hrange
    | cons v rest =>
      have hall : ¬((v :: rest).all (fun w => decide w.InRange) = true) := by
        simpa using hrange
      have hbox : Box.ofVoxels (v :: rest) = .error .outOfRange := by
        rw [Box.ofVoxels, Extents.ofVoxels, if_neg hall]
        rfl
      rw [Derived.of, hbox] at h
      · cases h
        rfl
      · exact List.cons_ne_nil v rest

/-- Slices and boxes of the slices are what slicing the voxels gives. -/
theorem Derived.slices_of_eq_ok {voxels : List Voxel} {d : Derived}
    (h : Derived.of voxels = .ok d) (hne : voxels ≠ []) {e : Extents} (he : e.IsLeast voxels) :
    slices e.axisOrder (e.low.coord e.axisOrder.first) (e.high.coord e.axisOrder.first)
      Box.ofVoxels voxels = .ok (d.directory, d.region) := by
  rw [Derived.of, except_bind_eq_ok] at h
  · obtain ⟨box, hbox, h⟩ := h
    obtain ⟨e', rfl, he', -⟩ := Box.ofVoxels_eq_ok hbox
    obtain ⟨⟨directory, region⟩, hslices, h⟩ := except_bind_eq_ok.1 h
    cases h
    obtain rfl := he.unique he'
    exact hslices
  · exact hne

namespace VoxelSet

/-! ## The derived state -/

/-- The derived state of a set with voxels. `e` are the least extents of the absolute voxels. -/
structure Represents (s : VoxelSet) (e : Extents) : Prop where
  isLeast : e.IsLeast s.absoluteFill
  box : s.derived.box = some (Box.ofExtents e)
  axes : s.derived.axes.toList.Perm Axis.all
  axes_sorted : s.derived.axes.toList.Pairwise (AxisOrder.Precedes e.range)
  keys : ∀ k, k ∈ s.derived.directory.map Prod.fst ↔
    e.low.coord s.derived.axes.first ≤ k ∧ k ≤ e.high.coord s.derived.axes.first
  keys_sorted : (s.derived.directory.map Prod.fst).Pairwise (· < ·)
  slice : ∀ entry ∈ s.derived.directory,
    entry.2.Perm (s.absoluteFill.filter fun v => v.coord s.derived.axes.first = entry.1)
  slice_sorted : ∀ entry ∈ s.derived.directory, entry.2.Pairwise fun v w =>
    v.coord s.derived.axes.second < w.coord s.derived.axes.second ∨
      (v.coord s.derived.axes.second = w.coord s.derived.axes.second ∧
        v.coord s.derived.axes.third ≤ w.coord s.derived.axes.third)
  region : AreBoxesOf s.derived.directory s.derived.region
  /-- Every voxel has its slice, so slicing finds all slices that it looks up. -/
  sliced : slices s.derived.axes (e.low.coord s.derived.axes.first)
    (e.high.coord s.derived.axes.first) Box.ofVoxels s.absoluteFill =
      .ok (s.derived.directory, s.derived.region)

variable {s t : VoxelSet}

theorem IsSound.represents (hs : s.IsSound) (hne : s.absoluteFill ≠ []) :
    ∃ e, s.Represents e := by
  obtain ⟨-, ⟨hnil, -⟩ | ⟨e, hd⟩⟩ := Derived.of_eq_ok hs.derived
  · exact absurd hnil hne
  have hentry : ∀ entry ∈ s.derived.directory,
      entry.2 = sortedSlice e.axisOrder (bucket e.axisOrder entry.1 s.absoluteFill) := by
    rw [hd.directory]
    intro entry hentry
    obtain ⟨k, -, rfl⟩ := List.mem_map.1 hentry
    rfl
  have haxes : s.derived.axes = AxisOrder.byDecreasing e.range := hd.axes
  refine ⟨e, {
    isLeast := hd.isLeast
    box := hd.box
    axes := haxes ▸ AxisOrder.toList_byDecreasing_perm e.range
    axes_sorted := haxes ▸ AxisOrder.pairwise_byDecreasing e.range
    keys := fun k => ?_
    keys_sorted := ?_
    slice := fun entry h => ?_
    slice_sorted := fun entry h => ?_
    region := hd.region
    sliced := haxes ▸ Derived.slices_of_eq_ok hs.derived hne hd.isLeast }⟩
  · rw [hd.directory, keys_directoryOf, mem_coordinatesBetween, hd.axes]
  · rw [hd.directory, keys_directoryOf]
    exact pairwise_coordinatesBetween _ _
  · rw [hentry entry h, hd.axes]
    exact sortedSlice_perm _ _
  · rw [hentry entry h, hd.axes]
    exact (pairwise_sortedSlice _ _).imp pairLe_iff.1

theorem IsSound.derived_empty (hs : s.IsSound) (hnil : s.fill = []) : s.derived = .empty := by
  have h := hs.derived
  rw [absoluteFill, hnil, List.map_nil] at h
  exact (Except.ok.inj h).symm

/-! ## Changes that can fail -/

/-- The same set at another time, as live as before. -/
structure IsSame (s t : VoxelSet) : Prop where
  id : t.id = s.id
  isDeleted : t.isDeleted = s.isDeleted

theorem IsSame.refl (s : VoxelSet) : IsSame s s := ⟨rfl, rfl⟩

theorem IsSame.trans {u : VoxelSet} (h : IsSame s t) (h' : IsSame t u) : IsSame s u :=
  ⟨h'.id.trans h.id, h'.isDeleted.trans h.isDeleted⟩

/-- An edit that keeps the set the same one, and never looks up a slice that does not exist. -/
def IsSafe (s t : VoxelSet) (edit : Edit VoxelSet Unit) : Prop :=
  edit.EndsIn t (fun _ => IsSame s) fun e t' => IsSame s t' ∧ e ≠ .noEntry

theorem ne_noEntry_of_checkAlive {e : Fault} (h : s.checkAlive = .error e) : e ≠ .noEntry := by
  unfold checkAlive at h
  split_ifs at h
  · cases h
    nofun
  · cases h

theorem isSafe_recompute (h : IsSame s t) : IsSafe s t recompute := by
  simp only [IsSafe, recompute, Edit.endsIn_bind, Edit.endsIn_get, Edit.endsIn_ofExcept,
    Edit.endsIn_set]
  refine ⟨fun _ _ => ⟨fun _ _ => ⟨h.id, h.isDeleted⟩, fun e he => ⟨h, ?_⟩⟩,
    fun _ he => ⟨h, ne_noEntry_of_checkAlive he⟩⟩
  rw [Derived.of_eq_error he]
  rintro ⟨⟩

/-- Changing origin or voxels, with the derived state worked out anew. -/
theorem isSafe_modify {f : VoxelSet → VoxelSet} (hf : ∀ t, IsSame t (f t)) (h : IsSame s t) :
    IsSafe s t (do
      Edit.ofExcept (← get).checkAlive
      modify f
      recompute) := by
  simp only [IsSafe, Edit.endsIn_bind, Edit.endsIn_get, Edit.endsIn_ofExcept, Edit.endsIn_modify]
  refine ⟨fun _ _ => isSafe_recompute ?_, fun _ he => ⟨h, ne_noEntry_of_checkAlive he⟩⟩
  exact ⟨(hf t).id.trans h.id, (hf t).isDeleted.trans h.isDeleted⟩

theorem isSafe_appendRows (rows : List (List Number)) (h : IsSame s t) :
    IsSafe s t (appendRows rows) := by
  induction rows generalizing t with
  | nil => exact h
  | cons row rows ih =>
    simp only [IsSafe, appendRows, Edit.endsIn_bind, Edit.endsIn_ofExcept, Edit.endsIn_modify]
    exact ⟨fun _ _ => ih ⟨h.id, h.isDeleted⟩, fun _ he => ⟨h, Voxel.ne_noEntry_of_ofNumbers he⟩⟩

/-! ## Runs of changes -/

theorem isSound_of_createFrom {origin : List Number} {fill : List (List Number)} {i i' : Issuer}
    (h : createFrom origin fill i = .ok s i') : s.IsSound := by
  simp only [createFrom, Edit.bind_eq_ok, Edit.ofExcept_eq_ok, except_bind_eq_ok] at h
  obtain ⟨id, _, -, ⟨_, -, _, -, hs⟩, -⟩ := h
  exact (isSound_of_ofParts hs).2

/-- A change of the origin or the voxels of a set, as a caller gives it. -/
inductive Change where
  | setOrigin (origin : List Number)
  | setFill (fill : List (List Number))
  | addFill (more : List (List Number))
  | recompute

namespace Change

def run : Change → Edit VoxelSet Unit
  | setOrigin origin => setOriginFrom origin
  | setFill fill => setFillFrom fill
  | addFill more => addFillFrom more
  | recompute => VoxelSet.recompute

def runAll : List Change → Edit VoxelSet Unit
  | [] => pure ()
  | change :: rest => do
    change.run
    runAll rest

theorem isChange_of_run {change : Change} (h : change.run s = .ok () t) : IsChange s t := by
  cases change with
  | setOrigin => exact isChange_of_setOriginFrom h
  | setFill => exact isChange_of_setFillFrom h
  | addFill => exact isChange_of_addFillFrom h
  | recompute => exact isChange_of_recompute h

/-- A run of changes leaves a sound set sound. -/
theorem isSound_of_runAll {changes : List Change} (hs : s.IsSound)
    (h : runAll changes s = .ok () t) : t.IsSound := by
  induction changes generalizing s with
  | nil =>
    obtain ⟨-, rfl⟩ := Edit.pure_eq_ok.1 h
    exact hs
  | cons change rest ih =>
    obtain ⟨_, s₁, hchange, hrest⟩ := Edit.bind_eq_ok.1 h
    exact ih (isChange_of_run hchange).isSound hrest

theorem isSafe_run (change : Change) (s : VoxelSet) : IsSafe s s change.run := by
  have hlive : ∀ e, s.checkAlive = .error e → IsSame s s ∧ e ≠ .noEntry :=
    fun _ he => ⟨.refl s, ne_noEntry_of_checkAlive he⟩
  cases change with
  | recompute => exact isSafe_recompute (.refl s)
  | setOrigin origin =>
    simp only [IsSafe, run, setOriginFrom, Edit.endsIn_bind, Edit.endsIn_get, Edit.endsIn_ofExcept]
    exact ⟨fun _ _ => ⟨fun _ _ => isSafe_modify (fun _ => ⟨rfl, rfl⟩) (.refl s),
      fun _ he => ⟨.refl s, Voxel.ne_noEntry_of_ofNumbers he⟩⟩, hlive⟩
  | setFill fill =>
    simp only [IsSafe, run, setFillFrom, Edit.endsIn_bind, Edit.endsIn_get, Edit.endsIn_ofExcept]
    refine ⟨fun _ _ => ⟨fun _ _ => ?_, fun _ he => ?_⟩, hlive⟩
    · exact isSafe_modify (fun _ => ⟨rfl, rfl⟩) (.refl s)
    · obtain ⟨row, -, hrow⟩ := except_exists_of_mapM_eq_error he
      exact ⟨.refl s, Voxel.ne_noEntry_of_ofNumbers hrow⟩
  | addFill more =>
    simp only [IsSafe, run, addFillFrom, Edit.endsIn_bind, Edit.endsIn_get, Edit.endsIn_ofExcept]
    refine ⟨fun _ _ => (isSafe_appendRows more (.refl s)).imp ?_ fun _ _ h => h, hlive⟩
    exact fun _ _ h => isSafe_recompute h

end Change

/-- After any run of changes a set without voxels has no box, no slices and no region, and the
derived state of any other set is that of its absolute voxels. No further change looks up a slice
that does not exist. -/
theorem represents_of_runAll {origin : List Number} {fill : List (List Number)} {i i' : Issuer}
    (hcreate : createFrom origin fill i = .ok s i') {changes : List Change}
    (hrun : Change.runAll changes s = .ok () t) :
    (t.fill = [] → t.derived.box = none ∧ t.derived.directory = [] ∧ t.derived.region = []) ∧
    (t.fill ≠ [] → ∃ e, t.Represents e) ∧
    ∀ change : Change, change.run.EndsIn t (fun _ _ => True) fun e _ => e ≠ .noEntry := by
  have hs := Change.isSound_of_runAll (isSound_of_createFrom hcreate) hrun
  refine ⟨fun hnil => ?_, fun hne => ?_, fun change => ?_⟩
  · rw [hs.derived_empty hnil]
    exact ⟨rfl, rfl, rfl⟩
  · exact hs.represents (by simpa [absoluteFill] using hne)
  · exact (change.isSafe_run t).imp (fun _ _ _ => trivial) fun _ _ h => h.2

/-- A row with a voxel that occurs twice, extended beyond a gap and moved to another origin. -/
theorem represents_of_runAll_gap : ∃ (i' : Issuer) (s t : VoxelSet),
    createFrom [0, 0, 1] [[0, 0, 0], [1, 0, 0], [1, 0, 0]] { source := .hexadecimal } =
      .ok s i' ∧
    Change.runAll [.addFill [[3, .whole (-1), 0]], .setOrigin [0, .whole (-2), 5]] s =
      .ok () t ∧
    t.fill.length = 4 ∧ t.derived.directory.map (·.2.length) = [1, 2, 0, 1] ∧
    (t.fill = [] → t.derived.box = none ∧ t.derived.directory = [] ∧ t.derived.region = []) ∧
    (t.fill ≠ [] → ∃ e, t.Represents e) ∧
    ∀ change : Change, change.run.EndsIn t (fun _ _ => True) fun e _ => e ≠ .noEntry := by
  obtain ⟨i', s, t, hcreate, hrun, hfill, hslices⟩ : ∃ (i' : Issuer) (s t : VoxelSet),
      createFrom [0, 0, 1] [[0, 0, 0], [1, 0, 0], [1, 0, 0]] { source := .hexadecimal } =
        .ok s i' ∧
      Change.runAll [.addFill [[3, .whole (-1), 0]], .setOrigin [0, .whole (-2), 5]] s =
        .ok () t ∧
      t.fill.length = 4 ∧ t.derived.directory.map (·.2.length) = [1, 2, 0, 1] := by
    exact ⟨_, _, _, by cbv, by cbv, by rfl, by rfl⟩
  exact ⟨i', s, t, hcreate, hrun, hfill, hslices, represents_of_runAll hcreate hrun⟩

end VoxelSet
end VoxelAlgebra
