import VoxelAlgebra.Proofs.Solid.Representation

/-!
# What a failed change leaves behind

A change writes the origin or the voxels first and works out the derived state then. Where the
second step fails, the first one stays; an addition also keeps the rows in front of one that cannot
be read. The set goes on finding the voxels that it had before, until a change succeeds.

## Main definitions

* `VoxelSet.readable` — the voxels of the rows in front of the first one that cannot be read.
* `Change.taken`, `Change.IsTakenUp` — what a change writes before it works anything out.
* `Change.endsIn_run` — how every change of a live set ends.
* `Change.attemptAll`, `Change.exists_last_success` — changes made one after the other, whether they
  succeed or fail, and what they leave.
-/

namespace VoxelAlgebra.VoxelSet

variable {s t u : VoxelSet}

/-! ## Rows -/

/-- The voxels of the rows in front of the first one that cannot be read. -/
def readable : List (List Number) → List Voxel
  | [] => []
  | row :: rest =>
    match Voxel.ofNumbers row with
    | .ok v => v :: readable rest
    | .error _ => []

theorem endsIn_appendRows (rows : List (List Number)) (s : VoxelSet) :
    (appendRows rows).EndsIn s
      (fun _ t => rows.mapM Voxel.ofNumbers = .ok (readable rows) ∧
        t = { s with fill := s.fill ++ readable rows })
      fun e t => rows.mapM Voxel.ofNumbers = .error e ∧
        t = { s with fill := s.fill ++ readable rows } := by
  induction rows generalizing s with
  | nil => exact ⟨rfl, by simp [readable]⟩
  | cons row rest ih =>
    rw [appendRows, Edit.endsIn_bind, Edit.endsIn_ofExcept]
    refine ⟨fun v hv => ?_, fun e he => ?_⟩
    · rw [Edit.endsIn_bind, Edit.endsIn_modify]
      refine (ih _).imp ?_ ?_
      · rintro _ t ⟨hrest, rfl⟩
        refine ⟨?_, by simp [readable, hv]⟩
        rw [List.mapM_cons, hv, except_ok_bind, hrest, except_ok_bind, readable, hv]
        rfl
      · rintro e t ⟨hrest, rfl⟩
        refine ⟨?_, by simp [readable, hv]⟩
        rw [List.mapM_cons, hv, except_ok_bind, hrest]
        rfl
    · refine ⟨?_, by simp [readable, he]⟩
      rw [List.mapM_cons, he]
      rfl

/-! ## Changes -/

namespace Change

def IsReadable : Change → Prop
  | setOrigin origin => ∃ o, Voxel.ofNumbers origin = .ok o
  | setFill rows | addFill rows => ∃ voxels, rows.mapM Voxel.ofNumbers = .ok voxels
  | recompute => True

/-- The set with what the change writes, and the derived state that it had before. -/
def taken : Change → VoxelSet → VoxelSet
  | setOrigin origin, s =>
    match Voxel.ofNumbers origin with
    | .ok origin => { s with origin }
    | .error _ => s
  | setFill rows, s =>
    match rows.mapM Voxel.ofNumbers with
    | .ok fill => { s with fill }
    | .error _ => s
  | addFill rows, s => { s with fill := s.fill ++ readable rows }
  | recompute, s => s

/-- The change writes something before it can fail: an origin or voxels that can be read in whole,
or the first of the rows that are added. -/
def IsTakenUp : Change → Prop
  | setOrigin origin => ∃ o, Voxel.ofNumbers origin = .ok o
  | setFill rows => ∃ voxels, rows.mapM Voxel.ofNumbers = .ok voxels
  | addFill rows => readable rows ≠ []
  | recompute => False

@[simp] theorem derived_taken (change : Change) (s : VoxelSet) :
    (change.taken s).derived = s.derived := by
  cases change <;> simp only [taken] <;> split <;> rfl

@[simp] theorem isDeleted_taken (change : Change) (s : VoxelSet) :
    (change.taken s).isDeleted = s.isDeleted := by
  cases change <;> simp only [taken] <;> split <;> rfl

/-- A change that takes nothing up leaves the set as it is. -/
theorem taken_eq_self {change : Change} (h : ¬change.IsTakenUp) (s : VoxelSet) :
    change.taken s = s := by
  cases change with
  | setOrigin origin =>
    rw [taken]
    split
    · exact absurd ⟨_, ‹_›⟩ h
    · rfl
  | setFill rows =>
    rw [taken]
    split
    · exact absurd ⟨_, ‹_›⟩ h
    · rfl
  | addFill rows => simp [taken, not_not.1 h]
  | recompute => rfl

end Change

/-! ## Working out the derived state -/

theorem checkAlive_ne_error (hlive : s.isDeleted = false) (e : Fault) :
    s.checkAlive ≠ .error e := by
  simp [checkAlive_eq_error, hlive]

theorem endsIn_recompute (hlive : s.isDeleted = false) : recompute.EndsIn s
    (fun _ t => Derived.of s.absoluteFill = .ok t.derived ∧ t = { s with derived := t.derived })
    fun e t => Derived.of s.absoluteFill = .error e ∧ t = s := by
  simp only [recompute, Edit.endsIn_bind, Edit.endsIn_get, Edit.endsIn_ofExcept, Edit.endsIn_set]
  exact ⟨fun _ _ => ⟨fun d hd => ⟨hd, trivial⟩, fun e he => ⟨he, trivial⟩⟩,
    fun e he => absurd he (checkAlive_ne_error hlive e)⟩

/-- What is written before the derived state is worked out stays if that fails. -/
theorem endsIn_modify_recompute {f : VoxelSet → VoxelSet} (hlive : s.isDeleted = false)
    (hf : (f s).isDeleted = false) :
    Edit.EndsIn (do
        Edit.ofExcept (← get).checkAlive
        modify f
        recompute) s
      (fun _ t => Derived.of (f s).absoluteFill = .ok t.derived ∧
        t = { f s with derived := t.derived })
      fun e t => Derived.of (f s).absoluteFill = .error e ∧ t = f s := by
  simp only [Edit.endsIn_bind, Edit.endsIn_get, Edit.endsIn_ofExcept, Edit.endsIn_modify]
  exact ⟨fun _ _ => endsIn_recompute hf, fun e he => absurd he (checkAlive_ne_error hlive e)⟩

namespace Change

/-- A change of a live set succeeds if everything can be read and the derived state of what it wrote
can be worked out. However it fails, what it wrote stays beside the derived state from before. -/
theorem endsIn_run (change : Change) (hlive : s.isDeleted = false) : change.run.EndsIn s
    (fun _ t => change.IsReadable ∧ Derived.of (change.taken s).absoluteFill = .ok t.derived ∧
      t = { change.taken s with derived := t.derived })
    fun e t => (change.IsReadable → Derived.of (change.taken s).absoluteFill = .error e) ∧
      t = change.taken s := by
  have hchecked (e : Fault) {P : Prop} (he : s.checkAlive = .error e) : P :=
    absurd he (checkAlive_ne_error hlive e)
  cases change with
  | recompute =>
    refine (endsIn_recompute hlive).imp ?_ ?_
    · exact fun _ t h => ⟨trivial, h⟩
    · exact fun e t h => ⟨fun _ => h.1, h.2⟩
  | setOrigin origin =>
    simp only [run, setOriginFrom, Edit.endsIn_bind, Edit.endsIn_get, Edit.endsIn_ofExcept]
    refine ⟨fun _ _ => ⟨fun o ho => ?_, fun e he => ?_⟩, fun e he => hchecked e he⟩
    · simp only [taken, IsReadable, ho]
      refine (endsIn_modify_recompute hlive hlive).imp ?_ ?_
      · exact fun _ t h => ⟨⟨o, rfl⟩, h⟩
      · exact fun e t h => ⟨fun _ => h.1, h.2⟩
    · simp [taken, IsReadable, he]
  | setFill rows =>
    simp only [run, setFillFrom, Edit.endsIn_bind, Edit.endsIn_get, Edit.endsIn_ofExcept]
    refine ⟨fun _ _ => ⟨fun fill hfill => ?_, fun e he => ?_⟩, fun e he => hchecked e he⟩
    · simp only [taken, IsReadable, hfill]
      refine (endsIn_modify_recompute hlive hlive).imp ?_ ?_
      · exact fun _ t h => ⟨⟨fill, rfl⟩, h⟩
      · exact fun e t h => ⟨fun _ => h.1, h.2⟩
    · simp [taken, IsReadable, he]
  | addFill rows =>
    simp only [run, addFillFrom, Edit.endsIn_bind, Edit.endsIn_get, Edit.endsIn_ofExcept]
    refine ⟨fun _ _ => (endsIn_appendRows rows s).imp ?_ ?_, fun e he => hchecked e he⟩
    · rintro _ _ ⟨hrows, rfl⟩
      have hrecompute := endsIn_recompute (s := { s with fill := s.fill ++ readable rows }) hlive
      refine hrecompute.imp ?_ ?_
      · exact fun _ t h => ⟨⟨_, hrows⟩, h⟩
      · exact fun e t h => ⟨fun _ => h.1, h.2⟩
    · rintro e t ⟨hrows, rfl⟩
      refine ⟨fun hread => ?_, rfl⟩
      obtain ⟨voxels, hvoxels⟩ := hread
      rw [hrows] at hvoxels
      cases hvoxels

/-- A change of a sound set that writes something and fails does not leave the set as it was: what
it wrote cannot be worked out, or there are more voxels than before. -/
theorem taken_ne_self {change : Change} (hs : s.IsSound) (h : change.IsTakenUp) {e : Fault}
    (herror : change.IsReadable → Derived.of (change.taken s).absoluteFill = .error e) :
    change.taken s ≠ s := by
  intro hsame
  cases change with
  | setOrigin origin =>
    have hderived := herror h
    rw [hsame, hs.derived] at hderived
    cases hderived
  | setFill rows =>
    have hderived := herror h
    rw [hsame, hs.derived] at hderived
    cases hderived
  | addFill rows =>
    have hfill := congrArg VoxelSet.fill hsame
    exact h (by simpa [taken] using hfill)
  | recompute => exact h

end Change

/-! ## Runs with failures -/

namespace Change

def attemptAll (changes : List Change) (s : VoxelSet) : VoxelSet :=
  changes.foldl (fun s change => (change.run.outcome s).2) s

theorem attemptAll_concat (changes : List Change) (change : Change) (s : VoxelSet) :
    attemptAll (changes ++ [change]) s = (change.run.outcome (attemptAll changes s)).2 :=
  List.foldl_append

/-- After any changes the derived state is that of the voxels after the last change that succeeded,
while everything that the later ones had written is there. -/
theorem exists_last_success (changes : List Change) (hs : s.IsSound) :
    ∃ done failed, changes = done ++ failed ∧ (attemptAll done s).IsSound ∧
      attemptAll changes s = failed.foldl (fun t change => change.taken t) (attemptAll done s) ∧
      (attemptAll changes s).derived = (attemptAll done s).derived ∧
      (attemptAll changes s).isDeleted = false := by
  induction changes using List.reverseRecOn with
  | nil => exact ⟨[], [], rfl, hs, rfl, rfl, hs.isLive⟩
  | append_singleton changes change ih =>
    obtain ⟨done, failed, hparts, hdone, hstate, hderived, hlive⟩ := ih
    have hlast := attemptAll_concat changes change s
    cases hrun : change.run (attemptAll changes s) with
    | ok u t =>
      have hsound := (isChange_of_run hrun).isSound
      rw [Edit.outcome, hrun] at hlast
      refine ⟨changes ++ [change], [], by simp, ?_, rfl, rfl, ?_⟩ <;> rw [hlast]
      · exact hsound
      · exact hsound.isLive
    | error e t =>
      -- The last success stays the same, and what the change wrote is added to what is left.
      obtain ⟨-, rfl⟩ := (change.endsIn_run hlive).of_error hrun
      rw [Edit.outcome, hrun] at hlast
      refine ⟨done, failed ++ [change], by simp [hparts], hdone, ?_, ?_, ?_⟩ <;> rw [hlast]
      · rw [List.foldl_append, ← hstate]
        rfl
      · rw [derived_taken, hderived]
      · rw [isDeleted_taken, hlive]

end Change

/-! ## Failures -/

/-- A change of a live set that fails leaves what it had written before, and nothing of the derived
state is changed. So a set whose derived state was that of its voxels stays as it was only if
nothing was written, and in every case it finds exactly the voxels from before. -/
theorem leaves_of_failure {change : Change} (hlive : s.isDeleted = false) {e : Fault}
    (hrun : change.run s = .error e t) :
    t = change.taken s ∧ t.derived = s.derived ∧
      (s.IsSound → (t = s ↔ ¬change.IsTakenUp) ∧ ∀ v, t.contains v ↔ v ∈ s.absoluteFill) := by
  obtain ⟨herror, rfl⟩ := (change.endsIn_run hlive).of_error hrun
  refine ⟨rfl, change.derived_taken s, fun hs => ⟨⟨fun hsame htaken => ?_, fun h => ?_⟩, ?_⟩⟩
  · exact Change.taken_ne_self hs htaken herror hsame
  · exact Change.taken_eq_self h s
  · intro v
    have hcontains : (change.taken s).contains v = s.contains v := by
      simp only [contains, find, change.derived_taken]
    rw [hcontains, contains_iff hs]

/-- A row that is too short behind one that can be read: the voxel of the first row is added, but it
is not found. -/
theorem leaves_of_failure_row : ∃ (i' : Issuer) (s t : VoxelSet) (e : Fault),
    createFrom [0, 0, 0] [[0, 0, 0]] { source := .hexadecimal } = .ok s i' ∧ s.IsSound ∧
    (Change.addFill [[1, 0, 0], [2]]).run s = .error e t ∧
    t.absolute = .ok [⟨0, 0, 0⟩, ⟨1, 0, 0⟩] ∧ t.contains ⟨1, 0, 0⟩ = false ∧
    s.isDeleted = false ∧
    t = (Change.addFill [[1, 0, 0], [2]]).taken s ∧ t.derived = s.derived ∧
    (s.IsSound → (t = s ↔ ¬(Change.addFill [[1, 0, 0], [2]]).IsTakenUp) ∧
      ∀ v, t.contains v ↔ v ∈ s.absoluteFill) := by
  obtain ⟨i', s, t, e, hcreate, hrun, habsolute, hcontains⟩ :
      ∃ (i' : Issuer) (s t : VoxelSet) (e : Fault),
        createFrom [0, 0, 0] [[0, 0, 0]] { source := .hexadecimal } = .ok s i' ∧
        (Change.addFill [[1, 0, 0], [2]]).run s = .error e t ∧
        t.absolute = .ok [⟨0, 0, 0⟩, ⟨1, 0, 0⟩] ∧ t.contains ⟨1, 0, 0⟩ = false := by
    exact ⟨_, _, _, _, by cbv, by cbv, by rfl, by rfl⟩
  have hs := isSound_of_createFrom hcreate
  exact ⟨i', s, t, e, hcreate, hs, hrun, habsolute, hcontains, hs.isLive,
    leaves_of_failure hs.isLive hrun⟩

end VoxelAlgebra.VoxelSet
