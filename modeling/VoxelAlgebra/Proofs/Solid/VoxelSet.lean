import VoxelAlgebra.Proofs.Box.Overlap
import VoxelAlgebra.Proofs.Box.Slices
import VoxelAlgebra.Proofs.Issuer
import VoxelAlgebra.Solid.VoxelSet

/-!
# Live voxel sets

Every successful operation leaves the derived state of a set as it is worked out from the absolute
voxels. So a live set finds exactly its own voxels, and the region of two sets holds the voxels that
they have in common.

## Main definitions

* `VoxelSet.IsSound` — a live set whose derived state is that of its voxels.
* `VoxelSet.IsInRange` — absolute voxels that a box can have.
* `VoxelSet.contains_iff`, `VoxelSet.partition_eq` — finding voxels, and splitting by another set.
* `VoxelSet.create_eq_ok`, `VoxelSet.setFill_eq_ok` — runs of operations.
-/

namespace VoxelAlgebra

/-! ## Derived state -/

/-- What is derived from voxels of which there is one at least. -/
structure Derived.Describes (d : Derived) (e : Extents) (voxels : List Voxel) : Prop where
  isLeast : e.IsLeast voxels
  box : d.box = some (Box.ofExtents e)
  axes : d.axes = e.axisOrder
  directory : d.directory = directoryOf e.axisOrder (e.low.coord e.axisOrder.first)
    (e.high.coord e.axisOrder.first) voxels
  region : AreBoxesOf d.directory d.region

theorem Derived.of_eq_ok {voxels : List Voxel} {d : Derived} (h : Derived.of voxels = .ok d) :
    (∀ v ∈ voxels, v.InRange) ∧ (voxels = [] ∧ d = .empty ∨ ∃ e, d.Describes e voxels) := by
  cases voxels with
  | nil =>
    cases h
    exact ⟨nofun, .inl ⟨rfl, rfl⟩⟩
  | cons v rest =>
    rw [Derived.of, except_bind_eq_ok] at h
    · obtain ⟨box, hbox, h⟩ := h
      obtain ⟨e, rfl, hleast, hrange⟩ := Box.ofVoxels_eq_ok hbox
      obtain ⟨⟨directory, region⟩, hslices, h⟩ := except_bind_eq_ok.1 h
      cases h
      obtain ⟨hdirectory, hregion⟩ := slices_eq_ok
        (fun v hv => hleast.holds v hv e.axisOrder.first) hslices
      exact ⟨hrange, .inr ⟨e, hleast, rfl, rfl, hdirectory, hregion⟩⟩
    · nofun

theorem Derived.describes_of_isLeast {voxels : List Voxel} {d : Derived} {e : Extents}
    (hd : Derived.of voxels = .ok d) (he : e.IsLeast voxels) : d.Describes e voxels := by
  obtain ⟨-, ⟨rfl, -⟩ | ⟨e', he'⟩⟩ := Derived.of_eq_ok hd
  · obtain ⟨v, hv, -⟩ := he.low .x
    cases hv
  · exact he'.isLeast.unique he ▸ he'

/-- The derived state of voxels in range can be worked out. -/
theorem Derived.exists_of (voxels : List Voxel) (hrange : ∀ v ∈ voxels, v.InRange) :
    ∃ d, Derived.of voxels = .ok d := by
  cases voxels with
  | nil => exact ⟨.empty, rfl⟩
  | cons v rest =>
    obtain ⟨box, hbox⟩ := Box.exists_ofVoxels (List.cons_ne_nil v rest) hrange
    obtain ⟨e, rfl, hleast, -⟩ := Box.ofVoxels_eq_ok hbox
    obtain ⟨directory, region, hslices⟩ := exists_slices
      (fun v hv => hleast.holds v hv e.axisOrder.first) hrange
    rw [Derived.of]
    · exact ⟨_, except_bind_eq_ok.2 ⟨_, hbox, except_bind_eq_ok.2 ⟨_, hslices, rfl⟩⟩⟩
    · nofun

namespace VoxelSet

/-- A live set whose derived state is that of its absolute voxels. -/
structure IsSound (s : VoxelSet) : Prop where
  isLive : s.isDeleted = false
  derived : Derived.of s.absoluteFill = .ok s.derived

def IsInRange (s : VoxelSet) : Prop := ∀ v ∈ s.absoluteFill, v.InRange

variable {s t : VoxelSet}

theorem absoluteFill_of_zero (h : s.origin = .zero) : s.absoluteFill = s.fill := by
  simp [absoluteFill, h, Voxel.add_zero]

/-- The absolute voxels are in range relative to the origin if the voxels of the set are. -/
theorem inRange_sub_origin (h : ∀ v ∈ s.fill, v.InRange) :
    ∀ v ∈ s.absoluteFill, (v - s.origin).InRange := by
  intro v hv
  obtain ⟨x, hx, rfl⟩ := List.mem_map.1 hv
  rw [Voxel.add_sub_cancel]
  exact h x hx

theorem checkAlive_eq_ok {u : Unit} : s.checkAlive = .ok u ↔ s.isDeleted = false := by
  unfold checkAlive
  cases s.isDeleted <;> simp [pure, Except.pure, throw, throwThe, MonadExceptOf.throw]

theorem checkAlive_eq_error {e : Fault} :
    s.checkAlive = .error e ↔ s.isDeleted = true ∧ e = .report (.deletedObject s.id) := by
  unfold checkAlive
  cases s.isDeleted <;>
    simp [pure, Except.pure, throw, throwThe, MonadExceptOf.throw, eq_comm]

theorem absolute_eq_ok {voxels : List Voxel} :
    s.absolute = .ok voxels ↔ s.isDeleted = false ∧ s.absoluteFill = voxels := by
  simp only [absolute, except_bind_eq_ok, checkAlive_eq_ok]
  constructor
  · rintro ⟨-, hlive, h⟩
    cases h
    exact ⟨hlive, rfl⟩
  · rintro ⟨hlive, rfl⟩
    exact ⟨(), hlive, rfl⟩

theorem IsSound.inRange (hs : s.IsSound) : s.IsInRange :=
  (Derived.of_eq_ok hs.derived).1

/-! ## Finding voxels -/

/-- A voxel is found if and only if it is among the absolute voxels. -/
theorem contains_iff (hs : s.IsSound) (v : Voxel) : s.contains v ↔ v ∈ s.absoluteFill := by
  obtain ⟨-, ⟨hnil, hd⟩ | ⟨e, hd⟩⟩ := Derived.of_eq_ok hs.derived
  · simp [contains, find, hd, hnil, Derived.empty]
  · have hfind : Id.run (s.find v) = Id.run (s.derived.directory.indexOf? s.derived.axes v) := by
      simp [find, hd.box]
    rw [contains, hfind, hd.directory, hd.axes]
    exact Directory.isSome_indexOf?_iff (AxisOrder.isOrder_byDecreasing _)
      (fun v hv => hd.isLeast.holds v hv _) v

/-- Every voxel lies in the box of its slice. -/
theorem exists_mem_region (hs : s.IsSound) {v : Voxel} (hv : v ∈ s.absoluteFill) :
    ∃ e, Box.ofExtents e ∈ s.derived.region ∧ e.Holds v := by
  obtain ⟨-, ⟨hnil, -⟩ | ⟨e, hd⟩⟩ := Derived.of_eq_ok hs.derived
  · rw [hnil] at hv
    cases hv
  · let o := e.axisOrder
    let entry := (v.coord o.first, sortedSlice o (bucket o (v.coord o.first) s.absoluteFill))
    have hslice : v ∈ entry.2 := mem_sortedSlice.2 (mem_bucket.2 ⟨hv, rfl⟩)
    have hentry : entry ∈ s.derived.directory := by
      rw [hd.directory]
      exact List.mem_map_of_mem (mem_coordinatesBetween.2 (hd.isLeast.holds v hv o.first))
    obtain ⟨e', hbox, hleast⟩ := hd.region.exists_box hentry (List.ne_nil_of_mem hslice)
    exact ⟨e', hbox, hleast.holds v hslice⟩

/-- The region of two sets contains the voxels that they have in common. -/
theorem contains_overlapRegion (hs : s.IsSound) (ht : t.IsSound) {v : Voxel}
    (hvs : v ∈ s.absoluteFill) (hvt : v ∈ t.absoluteFill) : (s.overlapRegion t).contains v := by
  obtain ⟨e, he, hve⟩ := exists_mem_region hs hvs
  obtain ⟨e', he', hve'⟩ := exists_mem_region ht hvt
  obtain ⟨box, hbox, hv⟩ := Box.contains_overlap? hve hve'
  rw [Region.contains, List.any_eq_true]
  exact ⟨box, List.mem_flatMap.2 ⟨_, he, List.mem_filterMap.2 ⟨_, he', hbox⟩⟩, hv⟩

/-- Splitting by another set is exact if the region contains the common voxels. -/
theorem partition_eq (hs : s.IsSound) (ht : t.IsSound) {region : Region}
    (hregion : ∀ v ∈ s.absoluteFill, v ∈ t.absoluteFill → region.contains v) :
    s.partition t region = .ok (s.absoluteFill.filter (· ∈ t.absoluteFill),
      s.absoluteFill.filter (· ∉ t.absoluteFill)) := by
  have hmem : ∀ v ∈ s.absoluteFill,
      (region.contains v && t.contains v) = decide (v ∈ t.absoluteFill) := by
    intro v hv
    rw [Bool.eq_iff_iff, Bool.and_eq_true, decide_eq_true_eq, contains_iff ht]
    exact ⟨And.right, fun h => ⟨hregion v hv h, h⟩⟩
  have hnot : ∀ v ∈ s.absoluteFill, (not ∘ fun v => region.contains v && t.contains v) v =
      decide (v ∉ t.absoluteFill) := by
    intro v hv
    rw [Function.comp_apply, hmem v hv, decide_not]
  rw [partition, absolute_eq_ok.2 ⟨hs.isLive, rfl⟩, except_ok_bind, List.partition_eq_filter_filter,
    List.filter_congr hmem, List.filter_congr hnot]
  rfl

/-! ## Runs of operations -/

/-- A new set has a fresh identifier and is sound. -/
theorem create_eq_ok {origin : Voxel} {fill : List Voxel} {i i' : Issuer}
    (h : create origin fill i = .ok s i') :
    Issuer.Issues i s.id i' ∧ s.origin = origin ∧ s.fill = fill ∧ s.IsSound := by
  rw [create, Edit.bind_eq_ok] at h
  obtain ⟨id, i₁, hissue, h⟩ := h
  rw [Edit.ofExcept_eq_ok, ofParts, except_bind_eq_ok] at h
  obtain ⟨⟨d, hd, h⟩, rfl⟩ := h
  cases h
  exact ⟨Issuer.issues_of_issue hissue, rfl, rfl, rfl, hd⟩

/-- A set of voxels in range can always be made. -/
theorem exists_create {origin : Voxel} {fill : List Voxel} (i : Issuer)
    (hrange : ∀ v ∈ fill, (v + origin).InRange) :
    ∃ s i', create origin fill i = .ok s i' := by
  obtain ⟨id, i', hissue, -⟩ := i.exists_issue
  obtain ⟨d, hd⟩ := Derived.exists_of (fill.map (· + origin)) (by simpa using hrange)
  refine ⟨⟨id, origin, fill, d, false⟩, i', ?_⟩
  rw [create, Edit.bind_eq_ok]
  refine ⟨id, i', hissue, ?_⟩
  rw [Edit.ofExcept_eq_ok, ofParts, hd]
  exact ⟨rfl, rfl⟩

theorem recompute_eq_ok {u : Unit} : recompute s = .ok u t ↔
    s.isDeleted = false ∧ ∃ d, Derived.of s.absoluteFill = .ok d ∧ t = { s with derived := d } := by
  simp only [recompute, Edit.bind_eq_ok, Edit.get_eq_ok, Edit.ofExcept_eq_ok, Edit.set_eq_ok,
    checkAlive_eq_ok]
  constructor
  · rintro ⟨_, _, ⟨rfl, rfl⟩, _, _, ⟨hlive, rfl⟩, d, _, ⟨hd, rfl⟩, rfl⟩
    exact ⟨hlive, d, hd, rfl⟩
  · rintro ⟨hlive, d, hd, rfl⟩
    exact ⟨s, s, ⟨rfl, rfl⟩, (), s, ⟨hlive, rfl⟩, d, s, ⟨hd, rfl⟩, rfl⟩

theorem isSound_of_recompute {u : Unit} (h : recompute s = .ok u t) : t.IsSound := by
  obtain ⟨hlive, d, hd, rfl⟩ := recompute_eq_ok.1 h
  exact ⟨hlive, hd⟩

/-- Replacing the voxels keeps identifier and origin. -/
theorem setFill_eq_ok {fill : List Voxel} {u : Unit} : setFill fill s = .ok u t ↔
    s.isDeleted = false ∧ ∃ d, Derived.of (fill.map (· + s.origin)) = .ok d ∧
      t = { s with fill := fill, derived := d } := by
  simp only [setFill, Edit.bind_eq_ok, Edit.get_eq_ok, Edit.ofExcept_eq_ok, Edit.modify_eq_ok,
    checkAlive_eq_ok, recompute_eq_ok]
  constructor
  · rintro ⟨_, _, ⟨rfl, rfl⟩, _, _, ⟨hlive, rfl⟩, _, _, rfl, -, d, hd, rfl⟩
    exact ⟨hlive, d, hd, rfl⟩
  · rintro ⟨hlive, d, hd, rfl⟩
    exact ⟨s, s, ⟨rfl, rfl⟩, (), s, ⟨hlive, rfl⟩, (), _, rfl, hlive, d, hd, rfl⟩

theorem isSound_of_setFill {fill : List Voxel} {u : Unit} (h : setFill fill s = .ok u t) :
    t.IsSound := by
  obtain ⟨hlive, d, hd, rfl⟩ := setFill_eq_ok.1 h
  exact ⟨hlive, hd⟩

/-- The voxels of a live set can be replaced by others that are in range. -/
theorem exists_setFill (fill : List Voxel) (hlive : s.isDeleted = false)
    (hrange : ∀ v ∈ fill, (v + s.origin).InRange) :
    ∃ t, setFill fill s = .ok () t ∧ t.IsSound ∧ t.id = s.id ∧ t.origin = s.origin ∧
      t.fill = fill := by
  obtain ⟨d, hd⟩ := Derived.exists_of (fill.map (· + s.origin))
    (List.forall_mem_map.2 hrange)
  have hset : setFill fill s = .ok () { s with fill := fill, derived := d } :=
    setFill_eq_ok.2 ⟨hlive, d, hd, rfl⟩
  exact ⟨_, hset, isSound_of_setFill hset, rfl, rfl, rfl⟩

/-- A live set can take over absolute voxels that are in range, wherever its origin is. -/
theorem exists_setFill_absolute {voxels : List Voxel} (hlive : s.isDeleted = false)
    (hrange : ∀ v ∈ voxels, v.InRange) :
    ∃ t, setFill (voxels.map (· - s.origin)) s = .ok () t ∧ t.IsSound ∧ t.id = s.id ∧
      t.origin = s.origin ∧ t.absoluteFill = voxels := by
  obtain ⟨t, hset, hsound, hid, horigin, hfill⟩ := exists_setFill (voxels.map (· - s.origin)) hlive
    (List.forall_mem_map.2 fun v hv => (Voxel.sub_add_cancel v s.origin).symm ▸ hrange v hv)
  refine ⟨t, hset, hsound, hid, horigin, ?_⟩
  rw [absoluteFill, hfill, horigin]
  simp [Voxel.sub_add_cancel, Function.comp_def]

/-- Adding voxels keeps identifier and origin. -/
theorem addFill_eq_ok {more : List Voxel} {u : Unit} : addFill more s = .ok u t ↔
    s.isDeleted = false ∧ ∃ d, Derived.of ((s.fill ++ more).map (· + s.origin)) = .ok d ∧
      t = { s with fill := s.fill ++ more, derived := d } := by
  simp only [addFill, Edit.bind_eq_ok, Edit.get_eq_ok, Edit.ofExcept_eq_ok, Edit.modify_eq_ok,
    checkAlive_eq_ok, recompute_eq_ok]
  constructor
  · rintro ⟨_, _, ⟨rfl, rfl⟩, _, _, ⟨hlive, rfl⟩, _, _, rfl, -, d, hd, rfl⟩
    exact ⟨hlive, d, hd, rfl⟩
  · rintro ⟨hlive, d, hd, rfl⟩
    exact ⟨s, s, ⟨rfl, rfl⟩, (), s, ⟨hlive, rfl⟩, (), _, rfl, hlive, d, hd, rfl⟩

theorem isSound_of_addFill {more : List Voxel} {u : Unit} (h : addFill more s = .ok u t) :
    t.IsSound := by
  obtain ⟨hlive, d, hd, rfl⟩ := addFill_eq_ok.1 h
  exact ⟨hlive, hd⟩

/-- Voxels in range can be added to a live set. -/
theorem exists_addFill (more : List Voxel) (hlive : s.isDeleted = false)
    (hrange : ∀ v ∈ s.fill ++ more, (v + s.origin).InRange) :
    ∃ t, addFill more s = .ok () t ∧ t.IsSound ∧ t.id = s.id ∧ t.origin = s.origin ∧
      t.fill = s.fill ++ more := by
  obtain ⟨d, hd⟩ := Derived.exists_of ((s.fill ++ more).map (· + s.origin))
    (List.forall_mem_map.2 hrange)
  have hadd : addFill more s = .ok () { s with fill := s.fill ++ more, derived := d } :=
    addFill_eq_ok.2 ⟨hlive, d, hd, rfl⟩
  exact ⟨_, hadd, isSound_of_addFill hadd, rfl, rfl, rfl⟩

/-- At the zero origin the given voxels are the absolute ones. -/
theorem absoluteFill_of_setFill {fill : List Voxel} {u : Unit} (hzero : s.origin = .zero)
    (h : setFill fill s = .ok u t) : t.origin = .zero ∧ t.absoluteFill = fill := by
  obtain ⟨-, d, -, rfl⟩ := setFill_eq_ok.1 h
  exact ⟨hzero, absoluteFill_of_zero hzero⟩

theorem absoluteFill_of_addFill {more : List Voxel} {u : Unit} (hzero : s.origin = .zero)
    (h : addFill more s = .ok u t) : t.absoluteFill = s.absoluteFill ++ more := by
  obtain ⟨-, d, -, rfl⟩ := addFill_eq_ok.1 h
  rw [absoluteFill_of_zero hzero]
  exact absoluteFill_of_zero hzero

end VoxelSet
end VoxelAlgebra
