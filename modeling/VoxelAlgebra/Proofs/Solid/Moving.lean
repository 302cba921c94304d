import VoxelAlgebra.Proofs.Solid.Translation

/-!
# Moved derived state

The derived state of moved voxels is the moved derived state: the boxes and the slices go along, and
a moved point has the place in its slice that the point had before. Since moving can be undone, a
derived state goes along with voxels only if it is the one that is worked out from them.

## Main definitions

* `Derived.add`, `Derived.of_add` — a moved derived state, and that of moved voxels.
* `Derived.add_injective` — moving can be undone.
* `VoxelSet.IsMoved`, `VoxelSet.isMoved_iff` — sets whose derived state goes along.
-/

namespace VoxelAlgebra

variable {t : Voxel}

/-! ## Boxes -/

def Box.add (b : Box) (t : Voxel) : Box := ⟨b.corners.map (· + t), b.extents.add t⟩

theorem Box.ofExtents_add (e : Extents) (t : Voxel) :
    (ofExtents e).add t = ofExtents (e.add t) := by
  have hcorners : e.corners.map (· + t) = (e.add t).corners := by
    refine Cube.ext_get fun c => Voxel.ext_coord fun a => ?_
    rw [Cube.get_map, Extents.get_corners, Extents.get_corners, Voxel.coord_add,
      Extents.coord_corner, Extents.coord_corner]
    split_ifs <;> simp [Extents.add]
  rw [add, ofExtents, ofExtents, hcorners]

theorem Voxel.add_right_injective (t : Voxel) : Function.Injective fun v : Voxel => v + t :=
  fun _ _ h => Voxel.add_right_inj.1 h

theorem Box.add_injective (t : Voxel) : Function.Injective fun b : Box => b.add t := by
  rintro ⟨corners, low, high⟩ ⟨corners', low', high'⟩ h
  simp only [add, Extents.add, Box.mk.injEq, Extents.mk.injEq, Voxel.add_right_inj] at h ⊢
  refine ⟨Cube.ext_get fun c => Voxel.add_right_injective t ?_, h.2⟩
  have hget := congrArg (fun b => b.get c) h.1
  simpa only [Cube.get_map] using hget

def Region.add (r : Region) (t : Voxel) : Region := r.map fun b => b.add t

/-- The boxes of moved slices are the moved boxes. -/
theorem AreBoxesOf.add {d : Directory Voxel} {boxes boxes' : Region} (h : AreBoxesOf d boxes)
    {c : Int} (h' : AreBoxesOf (d.add c t) boxes') : boxes' = boxes.add t := by
  have hmoved : (d.add c t).filter (fun entry => entry.2 ≠ []) =
      (d.filter fun entry => entry.2 ≠ []).map fun entry => (entry.1 + c, entry.2.map (· + t)) := by
    rw [Directory.add, List.filter_map]
    congr 1
    exact List.filter_congr fun entry _ => by simp
  unfold AreBoxesOf at h h'
  rw [hmoved, List.forall₂_map_left_iff] at h'
  have hboxes : List.Forall₂ (fun box box' => box.add t = box') boxes boxes' := by
    refine forall₂_of_common (fun entry box box' => ?_) h h'
    rintro ⟨e, rfl, he⟩ ⟨e', rfl, he'⟩
    rw [Box.ofExtents_add, (he.add t).unique he']
  rw [← List.forall₂_map_left_iff, List.forall₂_eq_eq_eq] at hboxes
  exact hboxes.symm

/-! ## Slices -/

theorem Directory.add_injective (c : Int) (t : Voxel) :
    Function.Injective fun d : Directory Voxel => d.add c t := by
  refine List.map_injective_iff.2 ?_
  rintro ⟨k, slice⟩ ⟨k', slice'⟩ h
  simp only [Prod.mk.injEq] at h
  obtain ⟨hkey, hslice⟩ := h
  refine Prod.ext ?_ (List.map_injective_iff.2 (Voxel.add_right_injective t) hslice)
  simp only
  omega

namespace Directory

variable {o : AxisOrder}

/-- One step of a search compares the key with that of the middle voxel. -/
theorem search_step {key : Int × Int} {voxels : List Voxel} {low high : Nat} {v : Voxel}
    (hlt : low < high) (hv : voxels[(low + high - 1) / 2]? = some v) :
    search o key voxels low high =
      if sliceKey o v = key then some ((low + high - 1) / 2)
      else if pairLe (sliceKey o v) key then search o key voxels ((low + high - 1) / 2 + 1) high
      else search o key voxels low ((low + high - 1) / 2) := by
  rw [search, if_pos hlt]
  simp only [hv]
  rfl

/-- The search in moved voxels takes the same way. -/
theorem search_add (p : Voxel) (voxels : List Voxel) (low high : Nat) :
    search o (sliceKey o (p + t)) (voxels.map (· + t)) low high =
      search o (sliceKey o p) voxels low high := by
  have hkey (v : Voxel) :
      sliceKey o (v + t) = sliceKey o (p + t) ↔ sliceKey o v = sliceKey o p := by
    simp [sliceKey]
  have hle (v : Voxel) : pairLe (sliceKey o (v + t)) (sliceKey o (p + t)) =
      pairLe (sliceKey o v) (sliceKey o p) := sliceLe_add o v p t
  have hmoved {i : Nat} {v : Voxel} (hv : voxels[i]? = some v) :
      (voxels.map (· + t))[i]? = some (v + t) := by
    rw [List.getElem?_map, hv, Option.map_some]
  fun_induction search o (sliceKey o p) voxels low high with
  | case1 low high hlt middle hnone =>
    have hend : (voxels.map (· + t))[(low + high - 1) / 2]? = none := by
      rw [List.getElem?_map, hnone, Option.map_none]
    rw [search, if_pos hlt]
    simp only [hend]
  | case2 low high hlt middle v hv here hfound =>
    rw [search_step hlt (hmoved hv), if_pos ((hkey v).2 hfound)]
  | case3 low high hlt middle v hv here hother hbelow ih =>
    rw [search_step hlt (hmoved hv), if_neg (mt (hkey v).1 hother), hle]
    exact (if_pos hbelow).trans ih
  | case4 low high hlt middle v hv here hother habove ih =>
    rw [search_step hlt (hmoved hv), if_neg (mt (hkey v).1 hother), hle]
    exact (if_neg habove).trans ih
  | case5 low high hge => rw [search, if_neg hge]

theorem lookup_add (d : Directory Voxel) (c k : Int) :
    (d.add c t).lookup (k + c) = (d.lookup k).map (List.map (· + t)) := by
  induction d with
  | nil => rfl
  | cons entry rest ih =>
    obtain ⟨j, slice⟩ := entry
    have hkey : (k + c == j + c) = (k == j) := by
      rw [Bool.eq_iff_iff, beq_iff_eq, beq_iff_eq]
      omega
    have hrest : Directory.add ((j, slice) :: rest) c t =
        (j + c, slice.map (· + t)) :: Directory.add rest c t := rfl
    rw [hrest, List.lookup_cons, List.lookup_cons, hkey, ih]
    cases k == j <;> rfl

/-- A moved point is at the place of its moved slice where the point is in the slice. -/
theorem run_indexOf?_add (d : Directory Voxel) (p : Voxel) :
    Id.run ((d.add (t.coord o.first) t).indexOf? o (p + t)) = Id.run (d.indexOf? o p) := by
  rw [run_indexOf?, run_indexOf?, Voxel.coord_add, lookup_add]
  cases d.lookup (p.coord o.first) with
  | none => rfl
  | some slice =>
    rw [Option.map_some, Option.bind_some, Option.bind_some, List.length_map, search_add]

end Directory

/-! ## Derived state -/

namespace Derived

def add (d : Derived) (t : Voxel) : Derived where
  box := d.box.map fun b => b.add t
  axes := d.axes
  directory := d.directory.add (t.coord d.axes.first) t
  region := d.region.add t

/-- The derived state of moved voxels. -/
theorem of_add {voxels : List Voxel} {d d' : Derived} (h : Derived.of voxels = .ok d)
    (h' : Derived.of (voxels.map (· + t)) = .ok d') : d' = d.add t := by
  obtain ⟨haxes, hdirectory⟩ := directory_add h h'
  obtain ⟨-, ⟨rfl, hd⟩ | ⟨e, hd⟩⟩ := Derived.of_eq_ok h
  · cases h'
    rw [hd]
    rfl
  · have hd' := Derived.describes_of_isLeast h' (hd.isLeast.add t)
    have hregion' := hd'.region
    rw [hdirectory] at hregion'
    have hbox : d'.box = d.box.map fun b => b.add t := by
      rw [hd'.box, hd.box, Option.map_some, Box.ofExtents_add]
    cases d'
    simp only at hbox haxes hdirectory hregion'
    rw [hbox, haxes, hdirectory, hd.region.add hregion', add]

theorem add_injective (t : Voxel) : Function.Injective fun d : Derived => d.add t := by
  rintro ⟨box, axes, directory, region⟩ ⟨box', axes', directory', region'⟩ h
  simp only [add, Derived.mk.injEq] at h ⊢
  obtain ⟨hbox, rfl, hdirectory, hregion⟩ := h
  exact ⟨Option.map_injective (Box.add_injective t) hbox, rfl,
    Directory.add_injective _ t hdirectory, List.map_injective_iff.2 (Box.add_injective t) hregion⟩

end Derived

/-! ## Sets -/

namespace VoxelSet

variable {s s' : VoxelSet}

/-- The derived state of `s'` is that of `s` moved by `t`, and it finds moved points where that of
`s` finds the points. -/
structure IsMoved (t : Voxel) (s s' : VoxelSet) : Prop where
  axes : s'.derived.axes = s.derived.axes
  box : s'.derived.box = s.derived.box.map fun b => b.add t
  region : s'.derived.region = s.derived.region.map fun b => b.add t
  directory : s'.derived.directory = s.derived.directory.map fun entry =>
    (entry.1 + t.coord s.derived.axes.first, entry.2.map (· + t))
  find : ∀ p : Voxel, Id.run (s'.find (p + t)) = Id.run (s.find p)

theorem IsMoved.derived (h : s.IsMoved t s') : s'.derived = s.derived.add t := by
  obtain ⟨haxes, hbox, hregion, hdirectory, -⟩ := h
  cases hd : s'.derived
  rw [hd] at haxes hbox hregion hdirectory
  simp only at haxes hbox hregion hdirectory
  rw [haxes, hbox, hregion, hdirectory]
  rfl

theorem isMoved_of_derived (h : s'.derived = s.derived.add t) : s.IsMoved t s' := by
  refine ⟨by rw [h, Derived.add], by rw [h, Derived.add], by rw [h, Derived.add, Region.add],
    by rw [h, Derived.add, Directory.add], fun p => ?_⟩
  have hindex := Directory.run_indexOf?_add (t := t) (o := s.derived.axes) s.derived.directory p
  unfold find
  rw [h, Derived.add]
  cases s.derived.box with
  | none => rfl
  | some b => exact hindex

/-- The derived state of a set goes along with its voxels if and only if it is that of its
voxels. -/
theorem isMoved_iff (hs : s.IsInRange)
    (hs' : Derived.of (s.absoluteFill.map (· + t)) = .ok s'.derived) :
    s.IsMoved t s' ↔ Derived.of s.absoluteFill = .ok s.derived := by
  constructor
  · intro h
    obtain ⟨d, hd⟩ := Derived.exists_of s.absoluteFill hs
    have hsame : d.add t = s.derived.add t := by rw [← Derived.of_add hd hs', h.derived]
    rw [hd, Derived.add_injective t hsame]
  · intro h
    exact isMoved_of_derived (Derived.of_add h hs')

/-- A live set can be moved by a vector that leaves its voxels in range. -/
theorem exists_setOriginFrom (hlive : s.isDeleted = false)
    (hrange : ∀ v ∈ s.absoluteFill, (v + t).InRange) :
    ∃ s', setOriginFrom [.whole (s.origin + t).x, .whole (s.origin + t).y,
        .whole (s.origin + t).z] s = .ok () s' ∧
      s'.isDeleted = false ∧ s'.origin = s.origin + t ∧ s'.fill = s.fill ∧
      Derived.of (s.absoluteFill.map (· + t)) = .ok s'.derived := by
  obtain ⟨d, hd⟩ := Derived.exists_of (s.absoluteFill.map (· + t)) (List.forall_mem_map.2 hrange)
  have habsolute : ({ s with origin := s.origin + t } : VoxelSet).absoluteFill =
      s.absoluteFill.map (· + t) := by
    simp only [absoluteFill, List.map_map, Function.comp_def, Voxel.add_assoc]
  refine ⟨{ s with origin := s.origin + t, derived := d }, ?_, hlive, rfl, rfl, hd⟩
  simp only [setOriginFrom, setOrigin, Edit.get_bind, Edit.bind_eq_ok, Edit.ofExcept_eq_ok,
    checkAlive_eq_ok, Voxel.ofNumbers_whole, Edit.modify_eq_ok, recompute_eq_ok]
  exact ⟨(), s, ⟨hlive, rfl⟩, _, s, ⟨rfl, rfl⟩, (), s, ⟨hlive, rfl⟩, (), _, rfl, hlive, d,
    habsolute ▸ hd, rfl⟩

end VoxelSet
end VoxelAlgebra
