import VoxelAlgebra.Box.Slices
import VoxelAlgebra.Proofs.Box.Extents

/-!
# Slices of voxels

Every voxel is in the slice of its first coordinate, and every slice that is not empty has its least
box. In a slice the voxels are sorted by the other two coordinates, so the binary search finds a
voxel whenever it is there.

## Main definitions

* `sliceKey`, `sortedSlice`, `bucket` — the order within a slice, and the voxels of a slice.
* `slices_eq_ok`, `exists_slices` — the directory and the boxes of sliced voxels.
* `Directory.isSome_search_iff` — the search in sorted voxels.
* `Directory.isSome_indexOf?_iff` — finding a voxel through its slice.
-/

namespace VoxelAlgebra

open Coordinates

/-! ## Order within a slice -/

theorem pairLe_iff {p q : Int × Int} : pairLe p q ↔ p.1 < q.1 ∨ (p.1 = q.1 ∧ p.2 ≤ q.2) := by
  simp [pairLe]

theorem pairLe_trans {p q r : Int × Int} (h : pairLe p q) (h' : pairLe q r) : pairLe p r := by
  rw [pairLe_iff] at *
  omega

theorem pairLe_total (p q : Int × Int) : pairLe p q ∨ pairLe q p := by
  rw [pairLe_iff, pairLe_iff]
  omega

theorem pairLe_antisymm {p q : Int × Int} (h : pairLe p q) (h' : pairLe q p) : p = q := by
  rw [pairLe_iff] at h h'
  exact Prod.ext (by omega) (by omega)

def sliceKey (o : AxisOrder) (v : Voxel) : Int × Int := (v.coord o.second, v.coord o.third)

def sliceLe (o : AxisOrder) (v w : Voxel) : Bool := pairLe (sliceKey o v) (sliceKey o w)

def sortedSlice (o : AxisOrder) (voxels : List Voxel) : List Voxel := voxels.mergeSort (sliceLe o)

theorem sortedBy_eq (o : AxisOrder) (voxels : List Voxel) :
    sortedBy o.second o.third voxels = .ok (sortedSlice o voxels) := by
  have hkeyed : (voxels.mapM fun v => do
      let key : Int × Int := (← coord v o.second, ← coord v o.third)
      return (key, v) : Except Fault _) = .ok (voxels.map fun v => (sliceKey o v, v)) :=
    List.mapM_pure
  have hsort : ((voxels.map fun v => (sliceKey o v, v)).mergeSort
      fun p q => pairLe p.1 q.1).map Prod.snd = sortedSlice o voxels := by
    rw [List.map_mergeSort (s := sliceLe o), List.map_map]
    · simp [sortedSlice, Function.comp_def]
    · intro p hp q hq
      obtain ⟨v, -, rfl⟩ := List.mem_map.1 hp
      obtain ⟨w, -, rfl⟩ := List.mem_map.1 hq
      rfl
  rw [sortedBy, hkeyed, ← hsort]
  rfl

theorem sortedSlice_perm (o : AxisOrder) (voxels : List Voxel) :
    (sortedSlice o voxels).Perm voxels :=
  List.mergeSort_perm _ _

theorem mem_sortedSlice {o : AxisOrder} {voxels : List Voxel} {v : Voxel} :
    v ∈ sortedSlice o voxels ↔ v ∈ voxels :=
  (sortedSlice_perm o voxels).mem_iff

theorem sortedSlice_ne_nil {o : AxisOrder} {voxels : List Voxel} (h : voxels ≠ []) :
    sortedSlice o voxels ≠ [] := by
  intro hnil
  have hperm := sortedSlice_perm o voxels
  rw [hnil] at hperm
  exact h hperm.symm.eq_nil

theorem pairwise_sortedSlice (o : AxisOrder) (voxels : List Voxel) :
    (sortedSlice o voxels).Pairwise fun v w => pairLe (sliceKey o v) (sliceKey o w) := by
  refine List.pairwise_mergeSort (fun u v w => ?_) (fun v w => ?_) voxels
  · exact pairLe_trans
  · rw [Bool.or_eq_true]
    exact pairLe_total (sliceKey o v) (sliceKey o w)

/-! ## The directory -/

def bucket (o : AxisOrder) (k : Int) (voxels : List Voxel) : List Voxel :=
  voxels.filter fun v => v.coord o.first = k

theorem mem_bucket {o : AxisOrder} {k : Int} {voxels : List Voxel} {v : Voxel} :
    v ∈ bucket o k voxels ↔ v ∈ voxels ∧ v.coord o.first = k := by
  simp [bucket]

theorem mem_coordinatesBetween {low high k : Int} :
    k ∈ coordinatesBetween low high ↔ low ≤ k ∧ k ≤ high := by
  simp only [coordinatesBetween, List.mem_map, List.mem_range]
  constructor
  · rintro ⟨i, hi, rfl⟩
    omega
  · rintro ⟨hl, hh⟩
    exact ⟨(k - low).toNat, by omega, by omega⟩

def directoryOf (o : AxisOrder) (low high : Int) (voxels : List Voxel) : Directory Voxel :=
  (coordinatesBetween low high).map fun k => (k, sortedSlice o (bucket o k voxels))

def AreBoxesOf (entries : List (Int × List Voxel)) (boxes : Region) : Prop :=
  List.Forall₂ (fun entry box => ∃ e, box = Box.ofExtents e ∧ e.IsLeast entry.2)
    (entries.filter fun entry => entry.2 ≠ []) boxes

theorem AreBoxesOf.exists_box {entries : List (Int × List Voxel)} {boxes : Region}
    (h : AreBoxesOf entries boxes) {entry : Int × List Voxel} (hmem : entry ∈ entries)
    (hne : entry.2 ≠ []) : ∃ e, Box.ofExtents e ∈ boxes ∧ e.IsLeast entry.2 := by
  unfold AreBoxesOf at h
  have hmem : entry ∈ entries.filter fun entry => entry.2 ≠ [] :=
    List.mem_filter.2 ⟨hmem, by simpa using hne⟩
  obtain ⟨box, hbox, e, rfl, hleast⟩ := exists_mem_of_forall₂ h.flip hmem
  exact ⟨e, hbox, hleast⟩

theorem mapM_sliceOf {a : Axis} {low high : Int} {voxels : List Voxel}
    (h : ∀ v ∈ voxels, low ≤ v.coord a ∧ v.coord a ≤ high) :
    voxels.mapM (sliceOf a low high) = .ok (voxels.map fun v => (v.coord a, v)) := by
  rw [except_mapM_eq_ok]
  induction voxels with
  | nil => exact .nil
  | cons v rest ih =>
    refine .cons ?_ (ih fun w hw => h w (List.mem_cons_of_mem v hw))
    have hv := h v List.mem_cons_self
    have hcoord : (coord v a : Except Fault Int) = .ok (v.coord a) := rfl
    rw [sliceOf, hcoord, except_ok_bind, if_pos hv]
    rfl

theorem filter_placed (o : AxisOrder) (k : Int) (voxels : List Voxel) :
    ((voxels.map fun v => (v.coord o.first, v)).filter fun p => p.1 = k).map Prod.snd =
      bucket o k voxels := by
  rw [List.filter_map, List.map_map]
  simp [bucket, Function.comp_def]

theorem slice_eq_ok {o : AxisOrder} {k : Int} {voxels : List Voxel}
    {cut : (Int × List Voxel) × Option Box} (h : slice o Box.ofVoxels k voxels = .ok cut) :
    cut.1 = (k, sortedSlice o voxels) ∧ (voxels = [] → cut.2 = none) ∧
      (voxels ≠ [] → ∃ e, cut.2 = some (Box.ofExtents e) ∧ e.IsLeast (sortedSlice o voxels)) := by
  rw [slice] at h
  cases voxels with
  | nil =>
    cases h
    exact ⟨by simp [sortedSlice], fun _ => rfl, fun hne => absurd rfl hne⟩
  | cons v rest =>
    simp only [List.isEmpty_cons, Bool.false_eq_true, if_false, sortedBy_eq, except_ok_bind] at h
    obtain ⟨box, hbox, h⟩ := except_bind_eq_ok.1 h
    cases h
    obtain ⟨e, rfl, he, -⟩ := Box.ofVoxels_eq_ok hbox
    exact ⟨rfl, nofun, fun _ => ⟨e, rfl, he⟩⟩

theorem exists_slice (o : AxisOrder) (k : Int) {voxels : List Voxel}
    (hrange : ∀ v ∈ voxels, v.InRange) : ∃ cut, slice o Box.ofVoxels k voxels = .ok cut := by
  rw [slice]
  cases voxels with
  | nil => exact ⟨_, rfl⟩
  | cons v rest =>
    have hne : sortedSlice o (v :: rest) ≠ [] := sortedSlice_ne_nil (List.cons_ne_nil v rest)
    obtain ⟨box, hbox⟩ := Box.exists_ofVoxels hne fun w hw => hrange w (mem_sortedSlice.1 hw)
    simp only [List.isEmpty_cons, Bool.false_eq_true, if_false, sortedBy_eq, except_ok_bind]
    exact ⟨_, except_bind_eq_ok.2 ⟨box, hbox, rfl⟩⟩

/-- What the slices of voxels are. -/
theorem slices_eq_ok {o : AxisOrder} {low high : Int} {voxels : List Voxel}
    {d : Directory Voxel} {region : Region}
    (hin : ∀ v ∈ voxels, low ≤ v.coord o.first ∧ v.coord o.first ≤ high)
    (h : slices o low high Box.ofVoxels voxels = .ok (d, region)) :
    d = directoryOf o low high voxels ∧ AreBoxesOf d region := by
  rw [slices, mapM_sliceOf hin, except_ok_bind, except_bind_eq_ok] at h
  obtain ⟨cut, hcut, h⟩ := h
  cases h
  simp only [filter_placed, except_mapM_eq_ok] at hcut
  unfold directoryOf AreBoxesOf
  generalize coordinatesBetween low high = ks at hcut
  induction hcut with
  | nil => exact ⟨rfl, .nil⟩
  | @cons k c ks cs hc _ ih =>
    obtain ⟨hentry, hempty, hbox⟩ := slice_eq_ok hc
    obtain ⟨hd, hregion⟩ := ih
    refine ⟨by rw [List.map_cons, List.map_cons, hentry, hd], ?_⟩
    by_cases hb : bucket o k voxels = []
    · simpa [hentry, hb, hempty hb, sortedSlice] using hregion
    · obtain ⟨e, he, hleast⟩ := hbox hb
      have hne := sortedSlice_ne_nil (o := o) hb
      simp only [List.map_cons, List.filterMap_cons, he, hentry]
      rw [List.filter_cons_of_pos (by simpa using hne)]
      exact .cons ⟨e, rfl, hleast⟩ hregion

theorem exists_slices {o : AxisOrder} {low high : Int} {voxels : List Voxel}
    (hin : ∀ v ∈ voxels, low ≤ v.coord o.first ∧ v.coord o.first ≤ high)
    (hrange : ∀ v ∈ voxels, v.InRange) :
    ∃ d region, slices o low high Box.ofVoxels voxels = .ok (d, region) := by
  rw [slices, mapM_sliceOf hin, except_ok_bind]
  have hcuts : ∀ k ∈ coordinatesBetween low high, ∃ cut,
      slice o Box.ofVoxels k (bucket o k voxels) = .ok cut := fun k _ =>
    exists_slice o k fun v hv => hrange v (mem_bucket.1 hv).1
  obtain ⟨cut, hcut⟩ := except_exists_mapM hcuts
  simp only [← filter_placed] at hcut
  exact ⟨_, _, except_bind_eq_ok.2 ⟨cut, hcut, rfl⟩⟩

/-! ## Search -/

namespace Directory

variable {o : AxisOrder} {key : Int × Int} {voxels : List Voxel}

/-- The search ends only at the key. -/
theorem key_of_search {low high i : Nat} (h : search o key voxels low high = some i) :
    ∃ v, voxels[i]? = some v ∧ sliceKey o v = key := by
  fun_induction search o key voxels low high with
  | case1 => cases h
  | case2 low high hlt middle v heq here hkey =>
    obtain rfl := Option.some.inj h
    exact ⟨v, heq, hkey⟩
  | case3 low high hlt middle v heq here hkey hle ih => exact ih h
  | case4 low high hlt middle v heq here hkey hle ih => exact ih h
  | case5 => cases h

theorem pairLe_of_getElem?
    (hsorted : voxels.Pairwise fun v w => pairLe (sliceKey o v) (sliceKey o w))
    {i j : Nat} {v w : Voxel} (hij : i ≤ j) (hi : voxels[i]? = some v) (hj : voxels[j]? = some w) :
    pairLe (sliceKey o v) (sliceKey o w) := by
  obtain ⟨hi', rfl⟩ := List.getElem?_eq_some_iff.1 hi
  obtain ⟨hj', rfl⟩ := List.getElem?_eq_some_iff.1 hj
  obtain rfl | hlt := Nat.eq_or_lt_of_le hij
  · rw [pairLe_iff]
    omega
  · exact List.pairwise_iff_getElem.1 hsorted i j hi' hj' hlt

/-- What is outside of the searched places is on the wrong side of the key, so a search that finds
nothing has ruled out all voxels. -/
theorem ne_key_of_search (hsorted : voxels.Pairwise fun v w => pairLe (sliceKey o v) (sliceKey o w))
    {low high : Nat} (hhigh : high ≤ voxels.length)
    (hbelow : ∀ i v, i < low → voxels[i]? = some v → ¬ pairLe key (sliceKey o v))
    (habove : ∀ i v, high ≤ i → voxels[i]? = some v → ¬ pairLe (sliceKey o v) key)
    (h : search o key voxels low high = none) : ∀ v ∈ voxels, sliceKey o v ≠ key := by
  fun_induction search o key voxels low high with
  | case1 low high hlt middle hnone =>
    rw [List.getElem?_eq_none_iff] at hnone
    omega
  | case2 => cases h
  | case3 low high hlt middle v heq here hkey hle ih =>
    refine ih hhigh (fun i w hi hw hge => ?_) habove h
    -- the voxel is not above the middle one, so the key would be that of the middle
    have hw' := pairLe_of_getElem? hsorted (Nat.le_of_lt_succ hi) hw heq
    exact hkey (pairLe_antisymm hle (pairLe_trans hge hw'))
  | case4 low high hlt middle v heq here hkey hle ih =>
    refine ih (by omega) hbelow (fun i w hi hw hge => ?_) h
    exact hle (pairLe_trans (pairLe_of_getElem? hsorted hi heq hw) hge)
  | case5 low high hge =>
    intro v hv hkey
    obtain ⟨i, hi, rfl⟩ := List.getElem_of_mem hv
    have hle : pairLe key key := pairLe_iff.2 (by omega)
    obtain hlow | hlow := Nat.lt_or_ge i low
    · exact hbelow i _ hlow (List.getElem?_eq_getElem hi) (hkey ▸ hle)
    · exact habove i _ (by omega) (List.getElem?_eq_getElem hi) (hkey ▸ hle)

/-- In sorted voxels a key is found if and only if a voxel has it. -/
theorem isSome_search_iff
    (hsorted : voxels.Pairwise fun v w => pairLe (sliceKey o v) (sliceKey o w)) :
    (search o key voxels 0 voxels.length).isSome ↔ ∃ v ∈ voxels, sliceKey o v = key := by
  constructor
  · intro h
    obtain ⟨i, hi⟩ := Option.isSome_iff_exists.1 h
    obtain ⟨v, hv, hkey⟩ := key_of_search hi
    exact ⟨v, List.mem_of_getElem? hv, hkey⟩
  · rintro ⟨v, hv, hkey⟩
    by_contra hnone
    refine ne_key_of_search hsorted (Nat.le_refl _) (fun i w hi _ _ => ?_)
      (fun i w hi hw _ => ?_) (Option.not_isSome_iff_eq_none.1 hnone) v hv hkey
    · exact Nat.not_lt_zero i hi
    · rw [List.getElem?_eq_none hi] at hw
      cases hw

theorem lookup_map {β : Type} (f : Int → β) (ks : List Int) (k : Int) :
    (ks.map fun k => (k, f k)).lookup k = if k ∈ ks then some (f k) else none := by
  induction ks with
  | nil => rfl
  | cons j ks ih =>
    by_cases h : k = j
    · simp [h]
    · have hne : (k == j) = false := by simpa using h
      simp [List.lookup_cons, hne, h, ih]

theorem run_indexOf? (d : Directory Voxel) (o : AxisOrder) (v : Voxel) :
    Id.run (d.indexOf? o v) = (d.lookup (v.coord o.first)).bind fun voxels =>
      search o (sliceKey o v) voxels 0 voxels.length := by
  have hempty : search o (sliceKey o v) [] 0 0 = none := by
    rw [search]
    rfl
  cases h : d.lookup (v.coord o.first) with
  | none => simp [indexOf?, coord, h]
  | some voxels =>
    cases voxels with
    | nil => simp [indexOf?, coord, h, hempty]
    | cons w rest =>
      simp [indexOf?, coord, h]
      rfl

/-- A voxel is found through its slice if and only if it was sliced. -/
theorem isSome_indexOf?_iff {low high : Int} (ho : o.IsOrder)
    (hin : ∀ v ∈ voxels, low ≤ v.coord o.first ∧ v.coord o.first ≤ high) (v : Voxel) :
    (Id.run ((directoryOf o low high voxels).indexOf? o v)).isSome ↔ v ∈ voxels := by
  rw [run_indexOf?, directoryOf, lookup_map]
  split_ifs with hk
  · rw [Option.bind_some, isSome_search_iff (pairwise_sortedSlice o _)]
    simp only [mem_sortedSlice, mem_bucket]
    constructor
    · rintro ⟨w, ⟨hw, hfirst⟩, hkey⟩
      have hv : w = v := ho.ext_coord hfirst (congrArg Prod.fst hkey) (congrArg Prod.snd hkey)
      exact hv ▸ hw
    · exact fun hv => ⟨v, ⟨hv, rfl⟩, rfl⟩
  · refine ⟨fun h => by simp at h, fun hv => absurd (mem_coordinatesBetween.2 (hin v hv)) hk⟩

end Directory

end VoxelAlgebra
