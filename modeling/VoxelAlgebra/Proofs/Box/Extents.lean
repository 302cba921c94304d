import Mathlib.Order.Basic
import Mathlib.Tactic.SplitIfs
import VoxelAlgebra.Box.Basic
import VoxelAlgebra.Proofs.Edit

/-!
# Least boxes

The box around voxels is the least one: it contains all of them, and each of its faces touches one.

## Main definitions

* `Extents.Holds` — a voxel lies between the extents, the faces included.
* `Extents.IsLeast` — the least extents that hold voxels.
* `Box.ofVoxels_eq_ok`, `Box.exists_ofVoxels` — when there is a box around voxels, and which.
* `AxisOrder.IsOrder` — an order in which every axis occurs.
-/

namespace VoxelAlgebra

/-! ## Orders of the axes -/

def AxisOrder.IsOrder (o : AxisOrder) : Prop := ∀ a, a = o.first ∨ a = o.second ∨ a = o.third

theorem AxisOrder.isOrder_byDecreasing (size : Axis → Int) : (byDecreasing size).IsOrder := by
  unfold byDecreasing IsOrder
  split_ifs <;> intro a <;> cases a <;> decide

theorem AxisOrder.IsOrder.ext_coord {o : AxisOrder} (ho : o.IsOrder) {v w : Voxel}
    (h₁ : v.coord o.first = w.coord o.first) (h₂ : v.coord o.second = w.coord o.second)
    (h₃ : v.coord o.third = w.coord o.third) : v = w :=
  Voxel.ext_coord fun a => by obtain rfl | rfl | rfl := ho a <;> assumption

theorem AxisOrder.IsOrder.second_ne_first {o : AxisOrder} (ho : o.IsOrder) :
    o.second ≠ o.first := by
  intro h
  have hx := ho .x
  have hy := ho .y
  have hz := ho .z
  rw [h] at hx hy hz
  cases hf : o.first <;> cases ht : o.third <;> simp [hf, ht] at hx hy hz

/-- The first axis has the largest size. -/
theorem AxisOrder.size_le_first (size : Axis → Int) (a : Axis) :
    size a ≤ size (byDecreasing size).first := by
  unfold byDecreasing
  split_ifs <;> cases a <;> simp only <;> omega

namespace Extents

def Holds (e : Extents) (v : Voxel) : Prop :=
  ∀ a, e.low.coord a ≤ v.coord a ∧ v.coord a ≤ e.high.coord a

/-- The extents hold the voxels, and every face touches one of them. -/
structure IsLeast (e : Extents) (voxels : List Voxel) : Prop where
  holds : ∀ v ∈ voxels, e.Holds v
  low : ∀ a, ∃ v ∈ voxels, v.coord a = e.low.coord a
  high : ∀ a, ∃ v ∈ voxels, v.coord a = e.high.coord a

theorem isLeast_singleton (v : Voxel) : IsLeast ⟨v, v⟩ [v] where
  holds w hw a := by
    rw [List.mem_singleton.1 hw]
    exact ⟨Int.le_refl _, Int.le_refl _⟩
  low a := ⟨v, List.mem_singleton_self v, rfl⟩
  high a := ⟨v, List.mem_singleton_self v, rfl⟩

theorem IsLeast.extend {e : Extents} {voxels : List Voxel} (h : e.IsLeast voxels) (w : Voxel) :
    (e.extend w).IsLeast (voxels ++ [w]) where
  holds v hv a := by
    simp only [Extents.extend, Voxel.coord_ofCoords]
    obtain hv | hv := List.mem_append.1 hv
    · have := h.holds v hv a
      omega
    · rw [List.mem_singleton.1 hv]
      omega
  low a := by
    obtain ⟨v, hv, hlow⟩ := h.low a
    simp only [Extents.extend, Voxel.coord_ofCoords]
    obtain hle | hle := Int.le_total (e.low.coord a) (w.coord a)
    · exact ⟨v, List.mem_append_left _ hv, by omega⟩
    · exact ⟨w, by simp, by omega⟩
  high a := by
    obtain ⟨v, hv, hhigh⟩ := h.high a
    simp only [Extents.extend, Voxel.coord_ofCoords]
    obtain hle | hle := Int.le_total (e.high.coord a) (w.coord a)
    · exact ⟨w, by simp, by omega⟩
    · exact ⟨v, List.mem_append_left _ hv, by omega⟩

theorem isLeast_around (v : Voxel) (rest : List Voxel) :
    (around v rest).IsLeast (v :: rest) := by
  have hfold : ∀ (rest seen : List Voxel) (e : Extents), e.IsLeast seen →
      (rest.foldl Extents.extend e).IsLeast (seen ++ rest) := by
    intro rest
    induction rest with
    | nil =>
      intro seen e h
      rwa [List.append_nil]
    | cons w rest ih =>
      intro seen e h
      simpa using ih _ _ (h.extend w)
  exact hfold rest [v] _ (isLeast_singleton v)

theorem exists_isLeast {voxels : List Voxel} (hne : voxels ≠ []) :
    ∃ e : Extents, e.IsLeast voxels := by
  obtain ⟨v, rest, rfl⟩ := List.exists_cons_of_ne_nil hne
  exact ⟨_, isLeast_around v rest⟩

theorem IsLeast.unique {e e' : Extents} {voxels : List Voxel} (h : e.IsLeast voxels)
    (h' : e'.IsLeast voxels) : e = e' := by
  have hlow : e.low = e'.low := Voxel.ext_coord fun a => by
    obtain ⟨v, hv, hlow⟩ := h.low a
    obtain ⟨v', hv', hlow'⟩ := h'.low a
    have := h.holds v' hv' a
    have := h'.holds v hv a
    omega
  have hhigh : e.high = e'.high := Voxel.ext_coord fun a => by
    obtain ⟨v, hv, hhigh⟩ := h.high a
    obtain ⟨v', hv', hhigh'⟩ := h'.high a
    have := h.holds v' hv' a
    have := h'.holds v hv a
    omega
  cases e
  cases e'
  simp_all

/-- More voxels that the extents hold change nothing. -/
theorem IsLeast.of_subset {e : Extents} {voxels voxels' : List Voxel} (h : e.IsLeast voxels)
    (hsub : ∀ v ∈ voxels, v ∈ voxels') (hholds : ∀ v ∈ voxels', e.Holds v) :
    e.IsLeast voxels' where
  holds := hholds
  low a := (h.low a).imp fun v hv => ⟨hsub v hv.1, hv.2⟩
  high a := (h.high a).imp fun v hv => ⟨hsub v hv.1, hv.2⟩

/-- Only the voxels matter, not their order or number. -/
theorem IsLeast.congr {e : Extents} {voxels voxels' : List Voxel} (h : e.IsLeast voxels)
    (hmem : ∀ v, v ∈ voxels ↔ v ∈ voxels') : e.IsLeast voxels' :=
  h.of_subset (fun v => (hmem v).1) fun v hv => h.holds v ((hmem v).2 hv)

/-- Lists that have the same least extents one by one have the same least extents together. -/
theorem IsLeast.of_forall₂ {e : Extents} {parts parts' : List (List Voxel)}
    (h : e.IsLeast parts.flatten)
    (hparts : List.Forall₂ (fun p p' => ∃ e' : Extents, e'.IsLeast p ∧ e'.IsLeast p')
      parts parts') : e.IsLeast parts'.flatten := by
  have hleft : ∀ p' ∈ parts', ∃ p ∈ parts, ∃ e' : Extents, e'.IsLeast p ∧ e'.IsLeast p' :=
    fun _ => exists_mem_of_forall₂ hparts
  have hright : ∀ p ∈ parts, ∃ p' ∈ parts', ∃ e' : Extents, e'.IsLeast p ∧ e'.IsLeast p' :=
    fun _ => exists_mem_of_forall₂ hparts.flip
  constructor
  · intro v hv a
    obtain ⟨p', hp', hv⟩ := List.mem_flatten.1 hv
    obtain ⟨p, hp, e', he, he'⟩ := hleft p' hp'
    obtain ⟨x, hx, hlow⟩ := he.low a
    obtain ⟨y, hy, hhigh⟩ := he.high a
    have hxe := h.holds x (List.mem_flatten_of_mem hp hx) a
    have hye := h.holds y (List.mem_flatten_of_mem hp hy) a
    have := he'.holds v hv a
    omega
  · intro a
    obtain ⟨v, hv, hlow⟩ := h.low a
    obtain ⟨p, hp, hv⟩ := List.mem_flatten.1 hv
    obtain ⟨p', hp', e', he, he'⟩ := hright p hp
    obtain ⟨w, hw, hwlow⟩ := he'.low a
    obtain ⟨x, hx, hxlow⟩ := he.low a
    have hve := he.holds v hv a
    have hxe := h.holds x (List.mem_flatten_of_mem hp hx) a
    exact ⟨w, List.mem_flatten_of_mem hp' hw, by omega⟩
  · intro a
    obtain ⟨v, hv, hhigh⟩ := h.high a
    obtain ⟨p, hp, hv⟩ := List.mem_flatten.1 hv
    obtain ⟨p', hp', e', he, he'⟩ := hright p hp
    obtain ⟨w, hw, hwhigh⟩ := he'.high a
    obtain ⟨x, hx, hxhigh⟩ := he.high a
    have hve := he.holds v hv a
    have hxe := h.holds x (List.mem_flatten_of_mem hp hx) a
    exact ⟨w, List.mem_flatten_of_mem hp' hw, by omega⟩

theorem corners_flb (e : Extents) : e.corners.flb = e.low :=
  Voxel.ext_coord fun a => by
    have h : e.corners.flb = e.corner .flb := rfl
    rw [h, corner, Voxel.coord_ofCoords]
    cases a <;> rfl

theorem corners_brt (e : Extents) : e.corners.brt = e.high :=
  Voxel.ext_coord fun a => by
    have h : e.corners.brt = e.corner .brt := rfl
    rw [h, corner, Voxel.coord_ofCoords]
    cases a <;> rfl

end Extents

namespace Box

theorem ofVoxels_eq_ok {voxels : List Voxel} {b : Box} (h : ofVoxels voxels = .ok b) :
    ∃ e : Extents, b = ofExtents e ∧ e.IsLeast voxels ∧ ∀ v ∈ voxels, v.InRange := by
  cases voxels with
  | nil => cases h
  | cons v rest =>
    simp only [ofVoxels, Extents.ofVoxels] at h
    split_ifs at h with hrange
    · cases h
      exact ⟨_, rfl, Extents.isLeast_around v rest, by simpa using hrange⟩
    · cases h

theorem exists_ofVoxels {voxels : List Voxel} (hne : voxels ≠ [])
    (hrange : ∀ v ∈ voxels, v.InRange) : ∃ b, ofVoxels voxels = .ok b := by
  obtain ⟨v, rest, rfl⟩ := List.exists_cons_of_ne_nil hne
  refine ⟨ofExtents (Extents.around v rest), ?_⟩
  have hall : (v :: rest).all (fun w => decide w.InRange) = true := by
    rw [List.all_eq_true]
    exact fun w hw => decide_eq_true (hrange w hw)
  simp only [ofVoxels, Extents.ofVoxels, hall, if_true]
  rfl

theorem isBetween_iff (low p high : Voxel) (a : Axis) :
    Id.run (isBetween low p high a) = true ↔
      low.coord a ≤ p.coord a ∧ p.coord a ≤ high.coord a := by
  by_cases h : low.coord a ≤ p.coord a
  · simp [isBetween, Coordinates.coord, h]
  · simp [isBetween, Coordinates.coord, h]

theorem allM_iff {β : Type} {f : β → Id Bool} {l : List β} :
    Id.run (l.allM f) = true ↔ ∀ b ∈ l, Id.run (f b) = true := by
  have h : l.allM f = pure (l.all fun b => Id.run (f b)) := List.allM_pure
  rw [h, Id.run_pure, List.all_eq_true]

/-- A box contains what lies between its lowest and its highest corner. -/
theorem contains_iff (b : Box) (v : Voxel) : b.contains v ↔
    ∀ a, b.corners.flb.coord a ≤ v.coord a ∧ v.coord a ≤ b.corners.brt.coord a := by
  have h : b.contains v = Id.run (Axis.all.allM fun a =>
    isBetween b.corners.flb v b.corners.brt a) := rfl
  rw [h, allM_iff]
  simp only [isBetween_iff]
  exact ⟨fun h a => h a a.mem_all, fun h a _ => h a⟩

theorem contains_ofExtents (e : Extents) (v : Voxel) : (ofExtents e).contains v ↔ e.Holds v := by
  rw [contains_iff]
  simp only [ofExtents, Extents.corners_flb, Extents.corners_brt, Extents.Holds]

end Box
end VoxelAlgebra
