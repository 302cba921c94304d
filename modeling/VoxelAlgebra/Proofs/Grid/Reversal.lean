import Mathlib.Algebra.Order.Floor.Div
import VoxelAlgebra.Proofs.Grid.Steps

/-!
# Segments traced backward

A segment rounds the share of every step toward its start. Traced backward it rounds toward what was
its finish, so at the same step of the way the two walks are apart on every axis on which the share
is not whole. They are the same only if every axis changes by nothing or by one at each step.

## Main definitions

* `stepVoxelAhead` — the position at a step, rounded toward the finish.
* `unevenSteps` — the steps with a share that is not whole.
* `reverse_segment_eq_iff` — the segments that are the same in both directions.
* `filter_segment_notMem` — the voxels that only the way back has.
-/

namespace VoxelAlgebra

/-- The position at step `i` of `n` steps, rounded toward the finish. -/
def stepVoxelAhead (start change : Voxel) (n i : Nat) : Voxel :=
  Voxel.ofCoords fun a =>
    start.coord a + (change.coord a).sign * ((i * (change.coord a).natAbs ⌈/⌉ n : Nat) : Int)

@[simp] theorem coord_stepVoxelAhead (start change : Voxel) (n i : Nat) (a : Axis) :
    (stepVoxelAhead start change n i).coord a =
      start.coord a +
        (change.coord a).sign * ((i * (change.coord a).natAbs ⌈/⌉ n : Nat) : Int) := by
  simp [stepVoxelAhead]

/-- The steps of a change at which the share of some axis is not whole. -/
def unevenSteps (change : Voxel) : List Nat :=
  (List.range (change.span + 1)).filter fun i =>
    Axis.all.any fun a => ¬ change.span ∣ i * (change.coord a).natAbs

variable {start finish : Voxel} {n i d : Nat}

/-! ## Rounding -/

theorem ceilDiv_eq_div_iff {m : Nat} (hn : 0 < n) : m ⌈/⌉ n = m / n ↔ n ∣ m := by
  rw [Nat.ceilDiv_eq_add_pred_div]
  have hmod := Nat.div_add_mod m n
  have hlt := Nat.mod_lt m hn
  constructor
  · intro h
    have hceil := Nat.lt_mul_div_succ (m + n - 1) hn
    rw [h, Nat.mul_succ] at hceil
    exact Nat.dvd_of_mod_eq_zero (by omega)
  · rintro ⟨k, rfl⟩
    rw [Nat.mul_div_cancel_left k hn]
    refine Nat.div_eq_of_lt_le ?_ ?_
    · rw [Nat.mul_comm]
      omega
    · rw [Nat.succ_mul, Nat.mul_comm]
      omega

/-- What the way back has gone, rounded down, and what the way there has gone, rounded up, make up
the whole change. -/
theorem share_add_ceilDiv (hn : 0 < n) (hi : i ≤ n) : (n - i) * d / n + i * d ⌈/⌉ n = d := by
  have hle : i * d ≤ n * d := Nat.mul_le_mul_right d hi
  have hlow := Nat.div_mul_le_self ((n - i) * d) n
  have hhigh := Nat.lt_div_mul_add (a := (n - i) * d) hn
  rw [Nat.sub_mul] at hlow hhigh ⊢
  generalize (n * d - i * d) / n = q at hlow hhigh ⊢
  have hq : q ≤ d := by
    refine Nat.le_of_mul_le_mul_right (c := n) ?_ hn
    rw [Nat.mul_comm d]
    omega
  have hmul : (d - q) * n = n * d - q * n := by rw [Nat.sub_mul, Nat.mul_comm d]
  have hceil : i * d ⌈/⌉ n = d - q := by
    rw [Nat.ceilDiv_eq_add_pred_div]
    refine Nat.div_eq_of_lt_le ?_ ?_
    · omega
    · rw [Nat.succ_mul]
      omega
  omega

theorem dvd_sub_mul_iff (hi : i ≤ n) : n ∣ (n - i) * d ↔ n ∣ i * d := by
  rw [Nat.sub_mul]
  exact Nat.dvd_sub_iff_right (Nat.mul_le_mul_right d hi) (Nat.dvd_mul_right n d)

/-! ## The way back -/

/-- The way back comes to the positions of the way there, rounded toward the finish. -/
theorem stepVoxel_backward (hn : 0 < n) (hi : i ≤ n) :
    stepVoxel finish (start - finish) n (n - i) =
      stepVoxelAhead start (finish - start) n i := by
  refine Voxel.ext_coord fun a => ?_
  rw [coord_stepVoxel, coord_stepVoxelAhead, Voxel.coord_sub, Voxel.coord_sub]
  have habs : (start.coord a - finish.coord a).natAbs =
      (finish.coord a - start.coord a).natAbs := by
    omega
  have hshare := share_add_ceilDiv (d := (finish.coord a - start.coord a).natAbs) hn hi
  rw [habs]
  generalize (n - i) * (finish.coord a - start.coord a).natAbs / n = q at hshare ⊢
  generalize i * (finish.coord a - start.coord a).natAbs ⌈/⌉ n = r at hshare ⊢
  rcases Int.lt_trichotomy (start.coord a) (finish.coord a) with h | h | h
  · rw [Int.sign_eq_neg_one_of_neg (by omega), Int.sign_eq_one_of_pos (by omega)]
    omega
  · rw [h, sub_self, Int.sign_zero]
    omega
  · rw [Int.sign_eq_one_of_pos (by omega), Int.sign_eq_neg_one_of_neg (by omega)]
    omega

theorem getElem?_segment_backward (hn : 0 < (finish - start).span)
    (hi : i ≤ (finish - start).span) :
    (segment finish start)[(finish - start).span - i]? =
      some (stepVoxelAhead start (finish - start) (finish - start).span i) := by
  rw [← stepVoxel_backward hn hi, Voxel.span_sub_comm finish start]
  exact getElem?_segment (Nat.sub_le _ i)

theorem stepVoxelAhead_eq_iff {change : Voxel} (hn : 0 < n) :
    stepVoxelAhead start change n i = stepVoxel start change n i ↔
      ∀ a, n ∣ i * (change.coord a).natAbs := by
  constructor
  · intro h a
    have hcoord := congrArg (Voxel.coord · a) h
    simp only [coord_stepVoxelAhead, coord_stepVoxel] at hcoord
    rcases eq_or_ne (change.coord a) 0 with ha | ha
    · simp [ha]
    · rwa [add_sign_mul_inj ha, ceilDiv_eq_div_iff hn] at hcoord
  · intro h
    refine Voxel.ext_coord fun a => ?_
    rw [coord_stepVoxelAhead, coord_stepVoxel, (ceilDiv_eq_div_iff hn).2 (h a)]

/-- The way back is the reverse of the way there only if every axis keeps still or goes on at every
step. -/
theorem reverse_segment_eq_iff (hn : 0 < (finish - start).span) :
    (segment finish start).reverse = segment start finish ↔
      ∀ a, ((finish - start).coord a).natAbs = 0 ∨
        ((finish - start).coord a).natAbs = (finish - start).span := by
  have hlength : (segment finish start).length = (finish - start).span + 1 := by
    rw [length_segment, Voxel.span_sub_comm]
  have hreverse (i : Nat) (hi : i ≤ (finish - start).span) :
      (segment finish start).reverse[i]? =
        some (stepVoxelAhead start (finish - start) (finish - start).span i) := by
    rw [List.getElem?_reverse (by omega), hlength, Nat.add_sub_cancel,
      getElem?_segment_backward hn hi]
  constructor
  · intro h a
    -- The first step is the one to look at: its share is whole only for the two changes.
    have hfirst := hreverse 1 hn
    rw [h, getElem?_segment hn, Option.some.injEq, eq_comm, stepVoxelAhead_eq_iff hn] at hfirst
    obtain ⟨k, hk⟩ := hfirst a
    have hle := (finish - start).natAbs_coord_le_span a
    rcases Nat.eq_zero_or_pos k with rfl | hpos
    · omega
    · have := Nat.le_mul_of_pos_right (finish - start).span hpos
      omega
  · intro h
    refine List.ext_getElem? fun i => ?_
    rcases Nat.lt_or_ge (finish - start).span i with hi | hi
    · rw [List.getElem?_eq_none (by simp; omega),
        List.getElem?_eq_none (by rw [length_segment]; omega)]
    · rw [hreverse i hi, getElem?_segment hi, Option.some.injEq, stepVoxelAhead_eq_iff hn]
      intro a
      rcases h a with ha | ha
      · rw [ha, Nat.mul_zero]
        exact Nat.dvd_zero _
      · rw [ha]
        exact Nat.dvd_mul_left _ i

/-! ## Voxels of the way back only -/

theorem mem_unevenSteps {change : Voxel} :
    i ∈ unevenSteps change ↔
      i ≤ change.span ∧ ∃ a, ¬ change.span ∣ i * (change.coord a).natAbs := by
  rw [unevenSteps, List.mem_filter, List.mem_range, Nat.lt_succ_iff]
  simp [Axis.mem_all]

/-- A position that is rounded toward the finish is on the way there only if there is nothing to
round. -/
theorem stepVoxelAhead_mem_segment (hn : 0 < (finish - start).span)
    (hi : i ≤ (finish - start).span) :
    stepVoxelAhead start (finish - start) (finish - start).span i ∈ segment start finish ↔
      ∀ a, (finish - start).span ∣ i * ((finish - start).coord a).natAbs := by
  rw [← @stepVoxelAhead_eq_iff start _ _ _ hn, mem_segment, segmentLength_eq_span]
  constructor
  · rintro ⟨k, -, hk⟩
    -- The two positions agree on an axis of the largest change, so they belong to one step.
    obtain ⟨a, ha⟩ := (finish - start).exists_natAbs_coord_eq_span
    have hcoord := congrArg (Voxel.coord · a) hk
    have hchange : (finish - start).coord a ≠ 0 := by omega
    simp only [coord_stepVoxel, coord_stepVoxelAhead, ha, add_sign_mul_inj hchange,
      (ceilDiv_eq_div_iff hn).2 (Nat.dvd_mul_left _ i), Nat.mul_div_cancel _ hn] at hcoord
    rw [← hk, hcoord]
  · intro h
    exact ⟨i, hi, h.symm⟩

/-- The voxels that only the way back has are those at the steps with a share that is not whole. -/
theorem filter_segment_notMem (hn : 0 < (finish - start).span) :
    (segment finish start).filter (· ∉ segment start finish) =
      (unevenSteps (finish - start)).filterMap ((segment finish start)[·]?) := by
  have hspan : (start - finish).span = (finish - start).span := Voxel.span_sub_comm start finish
  have hchosen : ∀ i ∈ List.range ((finish - start).span + 1),
      decide (stepVoxel finish (start - finish) (finish - start).span i ∉ segment start finish) =
        Axis.all.any fun a => ¬ (finish - start).span ∣ i * ((finish - start).coord a).natAbs := by
    intro i hi
    rw [List.mem_range] at hi
    have hback : stepVoxel finish (start - finish) (finish - start).span
        ((finish - start).span - ((finish - start).span - i)) =
      stepVoxelAhead start (finish - start) (finish - start).span ((finish - start).span - i) :=
      stepVoxel_backward hn (Nat.sub_le _ i)
    rw [Nat.sub_sub_self (by omega)] at hback
    rw [Bool.eq_iff_iff, decide_eq_true_iff, hback,
      stepVoxelAhead_mem_segment hn (Nat.sub_le _ i), List.any_eq_true]
    simp [Axis.mem_all, dvd_sub_mul_iff (Nat.le_of_lt_succ hi)]
  have hfound : ∀ i ∈ unevenSteps (finish - start), (segment finish start)[i]? =
      some (stepVoxel finish (start - finish) (finish - start).span i) := by
    intro i hi
    rw [← hspan]
    exact getElem?_segment (hspan ▸ (mem_unevenSteps.1 hi).1)
  calc (segment finish start).filter (· ∉ segment start finish)
      = (unevenSteps (finish - start)).map
          (stepVoxel finish (start - finish) (finish - start).span) := by
        rw [segment_eq finish start, segmentLength_eq_span, hspan, List.filter_map]
        exact congrArg _ (List.filter_congr hchosen)
    _ = (unevenSteps (finish - start)).filterMap fun i =>
          some (stepVoxel finish (start - finish) (finish - start).span i) :=
        (congrFun List.filterMap_eq_map' _).symm
    _ = (unevenSteps (finish - start)).filterMap ((segment finish start)[·]?) :=
        List.filterMap_congr fun i hi => (hfound i hi).symm

end VoxelAlgebra
