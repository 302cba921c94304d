import Mathlib.Data.List.Chain
import Mathlib.Data.List.Nodup
import VoxelAlgebra.Proofs.Grid.Segment

/-!
# Segments step by step

A segment makes as many steps as the largest change on an axis. At step `i` of `n` it has gone the
share `i / n` of the change of every axis, rounded toward the start. On an axis of the largest
change that is one unit a step, so no voxel comes twice; on no axis is it more.

Equal changes may be largest on several axes. The walk then goes through the same voxels along
each of them.

## Main definitions

* `Voxel.span` — the largest change of an axis.
* `segment_steps` — the voxels of a segment at every step.
-/

namespace VoxelAlgebra

namespace Voxel

/-- The largest size of a coordinate. -/
def span (v : Voxel) : Nat :=
  max (max (v.coord .x).natAbs (v.coord .y).natAbs) (v.coord .z).natAbs

theorem natAbs_coord_le_span (v : Voxel) (a : Axis) : (v.coord a).natAbs ≤ v.span := by
  cases a <;> simp only [span] <;> omega

theorem exists_natAbs_coord_eq_span (v : Voxel) : ∃ a, (v.coord a).natAbs = v.span := by
  obtain h | h | h : v.span = (v.coord .x).natAbs ∨ v.span = (v.coord .y).natAbs ∨
      v.span = (v.coord .z).natAbs := by
    simp only [span]
    omega
  · exact ⟨.x, h.symm⟩
  · exact ⟨.y, h.symm⟩
  · exact ⟨.z, h.symm⟩

theorem span_sub_comm (v w : Voxel) : (v - w).span = (w - v).span := by
  simp only [span, coord_sub]
  omega

theorem span_eq_zero {v : Voxel} : v.span = 0 ↔ v = zero := by
  constructor
  · intro h
    refine ext_coord fun a => ?_
    have ha := v.natAbs_coord_le_span a
    rw [coord_zero]
    omega
  · rintro rfl
    rfl

end Voxel

variable {start finish : Voxel}

theorem segmentLength_eq_span (start finish : Voxel) :
    segmentLength start finish = (finish - start).span := by
  obtain ⟨a, ha⟩ := (finish - start).exists_natAbs_coord_eq_span
  apply Nat.le_antisymm
  · exact (finish - start).natAbs_coord_le_span _
  · rw [← ha]
    exact natAbs_le_segmentLength start finish a

/-! ## Shares -/

theorem share_succ_le {d n : Nat} (hd : d ≤ n) (i : Nat) : (i + 1) * d / n ≤ i * d / n + 1 := by
  rcases Nat.eq_zero_or_pos n with rfl | hn
  · simp
  · calc (i + 1) * d / n ≤ (i * d + n) / n := by
          rw [Nat.succ_mul]
          exact Nat.div_le_div_right (Nat.add_le_add_left hd _)
      _ = i * d / n + 1 := Nat.add_div_right _ hn

theorem add_sign_mul_inj {c d : Int} (hd : d ≠ 0) {q r : Nat} :
    c + d.sign * q = c + d.sign * r ↔ q = r := by
  rw [Int.add_right_inj, Int.mul_eq_mul_left_iff (mt Int.sign_eq_zero_iff_zero.1 hd),
    Int.natCast_inj]

/-- A step changes no coordinate by more than one. -/
theorem natAbs_stepVoxel_succ_sub_le {change : Voxel} {n : Nat} {a : Axis}
    (ha : (change.coord a).natAbs ≤ n) (i : Nat) :
    ((stepVoxel start change n (i + 1)).coord a -
      (stepVoxel start change n i).coord a).natAbs ≤ 1 := by
  have hle : i * (change.coord a).natAbs / n ≤ (i + 1) * (change.coord a).natAbs / n :=
    Nat.div_le_div_right (Nat.mul_le_mul_right _ i.le_succ)
  have hsucc := share_succ_le ha i
  rw [coord_stepVoxel, coord_stepVoxel]
  generalize i * (change.coord a).natAbs / n = q at hle hsucc ⊢
  generalize (i + 1) * (change.coord a).natAbs / n = r at hle hsucc ⊢
  rcases Int.sign_trichotomy (change.coord a) with h | h | h <;> rw [h] <;> omega

/-- On an axis of the largest change every step goes on, so a position tells its step. -/
theorem stepVoxel_inj {change : Voxel} {n i j : Nat} {a : Axis} (ha : (change.coord a).natAbs = n)
    (hn : 0 < n) (h : stepVoxel start change n i = stepVoxel start change n j) : i = j := by
  have hcoord := congrArg (Voxel.coord · a) h
  have hchange : change.coord a ≠ 0 := by omega
  simpa only [coord_stepVoxel, ha, Nat.mul_div_cancel _ hn, add_sign_mul_inj hchange] using hcoord

/-! ## The voxels of a segment -/

theorem length_segment (start finish : Voxel) :
    (segment start finish).length = (finish - start).span + 1 := by
  rw [segment_eq, List.length_map, List.length_range, segmentLength_eq_span]

theorem getElem?_segment {i : Nat} (hi : i ≤ (finish - start).span) :
    (segment start finish)[i]? =
      some (stepVoxel start (finish - start) (finish - start).span i) := by
  rw [segment_eq, segmentLength_eq_span, List.getElem?_map, List.getElem?_range (by omega)]
  rfl

/-- The voxels are the same along every axis of the largest change. -/
theorem segmentAlong_of_span {major : Axis}
    (h : ((finish - start).coord major).natAbs = (finish - start).span) :
    segmentAlong major start finish = segment start finish := by
  have hmajor (a : Axis) :
      ((finish - start).coord a).natAbs ≤ ((finish - start).coord major).natAbs := by
    rw [h]
    exact (finish - start).natAbs_coord_le_span a
  rw [segmentAlong_eq hmajor, segment_eq, segmentLength_eq_span, h]

theorem nodup_segment (start finish : Voxel) : (segment start finish).Nodup := by
  obtain ⟨a, ha⟩ := (finish - start).exists_natAbs_coord_eq_span
  rw [segment_eq, segmentLength_eq_span]
  refine List.nodup_range.map_on fun i hi j hj h => ?_
  rw [List.mem_range] at hi hj
  rcases Nat.eq_zero_or_pos (finish - start).span with hn | hn
  · omega
  · exact stepVoxel_inj ha hn h

/-- Neighbours in a segment are at most one apart on every axis. -/
theorem isChain_segment (start finish : Voxel) :
    (segment start finish).IsChain fun v w => ∀ a, (w.coord a - v.coord a).natAbs ≤ 1 := by
  rw [segment_eq, List.isChain_map, List.isChain_iff_getElem]
  intro i hi a
  rw [List.getElem_range, List.getElem_range]
  exact natAbs_stepVoxel_succ_sub_le (natAbs_le_segmentLength start finish a) i

/-- A segment has one voxel for each step and one for its start. At step `i` of `n` every coordinate
has gone its share `i / n` of the change, rounded toward the start, whichever axis of the largest
change the walk goes along. So the segment leads from start to finish without coming to a voxel
twice, by steps of at most one on every axis, and goes along when its ends are moved. -/
theorem segment_steps (start finish : Voxel) :
    (segment start finish).length = (finish - start).span + 1 ∧
    (∀ i ≤ (finish - start).span, (segment start finish)[i]? = some (.ofCoords fun a =>
      start.coord a + ((finish - start).coord a).sign *
        ((i * ((finish - start).coord a).natAbs / (finish - start).span : Nat) : Int))) ∧
    ((finish - start).span = 0 → segment start finish = [finish]) ∧
    (∀ major, ((finish - start).coord major).natAbs = (finish - start).span →
      segmentAlong major start finish = segment start finish) ∧
    (segment start finish).head? = some start ∧
    (segment start finish).getLast? = some finish ∧
    (segment start finish).Nodup ∧
    (segment start finish).IsChain (fun v w => ∀ a, (w.coord a - v.coord a).natAbs ≤ 1) ∧
    ∀ t, segment (start + t) (finish + t) = (segment start finish).map (· + t) := by
  refine ⟨length_segment start finish, ?_, ?_, ?_, head?_segment start finish,
    getLast?_segment start finish, nodup_segment start finish, isChain_segment start finish,
    segment_add start finish⟩
  · intro i hi
    exact getElem?_segment hi
  · intro h
    obtain rfl : start = finish := by
      rw [← Voxel.sub_add_cancel finish start, Voxel.span_eq_zero.1 h, Voxel.zero_add]
    exact segment_self start
  · intro major h
    exact segmentAlong_of_span h

/-- Here the changes on x and y are equal, and the walk along x takes the same way as that along
y. -/
theorem segment_steps_tied :
    segmentAlong .x ⟨1, -2, 3⟩ ⟨-3, 2, 0⟩ = segmentAlong .y ⟨1, -2, 3⟩ ⟨-3, 2, 0⟩ ∧
    (segment ⟨1, -2, 3⟩ ⟨-3, 2, 0⟩)[3]? = some ⟨-2, 1, 1⟩ := by
  obtain ⟨-, hsteps, -, halong, -⟩ := segment_steps ⟨1, -2, 3⟩ ⟨-3, 2, 0⟩
  exact ⟨(halong .x (by decide)).trans (halong .y (by decide)).symm, hsteps 3 (by decide)⟩

end VoxelAlgebra
