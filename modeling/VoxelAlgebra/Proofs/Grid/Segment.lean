import Mathlib.Algebra.Order.Ring.Abs
import Mathlib.Algebra.Order.Ring.Int
import Mathlib.Tactic.Linarith
import Mathlib.Tactic.Ring
import VoxelAlgebra.Grid.Segment

/-!
# The voxels of a segment

The walk keeps the change that it has accumulated on every axis: what was moved, times the length of
the walk, and what is pending add up to the change of all steps so far. So the position at step `i`
is the start moved by the share `i / n` of the change, cut off toward the start.

In every row that a segment crosses it has a voxel less than one unit from where the straight line
crosses the row. A point of the grid on one side of the line is therefore on that side of a voxel.

## Main definitions

* `stepVoxel` — the position at a step.
* `segmentAlong_eq`, `segment_eq` — the voxels of a segment, step by step.
* `segment_add`, `segment_vector` — a segment between moved ends, and the path of a vector.
* `exists_mem_segment_near` — a voxel near the line in every row.
* `exists_le_mem_segment`, `exists_ge_mem_segment` — voxels on a side of a point.
-/

namespace VoxelAlgebra

/-- The position at step `i` of `n` steps with a change in all. -/
def stepVoxel (start change : Voxel) (n i : Nat) : Voxel :=
  Voxel.ofCoords fun a =>
    start.coord a + (change.coord a).sign * ((i * (change.coord a).natAbs / n : Nat) : Int)

@[simp] theorem coord_stepVoxel (start change : Voxel) (n i : Nat) (a : Axis) :
    (stepVoxel start change n i).coord a =
      start.coord a + (change.coord a).sign * ((i * (change.coord a).natAbs / n : Nat) : Int) := by
  simp [stepVoxel]

theorem natAbs_coord_le_dominantAxis (change : Voxel) (a : Axis) :
    (change.coord a).natAbs ≤ (change.coord (dominantAxis change)).natAbs := by
  simp only [dominantAxis]
  split_ifs <;> cases a <;> omega

/-! ## The walk -/

/-- The share of a step is one more than that of the step before if the change that is pending has
reached the length of the walk. -/
theorem share_step {d n : Nat} (hn : 0 < n) (hd : d ≤ n) (i : Nat) :
    i * d / n = if n ≤ i * d - n * ((i - 1) * d / n) then (i - 1) * d / n + 1
      else (i - 1) * d / n := by
  cases i with
  | zero => simp [Nat.not_le.2 hn]
  | succ i =>
    have hmod := Nat.div_add_mod (i * d) n
    have hlt := Nat.mod_lt (i * d) hn
    have hmul : (i + 1) * d = i * d + d := Nat.succ_mul i d
    simp only [Nat.add_sub_cancel]
    generalize i * d / n = q at hmod ⊢
    have hq : q * n = n * q := Nat.mul_comm q n
    have hq₁ : (q + 1) * n = n * q + n := by rw [Nat.succ_mul, hq]
    have hq₂ : (q + 1 + 1) * n = n * q + n + n := by rw [Nat.succ_mul, hq₁]
    split_ifs with h
    · exact Nat.div_eq_of_lt_le (by omega) (by omega)
    · exact Nat.div_eq_of_lt_le (by omega) (by omega)

namespace Walk

/-- A walk that is to make step `i`: it is where the step before has led, and what was moved and
what is pending add up to the change of all steps before. -/
structure IsBefore (start change : Voxel) (n i : Nat) (w : Walk) : Prop where
  position : w.position = stepVoxel start change n (i - 1)
  pending : ∀ a, w.pending a =
    i * (change.coord a).natAbs - n * ((i - 1) * (change.coord a).natAbs / n)

theorem isBefore_zero (start change : Voxel) (n : Nat) :
    IsBefore start change n 0 ⟨start, fun _ => 0⟩ :=
  ⟨Voxel.ext_coord fun a => by simp, fun a => by simp⟩

/-- A step leads to the next position. -/
theorem IsBefore.next {start change : Voxel} {major : Axis} {i : Nat} {w : Walk}
    (hn : 0 < (change.coord major).natAbs)
    (hmajor : ∀ a, (change.coord a).natAbs ≤ (change.coord major).natAbs)
    (h : IsBefore start change (change.coord major).natAbs i w) :
    (w.next start change major i).position =
        stepVoxel start change (change.coord major).natAbs i ∧
      IsBefore start change (change.coord major).natAbs (i + 1) (w.next start change major i) := by
  have hposition : (w.next start change major i).position =
      stepVoxel start change (change.coord major).natAbs i := by
    refine Voxel.ext_coord fun a => ?_
    simp only [Walk.next, Voxel.coord_ofCoords, coord_stepVoxel, h.position, h.pending,
      decide_eq_true_eq]
    split_ifs with ha hmoves
    · rw [ha, Nat.mul_div_cancel _ hn, Int.mul_comm]
    · rw [share_step hn (hmajor a) i, if_pos hmoves, Int.natCast_add, Int.mul_add]
      omega
    · rw [share_step hn (hmajor a) i, if_neg hmoves]
  refine ⟨hposition, hposition, fun a => ?_⟩
  have hpending : (w.next start change major i).pending a =
      (if (change.coord major).natAbs ≤ w.pending a then w.pending a - (change.coord major).natAbs
        else w.pending a) + (change.coord a).natAbs := by
    cases a <;> simp [Walk.next]
  rw [hpending, h.pending, Nat.add_sub_cancel, Nat.succ_mul, share_step hn (hmajor a) i]
  split_ifs with hmoves
  · rw [Nat.mul_succ]
    omega
  · have hle : (change.coord major).natAbs * ((i - 1) * (change.coord a).natAbs /
        (change.coord major).natAbs) ≤ i * (change.coord a).natAbs :=
      (Nat.mul_div_le _ _).trans (Nat.mul_le_mul_right _ (Nat.sub_le i 1))
    omega

theorem positions_eq {start change : Voxel} {major : Axis} {i : Nat} {w : Walk} (count : Nat)
    (hn : 0 < (change.coord major).natAbs)
    (hmajor : ∀ a, (change.coord a).natAbs ≤ (change.coord major).natAbs)
    (h : IsBefore start change (change.coord major).natAbs i w) :
    positions start change major count i w =
      (List.range' i count).map (stepVoxel start change (change.coord major).natAbs) := by
  induction count generalizing i w with
  | zero => rfl
  | succ count ih =>
    obtain ⟨hposition, hnext⟩ := h.next hn hmajor
    rw [positions, List.range'_succ, List.map_cons, hposition, ih hnext]

end Walk

/-! ## Segments -/

def segmentLength (start finish : Voxel) : Nat :=
  ((finish - start).coord (dominantAxis (finish - start))).natAbs

variable {start finish : Voxel}

theorem natAbs_le_segmentLength (start finish : Voxel) (a : Axis) :
    ((finish - start).coord a).natAbs ≤ segmentLength start finish :=
  natAbs_coord_le_dominantAxis (finish - start) a

/-- A walk along any axis of the largest change goes through the positions at its steps. -/
theorem segmentAlong_eq {major : Axis} (hmajor : ∀ a, ((finish - start).coord a).natAbs ≤
    ((finish - start).coord major).natAbs) : segmentAlong major start finish =
      (List.range (((finish - start).coord major).natAbs + 1)).map
        (stepVoxel start (finish - start) ((finish - start).coord major).natAbs) := by
  rw [segmentAlong]
  split_ifs with h
  · have hfinish : stepVoxel start (finish - start) 0 0 = finish := by
      refine Voxel.ext_coord fun a => ?_
      have ha := hmajor a
      rw [h, Voxel.coord_sub] at ha
      rw [coord_stepVoxel]
      simp
      omega
    simp [h, hfinish]
  · rw [List.range_eq_range']
    exact Walk.positions_eq _ (Int.natAbs_pos.2 h) hmajor (Walk.isBefore_zero _ _ _)

/-- The voxels of a segment are the positions at its steps. -/
theorem segment_eq (start finish : Voxel) : segment start finish =
    (List.range (segmentLength start finish + 1)).map
      (stepVoxel start (finish - start) (segmentLength start finish)) :=
  segmentAlong_eq (natAbs_le_segmentLength start finish)

theorem mem_segment {v : Voxel} : v ∈ segment start finish ↔
    ∃ i ≤ segmentLength start finish,
      stepVoxel start (finish - start) (segmentLength start finish) i = v := by
  simp only [segment_eq, List.mem_map, List.mem_range, Nat.lt_succ_iff]

theorem start_mem_segment (start finish : Voxel) : start ∈ segment start finish :=
  mem_segment.2 ⟨0, Nat.zero_le _, Voxel.ext_coord fun a => by simp⟩

theorem stepVoxel_segmentLength (start finish : Voxel) :
    stepVoxel start (finish - start) (segmentLength start finish) (segmentLength start finish) =
      finish := by
  refine Voxel.ext_coord fun a => ?_
  have ha := natAbs_le_segmentLength start finish a
  have hshare : segmentLength start finish * ((finish - start).coord a).natAbs /
      segmentLength start finish = ((finish - start).coord a).natAbs := by
    obtain h | h := Nat.eq_zero_or_pos (segmentLength start finish)
    · rw [h, Nat.zero_mul, Nat.zero_div]
      omega
    · exact Nat.mul_div_cancel_left _ h
  rw [coord_stepVoxel, hshare, Int.sign_mul_natAbs, Voxel.coord_sub]
  omega

theorem head?_segment (start finish : Voxel) : (segment start finish).head? = some start := by
  rw [segment_eq, List.range_succ_eq_map, List.map_cons, List.head?_cons]
  exact congrArg some (Voxel.ext_coord fun a => by simp)

theorem getLast?_segment (start finish : Voxel) :
    (segment start finish).getLast? = some finish := by
  rw [segment_eq, List.range_succ, List.map_append, List.map_singleton, List.getLast?_concat,
    stepVoxel_segmentLength]

theorem finish_mem_segment (start finish : Voxel) : finish ∈ segment start finish :=
  List.mem_of_getLast? (getLast?_segment start finish)

theorem share_le {i n d : Nat} (hi : i ≤ n) (hd : d ≤ n) : i * d / n ≤ d := by
  obtain rfl | hn := Nat.eq_zero_or_pos n
  · simp
  · exact Nat.div_le_of_le_mul (Nat.mul_le_mul_right d hi)

def IsBetween (m n k : Int) : Prop := m ≤ k ∧ k ≤ n ∨ n ≤ k ∧ k ≤ m

theorem isBetween_of_mem_segment {v : Voxel} (h : v ∈ segment start finish) (a : Axis) :
    IsBetween (start.coord a) (finish.coord a) (v.coord a) := by
  obtain ⟨i, hi, rfl⟩ := mem_segment.1 h
  have hshare := share_le hi (natAbs_le_segmentLength start finish a)
  rw [coord_stepVoxel, IsBetween]
  rw [Voxel.coord_sub] at hshare ⊢
  generalize i * (finish.coord a - start.coord a).natAbs / segmentLength start finish = q
    at hshare ⊢
  obtain h | h | h := Int.lt_trichotomy (finish.coord a - start.coord a) 0
  · rw [Int.sign_eq_neg_one_of_neg h]
    omega
  · rw [h, Int.sign_zero]
    omega
  · rw [Int.sign_eq_one_of_pos h]
    omega

/-! ## Moved segments -/

theorem stepVoxel_add (start change t : Voxel) (n i : Nat) :
    stepVoxel (start + t) change n i = stepVoxel start change n i + t :=
  Voxel.ext_coord fun a => by
    simp only [coord_stepVoxel, Voxel.coord_add]
    omega

/-- A segment goes along when its ends are moved. -/
theorem segment_add (start finish t : Voxel) :
    segment (start + t) (finish + t) = (segment start finish).map (· + t) := by
  have hlength : segmentLength (start + t) (finish + t) = segmentLength start finish := by
    rw [segmentLength, Voxel.add_sub_add_right, segmentLength]
  rw [segment_eq, segment_eq, hlength, Voxel.add_sub_add_right, List.map_map]
  exact List.map_congr_left fun i _ => stepVoxel_add start (finish - start) t _ i

/-- The segment from a voxel to its moved twin is the path of the vector. -/
theorem segment_vector (v vector : Voxel) :
    segment v (v + vector) = (segment .zero vector).map (v + ·) := by
  calc segment v (v + vector) = segment (.zero + v) (vector + v) := by
        rw [Voxel.zero_add, Voxel.add_comm]
    _ = (segment .zero vector).map (· + v) := segment_add .zero vector v
    _ = (segment .zero vector).map (v + ·) := List.map_congr_left fun p _ => Voxel.add_comm p v

theorem segment_self (v : Voxel) : segment v v = [v] := by
  have hlength : segmentLength v v = 0 := by
    simp [segmentLength]
  rw [segment_eq, hlength]
  refine congrArg ([·]) (Voxel.ext_coord fun a => ?_)
  simp

/-! ## Rows -/

/-- Some multiple of `d` is reached at `m`, and is less than one `d` beyond it. -/
theorem exists_le_mul_lt {d : Nat} (hd : 0 < d) (m : Nat) : ∃ i, m ≤ i * d ∧ i * d < m + d := by
  refine ⟨(m + d - 1) / d, ?_, ?_⟩
  · have hmod := Nat.div_add_mod (m + d - 1) d
    have hlt := Nat.mod_lt (m + d - 1) hd
    rw [Nat.mul_comm] at hmod
    omega
  · have := Nat.div_mul_le_self (m + d - 1) d
    omega

/-- A step that is less than one unit of an axis beyond a row has a share on another axis that is
less than one unit beyond the straight line. -/
theorem share_mul_lt {n d e i j : Nat} (hd : 0 < d) (hen : e ≤ n) (hi : i * d < j * n + d) :
    i * e / n * d < j * e + d := by
  obtain rfl | he := Nat.eq_zero_or_pos e
  · simpa using hd
  refine Nat.lt_of_mul_lt_mul_right (a := n) ?_
  calc i * e / n * d * n = i * e / n * n * d := by ring
    _ ≤ i * e * d := Nat.mul_le_mul_right d (Nat.div_mul_le_self (i * e) n)
    _ = i * d * e := by ring
    _ < (j * n + d) * e := Nat.mul_lt_mul_of_pos_right hi he
    _ = j * e * n + d * e := by ring
    _ ≤ j * e * n + d * n := Nat.add_le_add_left (Nat.mul_le_mul_left d hen) _
    _ = (j * e + d) * n := by ring

/-- A step that has come to a row has a share on another axis that is less than one unit short of
the straight line. -/
theorem lt_share_mul {n d e i j : Nat} (hn : 0 < n) (hd : 0 < d) (hi : j * n ≤ i * d) :
    j * e < i * e / n * d + d := by
  refine Nat.lt_of_mul_lt_mul_right (a := n) ?_
  calc j * e * n = j * n * e := by ring
    _ ≤ i * d * e := Nat.mul_le_mul_right e hi
    _ = i * e * d := by ring
    _ < (i * e / n * n + n) * d :=
      Nat.mul_lt_mul_of_pos_right (Nat.lt_div_mul_add (a := i * e) hn) hd
    _ = (i * e / n * d + d) * n := by ring

/-- Some step has the given share `j` on one axis, and a share on another axis that is less than one
unit from the straight line. -/
theorem exists_share_near {n d e j : Nat} (hd : 0 < d) (hdn : d ≤ n) (hen : e ≤ n) (hj : j ≤ d) :
    ∃ i ≤ n, i * d / n = j ∧ i * e / n * d < j * e + d ∧ j * e < i * e / n * d + d := by
  have hn : 0 < n := hd.trans_le hdn
  -- The first step that has gone at least as far as the row.
  obtain ⟨i, hlow, hhigh⟩ := exists_le_mul_lt hd (j * n)
  have hin : i ≤ n := by
    refine Nat.le_of_lt_add_one (Nat.lt_of_mul_lt_mul_right (a := d) ?_)
    calc i * d < j * n + d := hhigh
      _ ≤ d * n + d := Nat.add_le_add_right (Nat.mul_le_mul_right n hj) d
      _ = (n + 1) * d := by ring
  have hshare : i * d / n = j := Nat.div_eq_of_lt_le hlow (by rw [Nat.succ_mul]; omega)
  exact ⟨i, hin, hshare, share_mul_lt hd hen hhigh, lt_share_mul hn hd hlow⟩

theorem abs_sign_mul_sub_lt {d e : Int} {q j : Nat} (hlt : q * d.natAbs < j * e.natAbs + d.natAbs)
    (hgt : j * e.natAbs < q * d.natAbs + d.natAbs) :
    |e.sign * q * d - d.sign * j * e| < |d| := by
  have heq : e.sign * q * d - d.sign * j * e =
      d.sign * e.sign * ((q * d.natAbs : Nat) - (j * e.natAbs : Nat) : Int) := by
    nth_rewrite 1 [← Int.sign_mul_natAbs d]
    nth_rewrite 2 [← Int.sign_mul_natAbs e]
    push_cast
    ring
  have hsign : |d.sign * e.sign| ≤ 1 := by
    obtain hd | hd | hd := Int.sign_trichotomy d <;>
      obtain he | he | he := Int.sign_trichotomy e <;>
      simp [hd, he]
  calc |e.sign * q * d - d.sign * j * e|
      = |d.sign * e.sign| * |((q * d.natAbs : Nat) - (j * e.natAbs : Nat) : Int)| := by
        rw [heq, abs_mul]
    _ ≤ 1 * |((q * d.natAbs : Nat) - (j * e.natAbs : Nat) : Int)| :=
        mul_le_mul_of_nonneg_right hsign (abs_nonneg _)
    _ < |d| := by
        rw [one_mul, Int.abs_eq_natAbs d, abs_lt]
        omega

/-- In every row of an axis `b` that a segment crosses it has a voxel less than one unit along an
axis `c` from the straight line. -/
theorem exists_mem_segment_near {b : Axis} {r : Int} (c : Axis)
    (hb : start.coord b ≠ finish.coord b)
    (hr : IsBetween (start.coord b) (finish.coord b) r) :
    ∃ v ∈ segment start finish, v.coord b = r ∧
      |(v.coord c - start.coord c) * (finish.coord b - start.coord b) -
        (r - start.coord b) * (finish.coord c - start.coord c)| <
        |finish.coord b - start.coord b| := by
  have hbn := natAbs_le_segmentLength start finish b
  have hcn := natAbs_le_segmentLength start finish c
  rw [Voxel.coord_sub] at hbn hcn
  have hpos : 0 < (finish.coord b - start.coord b).natAbs := by omega
  have hj : (r - start.coord b).natAbs ≤ (finish.coord b - start.coord b).natAbs := by
    unfold IsBetween at hr
    omega
  obtain ⟨i, hi, hshare, hlt, hgt⟩ := exists_share_near hpos hbn hcn hj
  have hrow : r - start.coord b =
      (finish.coord b - start.coord b).sign * ((r - start.coord b).natAbs : Int) := by
    unfold IsBetween at hr
    obtain h | h := lt_or_gt_of_ne (sub_ne_zero.2 hb.symm)
    · rw [Int.sign_eq_neg_one_of_neg h]
      omega
    · rw [Int.sign_eq_one_of_pos h]
      omega
  refine ⟨_, mem_segment.2 ⟨i, hi, rfl⟩, ?_, ?_⟩
  · rw [coord_stepVoxel, Voxel.coord_sub, hshare, ← hrow]
    omega
  · rw [coord_stepVoxel, Voxel.coord_sub, add_sub_cancel_left, hrow]
    generalize i * (finish.coord c - start.coord c).natAbs / segmentLength start finish = q
      at hlt hgt ⊢
    exact abs_sign_mul_sub_lt hlt hgt

/-- A segment passes every number between the coordinates of its ends. -/
theorem exists_mem_segment_coord {a : Axis} {k : Int}
    (h : IsBetween (start.coord a) (finish.coord a) k) :
    ∃ v ∈ segment start finish, v.coord a = k := by
  by_cases heq : start.coord a = finish.coord a
  · refine ⟨start, start_mem_segment start finish, ?_⟩
    unfold IsBetween at h
    omega
  · obtain ⟨v, hv, hk, -⟩ := exists_mem_segment_near a heq h
    exact ⟨v, hv, hk⟩

/-- On which side of the line from `start` to `finish` a point lies in the plane of two axes. -/
def side (b c : Axis) (start finish p : Voxel) : Int :=
  (p.coord c - start.coord c) * (finish.coord b - start.coord b) -
    (p.coord b - start.coord b) * (finish.coord c - start.coord c)

/-- The segment has a voxel in the row of a point, below the point if the line is. -/
theorem exists_le_mem_segment {b c : Axis} {p : Voxel} (hb : start.coord b ≠ finish.coord b)
    (hr : IsBetween (start.coord b) (finish.coord b) (p.coord b))
    (hside : 0 ≤ side b c start finish p * (finish.coord b - start.coord b)) :
    ∃ v ∈ segment start finish, v.coord b = p.coord b ∧ v.coord c ≤ p.coord c := by
  obtain ⟨v, hv, hvb, hnear⟩ := exists_mem_segment_near c hb hr
  refine ⟨v, hv, hvb, ?_⟩
  by_contra hlt
  have hgap : p.coord c - v.coord c ≤ -1 := by omega
  rw [side] at hside
  rw [abs_lt] at hnear
  obtain hd | hd := lt_or_gt_of_ne (sub_ne_zero.2 hb.symm)
  · rw [abs_of_neg hd] at hnear
    nlinarith [nonpos_of_mul_nonneg_left hside hd]
  · rw [abs_of_pos hd] at hnear
    nlinarith [nonneg_of_mul_nonneg_left hside hd]

/-- The segment has a voxel in the row of a point, above the point if the line is. -/
theorem exists_ge_mem_segment {b c : Axis} {p : Voxel} (hb : start.coord b ≠ finish.coord b)
    (hr : IsBetween (start.coord b) (finish.coord b) (p.coord b))
    (hside : side b c start finish p * (finish.coord b - start.coord b) ≤ 0) :
    ∃ v ∈ segment start finish, v.coord b = p.coord b ∧ p.coord c ≤ v.coord c := by
  obtain ⟨v, hv, hvb, hnear⟩ := exists_mem_segment_near c hb hr
  refine ⟨v, hv, hvb, ?_⟩
  by_contra hlt
  have hgap : 1 ≤ p.coord c - v.coord c := by omega
  rw [side, ← neg_nonneg, ← neg_mul] at hside
  rw [abs_lt] at hnear
  obtain hd | hd := lt_or_gt_of_ne (sub_ne_zero.2 hb.symm)
  · rw [abs_of_neg hd] at hnear
    nlinarith [nonpos_of_mul_nonneg_left hside hd]
  · rw [abs_of_pos hd] at hnear
    nlinarith [nonneg_of_mul_nonneg_left hside hd]

end VoxelAlgebra
