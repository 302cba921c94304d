import Mathlib.Tactic.LinearCombination
import VoxelAlgebra.Proofs.Edit
import VoxelAlgebra.Proofs.Grid.Hull

/-!
# Hulls are convex

A chain turns strictly to the left at every point that stays in it. Where the two chains of a hull
meet, the turn is strict as well, unless all points are on one line: the edges on both sides of an
end point leave to the same side of it, and each has all points to its left. A point that is not an
end is not on both chains, because the chains would have to run along one line there. So the corners
of a hull are different points, and they go round all points with strict turns.

## Main definitions

* `AreCollinear` — points on one line.
* `TurnsLeft` — a path with strict turns to the left.
* `IsConvexCycle` — the corners of a convex polygon around points.
* `IsArc`, `exists_hull_arcs` — the two ways between the ends of a hull.
* `hull_isConvexCycle` — the hull of given points.
-/

namespace VoxelAlgebra

open PlanePoint (Precedes)

def AreCollinear (points : List PlanePoint) : Prop :=
  ∀ p ∈ points, ∀ q ∈ points, ∀ r ∈ points, orientation p q r = 0

/-- Every three points that follow one another on a path turn strictly to the left. -/
def TurnsLeft (path : List PlanePoint) : Prop :=
  ∀ p q r, [p, q, r] <:+: path → orientation p q r < 0

/-- Different points as corners that turn strictly to the left all the way round, with all points to
the left of every edge or on it. -/
structure IsConvexCycle (points corners : List PlanePoint) : Prop where
  two_lt_length : 2 < corners.length
  mem : ∀ c ∈ corners, c ∈ points
  nodup : corners.Nodup
  turnsLeft : TurnsLeft (corners ++ corners.take 2)
  encloses : Encloses points (closed corners)

/-! ## Turns along a path -/

theorem turnsLeft_pair (p q : PlanePoint) : TurnsLeft [p, q] := by
  intro a b c h
  have := h.length_le
  simp at this

theorem turnsLeft_cons {p : PlanePoint} {path : List PlanePoint} :
    TurnsLeft (p :: path) ↔
      (∀ q r, [q, r] <+: path → orientation p q r < 0) ∧ TurnsLeft path := by
  constructor
  · intro h
    refine ⟨fun q r hqr => h p q r ?_, fun a b c habc => h a b c ?_⟩
    · exact (List.cons_prefix_cons.2 ⟨rfl, hqr⟩).isInfix
    · exact List.infix_cons_iff.2 (.inr habc)
  · rintro ⟨hfirst, hrest⟩ a b c habc
    obtain hpre | hin := List.infix_cons_iff.1 habc
    · obtain ⟨rfl, hbc⟩ := List.cons_prefix_cons.1 hpre
      exact hfirst b c hbc
    · exact hrest a b c hin

/-- Two paths can be joined at a point if the turn there is to the left. -/
theorem TurnsLeft.append {l r : List PlanePoint} {y : PlanePoint} (hl : TurnsLeft (l ++ [y]))
    (hr : TurnsLeft (y :: r)) (h : ∀ x ∈ l.getLast?, ∀ w ∈ r.head?, orientation x y w < 0) :
    TurnsLeft (l ++ y :: r) := by
  induction l with
  | nil => exact hr
  | cons x l ih =>
    rw [List.cons_append, turnsLeft_cons] at hl ⊢
    cases l with
    | nil =>
      refine ⟨fun q s hqs => ?_, hr⟩
      obtain ⟨rfl, hs⟩ := List.cons_prefix_cons.1 hqs
      obtain ⟨rest, rfl⟩ := hs
      exact h x rfl s rfl
    | cons x' l =>
      refine ⟨fun q s hqs => hl.1 q s ?_, ih hl.2 fun x hx => h x (by simpa using hx)⟩
      -- the first two points are in front of the join
      exact List.prefix_of_prefix_length_le hqs ⟨r, by simp⟩ (by simp)

theorem infix_of_getLast? {α : Type*} {l : List α} {x : α} (h : x ∈ l.getLast?) (y : α) :
    [x, y] <:+: l ++ [y] := by
  obtain ⟨before, rfl⟩ := List.getLast?_eq_some_iff.1 h
  exact ⟨before, [], by simp⟩

theorem infix_of_head? {α : Type*} {l : List α} {w : α} (h : w ∈ l.head?) (y : α) :
    [y, w] <:+: y :: l := by
  obtain ⟨rest, rfl⟩ := List.head?_eq_some_iff.1 h
  exact ⟨[], rest, rfl⟩

/-- A point between the ends of a path has a neighbour on both sides. -/
theorem exists_neighbours {α : Type*} {a z x : α} {middle : List α} (hx : x ∈ middle) :
    ∃ p n, [p, x, n] <:+: a :: (middle ++ [z]) := by
  obtain ⟨before, behind, rfl⟩ := List.append_of_mem hx
  obtain ⟨init, p, hp⟩ := ((a :: before).eq_nil_or_concat').resolve_left (List.cons_ne_nil a before)
  obtain ⟨n, rest, hn⟩ := List.exists_cons_of_ne_nil (l := behind ++ [z]) (by simp)
  refine ⟨p, n, init, rest, ?_⟩
  calc init ++ [p, x, n] ++ rest = (init ++ [p]) ++ x :: (n :: rest) := by simp
    _ = (a :: before) ++ x :: (behind ++ [z]) := by rw [← hp, ← hn]
    _ = a :: (before ++ x :: behind ++ [z]) := by simp

/-! ## Turns along a chain -/

theorem dropRightTurns_suffix (p : PlanePoint) (chain : List PlanePoint) :
    dropRightTurns p chain <:+ chain := by
  fun_induction dropRightTurns p chain with
  | case1 q o chain h ih => exact ih.trans (List.suffix_cons q _)
  | case2 => exact List.suffix_rfl
  | case3 => exact List.suffix_rfl

/-- Behind what stays of a chain the new point is a turn to the left. -/
theorem orientation_neg_of_dropRightTurns {p q o : PlanePoint} {chain : List PlanePoint}
    (h : [q, o] <+: dropRightTurns p chain) : orientation o q p < 0 := by
  fun_induction dropRightTurns p chain with
  | case1 _ _ chain hturn ih => exact ih h
  | case2 q' o' chain hturn =>
    obtain ⟨hq, h⟩ := List.cons_prefix_cons.1 h
    obtain ⟨ho, -⟩ := List.cons_prefix_cons.1 h
    rw [hq, ho]
    exact Int.not_le.1 hturn
  | case3 chain hshort =>
    obtain ⟨rest, rfl⟩ := h
    exact absurd rfl (hshort q o rest)

/-- A chain turns strictly to the left, whatever the order of the points. -/
theorem turnsLeft_leftChain (points : List PlanePoint) : TurnsLeft (leftChain points).reverse := by
  induction points using List.reverseRecOn with
  | nil => exact fun p q r h => absurd h.length_le (by simp [leftChain])
  | append_singleton points p ih =>
    rw [leftChain_append]
    intro a b c h
    rw [← List.reverse_infix, List.reverse_reverse, List.infix_cons_iff] at h
    obtain hpre | hin := h
    · obtain ⟨rfl, hba⟩ := List.cons_prefix_cons.1 hpre
      exact orientation_neg_of_dropRightTurns hba
    · refine ih a b c (List.reverse_infix.1 ?_)
      rw [List.reverse_reverse]
      exact hin.trans (dropRightTurns_suffix p _).isInfix

/-! ## Lines -/

/-- Two vectors that point forward along one line are multiples of each other. -/
theorem exists_scale {a b c d : Int} (hab : 0 < a ∨ a = 0 ∧ 0 < b) (hcd : 0 < c ∨ c = 0 ∧ 0 < d)
    (h : a * d = b * c) : ∃ k l : Int, 0 < k ∧ 0 < l ∧ k * a = l * c ∧ k * b = l * d := by
  obtain ha | ⟨rfl, hb⟩ := hab
  · obtain hc | ⟨rfl, hd⟩ := hcd
    · exact ⟨c, a, hc, ha, Int.mul_comm c a, by rw [h, Int.mul_comm]⟩
    · rw [mul_zero] at h
      exact absurd h (Int.mul_pos ha hd).ne'
  · have hc : c = 0 := by
      rw [zero_mul, eq_comm, mul_eq_zero] at h
      exact h.resolve_left hb.ne'
    subst hc
    exact ⟨d, b, by omega, hb, by simp, Int.mul_comm d b⟩

/-- Points on the line through two different points are all on one line. -/
theorem areCollinear_of_line {points : List PlanePoint} {b z : PlanePoint} (hbz : b ≠ z)
    (h : ∀ x ∈ points, orientation b z x = 0) : AreCollinear points := by
  intro p hp q hq r hr
  have hp := h p hp
  have hq := h q hq
  have hr := h r hr
  simp only [orientation] at hp hq hr ⊢
  by_cases hu : z.u - b.u = 0
  · have hv : z.v - b.v ≠ 0 := fun hv => hbz (PlanePoint.ext_coords (by omega) (by omega))
    apply mul_left_cancel₀ hv
    linear_combination (q.v - p.v) * (hr - hq) - (r.v - q.v) * (hq - hp)
  · apply mul_left_cancel₀ hu
    linear_combination (r.u - q.u) * (hp - hq) + (q.u - p.u) * (hr - hq)

/-- An edge to `y` and an edge that leads back along the same line have each other's left to their
right. -/
theorem orientation_nonneg_of_back {x y w p : PlanePoint} (hxy : x.Precedes y)
    (hwy : w.Precedes y) (hline : orientation x y w = 0) (hp : orientation y w p ≤ 0) :
    0 ≤ orientation x y p := by
  unfold Precedes at hxy hwy
  simp only [orientation] at *
  obtain ⟨k, l, hk, hl, hu, hv⟩ := exists_scale (a := y.u - x.u) (b := y.v - x.v)
    (c := y.u - w.u) (d := y.v - w.v) (by omega) (by omega) (by linarith)
  refine nonneg_of_mul_nonneg_right ?_ hk
  calc 0 ≤ l * -((w.v - y.v) * (p.u - w.u) - (p.v - w.v) * (w.u - y.u)) :=
        mul_nonneg hl.le (by omega)
    _ = k * ((y.v - x.v) * (p.u - y.u) - (p.v - y.v) * (y.u - x.u)) := by
        linear_combination (p.v - y.v) * hu - (p.u - y.u) * hv

/-- The turn at an end of points that are not on one line is strict. -/
theorem orientation_neg_of_end {points : List PlanePoint} {x y w : PlanePoint} (hw : w ∈ points)
    (hside : x.Precedes y ∧ w.Precedes y ∨ y.Precedes x ∧ y.Precedes w)
    (hxy : ∀ p ∈ points, orientation x y p ≤ 0) (hyw : ∀ p ∈ points, orientation y w p ≤ 0)
    (hnot : ¬ AreCollinear points) : orientation x y w < 0 := by
  refine lt_of_le_of_ne (hxy w hw) fun hline => hnot ?_
  obtain ⟨hx, hw⟩ | ⟨hx, hw⟩ := hside
  · exact areCollinear_of_line hx.ne fun p hp =>
      le_antisymm (hxy p hp) (orientation_nonneg_of_back hx hw hline (hyw p hp))
  · refine areCollinear_of_line hx.ne.symm fun p hp => le_antisymm (hxy p hp) ?_
    rw [← orientation_neg] at hline ⊢
    refine orientation_nonneg_of_back (PlanePoint.precedes_neg.2 hx) (PlanePoint.precedes_neg.2 hw)
      hline ?_
    rw [orientation_neg]
    exact hyw p hp

/-- If a path turns strictly at `x` and another one comes back to `x` from `m` along the line of the
first edge, then `m` is not to the left of the second edge. -/
theorem orientation_pos_of_common {p x n m : PlanePoint} (hpx : p.Precedes x) (hxm : x.Precedes m)
    (hturn : orientation p x n < 0) (hm : orientation p x m ≤ 0) (hp : orientation m x p ≤ 0) :
    0 < orientation x n m := by
  unfold Precedes at hpx hxm
  simp only [orientation] at *
  obtain ⟨k, l, hk, hl, hu, hv⟩ := exists_scale (a := x.u - p.u) (b := x.v - p.v)
    (c := m.u - x.u) (d := m.v - x.v) (by omega) (by omega) (by linarith)
  refine pos_of_mul_pos_right ?_ hl.le
  calc 0 < k * -((x.v - p.v) * (n.u - x.u) - (n.v - x.v) * (x.u - p.u)) :=
        mul_pos hk (by omega)
    _ = l * ((n.v - x.v) * (m.u - n.u) - (m.v - n.v) * (n.u - x.u)) := by
        linear_combination (n.v - x.v) * hu - (n.u - x.u) * hv

/-! ## The two ways between the ends -/

/-- A way between the ends of points, in an order of the points, with strict turns to the left and
with all points to the left of it. -/
structure IsArc (before : PlanePoint → PlanePoint → Prop) (points path : List PlanePoint) :
    Prop where
  mem : ∀ q ∈ path, q ∈ points
  ordered : path.Pairwise before
  turnsLeft : TurnsLeft path
  encloses : Encloses points path

section

variable {before : PlanePoint → PlanePoint → Prop} {points path middle : List PlanePoint}
  {a p q z : PlanePoint}

theorem IsArc.before_of_edge (h : IsArc before points path) (hpq : [p, q] <:+: path) :
    before p q :=
  List.pairwise_pair.1 (h.ordered.sublist hpq.sublist)

theorem IsArc.orientation_nonpos (h : IsArc before points path) (hpq : [p, q] <:+: path) :
    ∀ x ∈ points, orientation p q x ≤ 0 := by
  have hedge := List.IsChain.infix h.encloses hpq
  exact List.isChain_pair.1 hedge

/-- On a line there is nothing between the ends. -/
theorem IsArc.eq_nil (h : IsArc before points (a :: (middle ++ [z])))
    (hline : AreCollinear points) : middle = [] := by
  refine List.eq_nil_iff_forall_not_mem.2 fun x hx => ?_
  obtain ⟨p, n, hturn⟩ := exists_neighbours (a := a) (z := z) hx
  have hmem : ∀ q ∈ [p, x, n], q ∈ points := fun q hq => h.mem q (hturn.subset hq)
  have hzero : orientation p x n = 0 :=
    hline p (hmem p (by simp)) x (hmem x (by simp)) n (hmem n (by simp))
  exact (h.turnsLeft p x n hturn).ne hzero

end

/-- The hull of three different points or more goes from the least point to the greatest on one arc
and back on another. -/
theorem exists_hull_arcs {points : List PlanePoint} (h : 2 < (sortedPoints points).length) :
    ∃ a z lower upper, hull points = a :: (lower ++ z :: upper) ∧
      (sortedPoints points).head? = some a ∧ (sortedPoints points).getLast? = some z ∧
      IsArc Precedes points (a :: (lower ++ [z])) ∧
      IsArc (flip Precedes) points (z :: (upper ++ [a])) := by
  have hsorted := pairwise_sortedPoints points
  have hmem : ∀ {x}, x ∈ points → x ∈ sortedPoints points := mem_sortedPoints.2
  have hleft := isLeftChain_leftChain hsorted
  obtain ⟨hencloses, -, -, hback⟩ := leftChain_reverse_spec hsorted
  obtain ⟨a, z, lower, upper, hhull, hhead, hlast, hlower, hupper⟩ := exists_hull_chains h
  refine ⟨a, z, lower, upper, hhull, hhead, hlast, ?_, ?_⟩
  · rw [← hlower]
    exact ⟨fun q hq => mem_sortedPoints.1 (hleft.mem q (List.mem_reverse.1 hq)),
      List.pairwise_reverse.2 hleft.descending, turnsLeft_leftChain _,
      hleft.encloses.imp fun _ _ hpq x hx => hpq x (hmem hx)⟩
  · rw [← hupper]
    exact ⟨fun q hq => mem_sortedPoints.1 (hback q (List.mem_reverse.1 hq)),
      List.pairwise_reverse.2 (pairwise_leftChain_reverse hsorted), turnsLeft_leftChain _,
      hencloses.imp fun _ _ hpq x hx => hpq x (hmem hx)⟩

section

variable {points lower upper : List PlanePoint} {a z : PlanePoint}

/-- No point between the ends is on both arcs. -/
theorem IsArc.disjoint (hlower : IsArc Precedes points (a :: (lower ++ [z])))
    (hupper : IsArc (flip Precedes) points (z :: (upper ++ [a]))) : lower.Disjoint upper := by
  intro x hxl hxu
  obtain ⟨p, n, hpxn⟩ := exists_neighbours (a := a) (z := z) hxl
  obtain ⟨m, p', hmxp⟩ := exists_neighbours (a := z) (z := a) hxu
  have hpx : [p, x] <:+: a :: (lower ++ [z]) := .trans ⟨[], [n], rfl⟩ hpxn
  have hxn : [x, n] <:+: a :: (lower ++ [z]) := .trans ⟨[p], [], rfl⟩ hpxn
  have hmx : [m, x] <:+: z :: (upper ++ [a]) := .trans ⟨[], [p'], rfl⟩ hmxp
  have hp : p ∈ points := hlower.mem p (hpx.subset (by simp))
  have hm : m ∈ points := hupper.mem m (hmx.subset (by simp))
  have hpos := orientation_pos_of_common (hlower.before_of_edge hpx) (hupper.before_of_edge hmx)
    (hlower.turnsLeft p x n hpxn) (hlower.orientation_nonpos hpx m hm)
    (hupper.orientation_nonpos hmx p hp)
  exact absurd (hlower.orientation_nonpos hxn m hm) (Int.not_le.2 hpos)

/-- The corners on the two arcs are different points. -/
theorem IsArc.nodup (hlower : IsArc Precedes points (a :: (lower ++ [z])))
    (hupper : IsArc (flip Precedes) points (z :: (upper ++ [a]))) :
    (a :: (lower ++ z :: upper)).Nodup := by
  have hnodup : (a :: (lower ++ [z])).Nodup := hlower.ordered.imp (S := (· ≠ ·)) Precedes.ne
  have hnodup' : (z :: (upper ++ [a])).Nodup :=
    hupper.ordered.imp (S := (· ≠ ·)) fun hpq => (Precedes.ne hpq).symm
  obtain ⟨hz, hnodup'⟩ := List.nodup_cons.1 hnodup'
  obtain ⟨hupper', -, ha⟩ := List.nodup_append.1 hnodup'
  have hcorners : ((a :: (lower ++ [z])) ++ upper).Nodup := by
    refine List.nodup_append.2 ⟨hnodup, hupper', fun x hx y hy hxy => ?_⟩
    subst hxy
    obtain rfl | hx := List.mem_cons.1 hx
    · exact ha x hy x List.mem_cons_self rfl
    · obtain hx | hx := List.mem_append.1 hx
      · exact hlower.disjoint hupper hx hy
      · obtain rfl := List.mem_singleton.1 hx
        exact hz (List.mem_append_left _ hy)
  simpa using hcorners

/-- If the points are not on one line, the two arcs turn strictly to the left where they meet. -/
theorem IsArc.turnsLeft_cycle (hlower : IsArc Precedes points (a :: (lower ++ [z])))
    (hupper : IsArc (flip Precedes) points (z :: (upper ++ [a]))) (hnot : ¬ AreCollinear points) :
    TurnsLeft ((a :: (lower ++ z :: upper)) ++ (a :: (lower ++ z :: upper)).take 2) := by
  obtain ⟨b, rest, hb⟩ := List.exists_cons_of_ne_nil (l := lower ++ [z]) (by simp)
  have hsecond : (a :: (lower ++ z :: upper)).take 2 = [a, b] := by
    rw [List.append_cons, hb]
    rfl
  have hatz : ∀ x ∈ (a :: lower).getLast?, ∀ w ∈ (upper ++ [a]).head?, orientation x z w < 0 := by
    intro x hx w hw
    have hxz : [x, z] <:+: a :: (lower ++ [z]) := infix_of_getLast? hx z
    have hzw := infix_of_head? hw z
    exact orientation_neg_of_end (hupper.mem w (hzw.subset (by simp)))
      (.inl ⟨hlower.before_of_edge hxz, hupper.before_of_edge hzw⟩)
      (hlower.orientation_nonpos hxz) (hupper.orientation_nonpos hzw) hnot
  have hata : ∀ x ∈ (a :: (lower ++ z :: upper)).getLast?, ∀ w ∈ [b].head?,
      orientation x a w < 0 := by
    intro x hx w hw
    obtain rfl : b = w := Option.some.inj hw
    have hxa : [x, a] <:+: z :: (upper ++ [a]) := by
      refine infix_of_getLast? (l := z :: upper) ?_ a
      rwa [← List.cons_append, List.getLast?_append_of_ne_nil _ (List.cons_ne_nil z upper)] at hx
    have hab : [a, b] <:+: a :: (lower ++ [z]) := ⟨[], rest, by rw [hb]; rfl⟩
    exact orientation_neg_of_end (hlower.mem b (hab.subset (by simp)))
      (.inr ⟨hupper.before_of_edge hxa, hlower.before_of_edge hab⟩)
      (hupper.orientation_nonpos hxa) (hlower.orientation_nonpos hab) hnot
  have hround : TurnsLeft (a :: lower ++ z :: (upper ++ [a])) :=
    TurnsLeft.append hlower.turnsLeft hupper.turnsLeft hatz
  rw [hsecond]
  refine TurnsLeft.append (by simpa using hround) (turnsLeft_pair a b) hata

end

/-! ## The hull -/

section

variable {points : List PlanePoint}

/-- There is a least and a greatest point among some points. -/
theorem exists_ends (hne : points ≠ []) :
    ∃ a ∈ points, ∃ z ∈ points, (sortedPoints points).head? = some a ∧
      (sortedPoints points).getLast? = some z ∧ ∀ p ∈ points, a.le p ∧ p.le z := by
  have hsorted := pairwise_sortedPoints points
  obtain ⟨p, hp⟩ := List.exists_mem_of_ne_nil points hne
  have hne' : sortedPoints points ≠ [] := List.ne_nil_of_mem (mem_sortedPoints.2 hp)
  have hhead := List.head?_eq_some_head hne'
  have hlast := List.getLast?_eq_some_getLast hne'
  exact ⟨_, mem_sortedPoints.1 (List.mem_of_head? hhead), _,
    mem_sortedPoints.1 (List.mem_of_getLast? hlast), hhead, hlast, fun p hp =>
    ⟨le_of_head? hsorted hhead p (mem_sortedPoints.2 hp),
      le_of_getLast? hsorted hlast p (mem_sortedPoints.2 hp)⟩⟩

/-- One or two different points are on one line. -/
theorem areCollinear_of_length_le (h : (sortedPoints points).length ≤ 2) :
    AreCollinear points := by
  intro p hp q hq r hr
  rw [← mem_sortedPoints] at hp hq hr
  match hsorted : sortedPoints points with
  | [] =>
    rw [hsorted] at hp
    cases hp
  | [x] =>
    simp only [hsorted, List.mem_singleton] at hp hq hr
    rw [hp, hq, hr, orientation_same]
  | [x, y] =>
    simp only [hsorted, List.mem_cons, List.not_mem_nil, or_false] at hp hq hr
    obtain rfl | rfl := hp <;> obtain rfl | rfl := hq <;> obtain rfl | rfl := hr <;>
      simp [orientation_same]
  | x :: y :: w :: rest =>
    rw [hsorted] at h
    exact absurd h (by simp)

/-- The hull of points on one line are their ends. -/
theorem hull_of_areCollinear {a z : PlanePoint} (hline : AreCollinear points)
    (ha : (sortedPoints points).head? = some a) (hz : (sortedPoints points).getLast? = some z) :
    hull points = if a = z then [a] else [a, z] := by
  by_cases h : 2 < (sortedPoints points).length
  · obtain ⟨a', z', lower, upper, hhull, hhead, hlast, hlower, hupper⟩ := exists_hull_arcs h
    obtain rfl := Option.some.inj (ha.symm.trans hhead)
    obtain rfl := Option.some.inj (hz.symm.trans hlast)
    have haz : a.Precedes z := (List.pairwise_cons.1 hlower.ordered).1 z (by simp)
    rw [hhull, hlower.eq_nil hline, hupper.eq_nil hline, if_neg haz.ne, List.nil_append]
  · rw [hull, if_pos (by omega)]
    have hsorted := pairwise_sortedPoints points
    cases hpoints : sortedPoints points with
    | nil =>
      rw [hpoints] at ha
      cases ha
    | cons x rest =>
      rw [hpoints] at ha hz h hsorted
      obtain rfl : x = a := Option.some.inj ha
      cases rest with
      | nil =>
        obtain rfl : x = z := Option.some.inj hz
        rw [if_pos rfl]
      | cons y rest =>
        cases rest with
        | nil =>
          obtain rfl : y = z := Option.some.inj hz
          rw [if_neg (List.pairwise_pair.1 hsorted).ne]
        | cons w rest => exact absurd (by simp) h

/-- The hull of points that are not on one line is a convex cycle that starts at the least one. -/
theorem isConvexCycle_hull (hnot : ¬ AreCollinear points) :
    (hull points).head? = (sortedPoints points).head? ∧ IsConvexCycle points (hull points) := by
  have h : 2 < (sortedPoints points).length := by
    by_contra hle
    exact hnot (areCollinear_of_length_le (by omega))
  obtain ⟨a, z, lower, upper, hhull, hhead, hlast, hlower, hupper⟩ := exists_hull_arcs h
  have hlength : 2 < (hull points).length := by
    have hinner : lower ≠ [] ∨ upper ≠ [] := by
      by_contra hnil
      push Not at hnil
      obtain ⟨rfl, rfl⟩ := hnil
      have haz : a.Precedes z := (List.pairwise_cons.1 hlower.ordered).1 z (by simp)
      refine hnot (areCollinear_of_line haz.ne fun x hx => le_antisymm ?_ ?_)
      · exact hlower.orientation_nonpos List.infix_rfl x hx
      · have hback := hupper.orientation_nonpos List.infix_rfl x hx
        simp only [orientation] at hback ⊢
        linarith
    have hpos : 0 < lower.length + upper.length := by
      obtain hne | hne := hinner
      · exact Nat.add_pos_left (List.length_pos_iff.2 hne) _
      · exact Nat.add_pos_right _ (List.length_pos_iff.2 hne)
    simp only [hhull, List.length_cons, List.length_append]
    omega
  refine ⟨by rw [hhull, hhead]; rfl, hlength, fun c => mem_of_mem_hull, ?_, ?_,
    encloses_closed_hull points⟩
  · rw [hhull]
    exact hlower.nodup hupper
  · rw [hhull]
    exact hlower.turnsLeft_cycle hupper hnot

/-- A point of the plane is read from the first two numbers. -/
theorem ofGiven_eq_ok {row : GivenPoint} {p : PlanePoint} :
    PlanePoint.ofGiven row = .ok p ↔ ∃ rest, row.values = p.u :: p.v :: rest := by
  obtain ⟨values⟩ := row
  match values with
  | [] => exact ⟨nofun, nofun⟩
  | [u] => exact ⟨nofun, nofun⟩
  | u :: v :: rest =>
    constructor
    · intro h
      cases h
      exact ⟨rest, rfl⟩
    · rintro ⟨rest', h⟩
      cases h
      rfl

/-- The hull of given points, of which only the first two numbers count. Unless the points are on
one line it is a convex cycle around them, counter-clockwise from the least one. The hull of points
on one line are their ends, and that of a point that is given once or more often is the point. -/
theorem hull_isConvexCycle {rows : List GivenPoint} (hne : rows ≠ [])
    (hrows : ∀ row ∈ rows, 2 ≤ row.values.length) :
    ∃ points, rows.mapM PlanePoint.ofGiven = .ok points ∧
      List.Forall₂ (fun row p => ∃ rest, row.values = p.u :: p.v :: rest) rows points ∧
      ∃ a ∈ points, ∃ z ∈ points, (∀ p ∈ points, a.le p ∧ p.le z) ∧
        (a = z → hull points = [a]) ∧
        (AreCollinear points → a ≠ z → hull points = [a, z]) ∧
        (¬ AreCollinear points →
          (hull points).head? = some a ∧ IsConvexCycle points (hull points)) := by
  have hread : ∀ row ∈ rows, ∃ p, PlanePoint.ofGiven row = .ok p := by
    intro row hrow
    match hvalues : row.values, hrows row hrow with
    | u :: v :: rest, _ => exact ⟨⟨u, v⟩, ofGiven_eq_ok.2 ⟨rest, hvalues⟩⟩
  obtain ⟨points, hpoints⟩ := except_exists_mapM hread
  have hpairs := (except_mapM_eq_ok.1 hpoints).imp fun _ _ => ofGiven_eq_ok.1
  have hne' : points ≠ [] := by
    rintro rfl
    exact hne (List.forall₂_nil_right_iff.1 hpairs)
  obtain ⟨a, ha, z, hz, hhead, hlast, hends⟩ := exists_ends hne'
  refine ⟨points, hpoints, hpairs, a, ha, z, hz, hends, fun haz => ?_, fun hline haz => ?_,
    fun hnot => ?_⟩
  · have hline : AreCollinear points := by
      have hone : ∀ p ∈ points, p = a := fun p hp => by
        have hle := PlanePoint.le_iff_eq_or_precedes.1 (hends p hp).1
        exact hle.elim Eq.symm fun hap => absurd (haz ▸ (hends p hp).2) hap.not_le
      intro p hp q hq r hr
      rw [hone p hp, hone q hq, hone r hr, orientation_same]
    rw [hull_of_areCollinear hline hhead hlast, if_pos haz]
  · rw [hull_of_areCollinear hline hhead hlast, if_neg haz]
  · obtain ⟨hfirst, hcycle⟩ := isConvexCycle_hull hnot
    exact ⟨hfirst.trans hhead, hcycle⟩

/-- The corners of a square in no order, of which one is given twice, with a point within an edge, a
point inside and a third number that does not count. -/
theorem hull_isConvexCycle_square :
    ∃ points, [⟨[4, 4, 9]⟩, ⟨[2, 0]⟩, ⟨[4, 0]⟩, ⟨[0, 0]⟩, ⟨[1, 2]⟩, ⟨[0, 4]⟩, ⟨[4, 0]⟩].mapM
        PlanePoint.ofGiven = .ok points ∧ ¬ AreCollinear points ∧
      ∃ a ∈ points, (∀ p ∈ points, a.le p) ∧ (hull points).head? = some a ∧
        IsConvexCycle points (hull points) := by
  obtain ⟨points, hpoints, -, a, ha, z, -, hends, -, -, hconvex⟩ := @hull_isConvexCycle
    [⟨[4, 4, 9]⟩, ⟨[2, 0]⟩, ⟨[4, 0]⟩, ⟨[0, 0]⟩, ⟨[1, 2]⟩, ⟨[0, 4]⟩, ⟨[4, 0]⟩] (by simp) (by decide)
  have heq : [⟨4, 4⟩, ⟨2, 0⟩, ⟨4, 0⟩, ⟨0, 0⟩, ⟨1, 2⟩, ⟨0, 4⟩, ⟨4, 0⟩] = points :=
    Except.ok.inj hpoints
  have hnot : ¬ AreCollinear points := fun hline =>
    absurd (hline ⟨0, 0⟩ (by simp [← heq]) ⟨4, 0⟩ (by simp [← heq]) ⟨0, 4⟩ (by simp [← heq]))
      (by decide)
  obtain ⟨hfirst, hcycle⟩ := hconvex hnot
  exact ⟨points, hpoints, hnot, a, ha, fun p hp => (hends p hp).1, hfirst, hcycle⟩

end

end VoxelAlgebra
