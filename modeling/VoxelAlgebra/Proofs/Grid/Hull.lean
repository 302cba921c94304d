import Mathlib.Algebra.Order.Ring.Int
import Mathlib.Data.List.Chain
import Mathlib.Data.List.Induction
import Mathlib.Tactic.Linarith
import Mathlib.Tactic.Ring
import VoxelAlgebra.Grid.Hull

/-!
# Convex hulls enclose their points

The points are taken in lexicographic order, so all differences between a point and a later one
point forward. Of forward vectors the turns add up, and this is what makes it enough to look at the
end of a chain: after a point was put to a left chain, all points so far lie to the left of every
edge or on it. The upper chain is the lower chain of the negated points.

## Main definitions

* `PlanePoint.Precedes` — strict lexicographic order.
* `IsLeftChain` — what holds of the chain after some points.
* `exists_hull_chains` — the two chains of a hull.
* `encloses_closed_hull` — all points lie to the left of every edge of the hull.
* `exists_hull_corners` — corners on both sides of a point.
-/

namespace VoxelAlgebra

namespace PlanePoint

def Precedes (p q : PlanePoint) : Prop := p.u < q.u ∨ p.u = q.u ∧ p.v < q.v

variable {p q r : PlanePoint}

theorem ext_coords (hu : p.u = q.u) (hv : p.v = q.v) : p = q := by
  cases p
  cases q
  simp_all

theorem le_iff : p.le q ↔ p.u < q.u ∨ p.u = q.u ∧ p.v ≤ q.v := by
  simp [le]

theorem le_iff_eq_or_precedes : p.le q ↔ p = q ∨ p.Precedes q := by
  rw [le_iff, Precedes]
  constructor
  · rintro (h | ⟨hu, hv⟩)
    · exact .inr (.inl h)
    · obtain hv | hv := Int.lt_or_eq_of_le hv
      · exact .inr (.inr ⟨hu, hv⟩)
      · exact .inl (ext_coords hu hv)
  · rintro (rfl | h | ⟨hu, hv⟩)
    · exact .inr ⟨rfl, Int.le_refl _⟩
    · exact .inl h
    · exact .inr ⟨hu, Int.le_of_lt hv⟩

theorem Precedes.le (h : p.Precedes q) : p.le q := le_iff_eq_or_precedes.2 (.inr h)

theorem Precedes.not_le (h : p.Precedes q) : ¬ q.le p := by
  rw [le_iff]
  unfold Precedes at h
  omega

theorem Precedes.ne (h : p.Precedes q) : p ≠ q := by
  rintro rfl
  exact h.not_le (le_iff_eq_or_precedes.2 (.inl rfl))

theorem le_or_precedes (p q : PlanePoint) : p.le q ∨ q.Precedes p := by
  rw [le_iff, Precedes]
  omega

theorem le_refl (p : PlanePoint) : p.le p := le_iff_eq_or_precedes.2 (.inl rfl)

theorem le_trans (hpq : p.le q) (hqr : q.le r) : p.le r := by
  rw [le_iff] at *
  omega

def neg (p : PlanePoint) : PlanePoint := ⟨-p.u, -p.v⟩

theorem neg_neg (p : PlanePoint) : p.neg.neg = p := ext_coords (Int.neg_neg _) (Int.neg_neg _)

theorem precedes_neg : p.neg.Precedes q.neg ↔ q.Precedes p := by
  simp only [Precedes, neg]
  omega

theorem neg_le_neg : p.neg.le q.neg ↔ q.le p := by
  simp only [le_iff, neg]
  omega

end PlanePoint

open PlanePoint (Precedes)

/-- The first of points in strict order is the least. -/
theorem le_of_head? {points : List PlanePoint} {a : PlanePoint} (h : points.Pairwise Precedes)
    (ha : points.head? = some a) : ∀ x ∈ points, a.le x := by
  intro x hx
  obtain ⟨rest, rfl⟩ := List.head?_eq_some_iff.1 ha
  obtain rfl | hx := List.mem_cons.1 hx
  · exact PlanePoint.le_refl _
  · exact ((List.pairwise_cons.1 h).1 x hx).le

/-- The last of points in strict order is the greatest. -/
theorem le_of_getLast? {points : List PlanePoint} {z : PlanePoint} (h : points.Pairwise Precedes)
    (hz : points.getLast? = some z) : ∀ x ∈ points, x.le z := by
  intro x hx
  obtain ⟨before, rfl⟩ := List.getLast?_eq_some_iff.1 hz
  obtain hx | hx := List.mem_append.1 hx
  · exact ((List.pairwise_append.1 h).2.2 x hx z List.mem_cons_self).le
  · exact List.mem_singleton.1 hx ▸ PlanePoint.le_refl _

/-! ## Turns -/

section

variable {o p q x : PlanePoint}

/-- If `b` is to the left of `a` and `c` to the left of `b`, then `c` is to the left of `a`, because
all three point forward. -/
theorem cross_trans (a₁ a₂ b₁ b₂ c₁ c₂ : Int) (ha : 0 < a₁ ∨ a₁ = 0 ∧ 0 ≤ a₂)
    (hb : 0 < b₁ ∨ b₁ = 0 ∧ 0 < b₂) (hc : 0 < c₁ ∨ c₁ = 0 ∧ 0 ≤ c₂)
    (hab : 0 ≤ a₁ * b₂ - a₂ * b₁) (hbc : 0 ≤ b₁ * c₂ - b₂ * c₁) : 0 ≤ a₁ * c₂ - a₂ * c₁ := by
  have ha₁ : 0 ≤ a₁ := by omega
  have hc₁ : 0 ≤ c₁ := by omega
  obtain hb | ⟨rfl, hb⟩ := hb
  · refine nonneg_of_mul_nonneg_left ?_ hb
    calc 0 ≤ (a₁ * b₂ - a₂ * b₁) * c₁ + (b₁ * c₂ - b₂ * c₁) * a₁ :=
          add_nonneg (mul_nonneg hab hc₁) (mul_nonneg hbc ha₁)
      _ = (a₁ * c₂ - a₂ * c₁) * b₁ := by ring
  · -- `b` points straight up, and so does `c`.
    have hc₀ : c₁ = 0 := by nlinarith
    have hc₂ : 0 ≤ c₂ := by omega
    rw [hc₀, mul_zero, sub_zero]
    exact mul_nonneg ha₁ hc₂

@[simp] theorem orientation_self_right (p q : PlanePoint) : orientation p q q = 0 := by
  simp [orientation]

@[simp] theorem orientation_self_left (p q : PlanePoint) : orientation p q p = 0 := by
  simp only [orientation]
  ring

@[simp] theorem orientation_neg (p q r : PlanePoint) :
    orientation p.neg q.neg r.neg = orientation p q r := by
  simp only [orientation, PlanePoint.neg]
  ring

/-- The turn at `q` shows that a point before `q` is to the left of the new edge. -/
theorem orientation_nonpos_of_turn (hoq : o.Precedes q) (hqp : q.Precedes p) (hxq : x.le q)
    (hx : orientation o q x ≤ 0) (hp : orientation o q p ≤ 0) : orientation q p x ≤ 0 := by
  rw [PlanePoint.le_iff] at hxq
  unfold Precedes at hoq hqp
  simp only [orientation] at *
  have := cross_trans (q.u - x.u) (q.v - x.v) (q.u - o.u) (q.v - o.v) (p.u - q.u) (p.v - q.v)
    (by omega) (by omega) (by omega) (by linarith) (by linarith)
  linarith

/-- When `q` is dropped, a point behind `o` is to the left of the edge that takes its place. -/
theorem orientation_nonpos_of_drop (hoq : o.Precedes q) (hop : o.le p) (hox : o.le x)
    (hx : orientation o q x ≤ 0) (hp : 0 ≤ orientation o q p) : orientation o p x ≤ 0 := by
  rw [PlanePoint.le_iff] at hop hox
  unfold Precedes at hoq
  simp only [orientation] at *
  have := cross_trans (p.u - o.u) (p.v - o.v) (q.u - o.u) (q.v - o.v) (x.u - o.u) (x.v - o.v)
    (by omega) (by omega) (by omega) (by linarith) (by linarith)
  linarith

/-- A point to the left of an edge is to the left of the edge before it. -/
theorem orientation_nonpos_of_later (hxo : x.Precedes o) (hoq : o.Precedes q) (hqp : q.Precedes p)
    (hx : orientation x o q ≤ 0) (hp : orientation o q p ≤ 0) : orientation x o p ≤ 0 := by
  unfold Precedes at hxo hoq hqp
  simp only [orientation] at *
  have := cross_trans (o.u - x.u) (o.v - x.v) (q.u - o.u) (q.v - o.v) (p.u - q.u) (p.v - q.v)
    (by omega) (by omega) (by omega) (by linarith) (by linarith)
  linarith

end

/-! ## Left chains -/

/-- The edges of a chain with its last point first have `p` to their left. -/
def HasLeft (chain : List PlanePoint) (p : PlanePoint) : Prop :=
  chain.IsChain fun b a => orientation a b p ≤ 0

/-- A chain over points, with its last point first: it runs from the first to the last of the
points, and has all of them to its left. -/
structure IsLeftChain (points chain : List PlanePoint) : Prop where
  mem : ∀ q ∈ chain, q ∈ points
  descending : chain.Pairwise fun q o => o.Precedes q
  hasLeft : ∀ x ∈ points, HasLeft chain x
  head? : chain.head? = points.getLast?
  getLast? : chain.getLast? = points.head?

/-- A point behind a chain that is to the left of its last edge is to the left of all. -/
theorem HasLeft.of_head {o q p : PlanePoint} {chain : List PlanePoint}
    (hdesc : (q :: o :: chain).Pairwise fun b a => a.Precedes b)
    (hleft : ∀ x ∈ q :: o :: chain, HasLeft (q :: o :: chain) x) (hqp : q.Precedes p)
    (h : orientation o q p ≤ 0) : HasLeft (q :: o :: chain) p := by
  induction chain generalizing q o with
  | nil => exact List.isChain_pair.2 h
  | cons a chain ih =>
    obtain ⟨hq, hdesc⟩ := List.pairwise_cons.1 hdesc
    have hoq := hq o List.mem_cons_self
    have hao := (List.pairwise_cons.1 hdesc).1 a List.mem_cons_self
    have haoq : orientation a o q ≤ 0 :=
      (List.isChain_cons_cons.1 (List.isChain_cons_cons.1 (hleft q List.mem_cons_self)).2).1
    have hop : o.Precedes p := by
      unfold Precedes at *
      omega
    refine List.isChain_cons_cons.2 ⟨h, ih hdesc (fun x hx => ?_) hop ?_⟩
    · exact (List.isChain_cons_cons.1 (hleft x (List.mem_cons_of_mem q hx))).2
    · exact orientation_nonpos_of_later hao hoq hqp haoq h

/-- Dropping points leaves an end of the chain from which all points are to the left of the edge to
`p`, and whose edges have `p` to their left. -/
theorem exists_dropRightTurns {points chain : List PlanePoint} {p q : PlanePoint}
    (hp : ∀ x ∈ points, x.Precedes p) (hmem : ∀ r ∈ q :: chain, r ∈ points)
    (hdesc : (q :: chain).Pairwise fun b a => a.Precedes b)
    (hleft : ∀ x ∈ points, HasLeft (q :: chain) x)
    (hfirst : ∀ f ∈ (q :: chain).getLast?, ∀ x ∈ points, f.le x)
    (hbehind : ∀ x ∈ points, q.le x → orientation q p x ≤ 0) :
    ∃ top rest, dropRightTurns p (q :: chain) = top :: rest ∧ top :: rest <:+ q :: chain ∧
      (∀ x ∈ points, orientation top p x ≤ 0) ∧ HasLeft (top :: rest) p := by
  induction chain generalizing q with
  | nil =>
    exact ⟨q, [], rfl, List.suffix_rfl, fun x hx => hbehind x hx (hfirst q rfl x hx), .singleton q⟩
  | cons o chain ih =>
    have hoq := (List.pairwise_cons.1 hdesc).1 o List.mem_cons_self
    have hedge : ∀ x ∈ points, orientation o q x ≤ 0 := fun x hx =>
      (List.isChain_cons_cons.1 (hleft x hx)).1
    rw [dropRightTurns]
    split_ifs with hturn
    · have hop := (hp o (hmem o (by simp))).le
      obtain ⟨top, rest, hdrop, hsuffix, hrest⟩ :=
        ih (fun r hr => hmem r (List.mem_cons_of_mem q hr)) (List.pairwise_cons.1 hdesc).2
          (fun x hx => (List.isChain_cons_cons.1 (hleft x hx)).2) hfirst
          fun x hx hox => orientation_nonpos_of_drop hoq hop hox (hedge x hx) hturn
      exact ⟨top, rest, hdrop, hsuffix.trans (List.suffix_cons q _), hrest⟩
    · have hturn : orientation o q p ≤ 0 := by omega
      have hqp := hp q (hmem q List.mem_cons_self)
      refine ⟨q, o :: chain, rfl, List.suffix_rfl, fun x hx => ?_, ?_⟩
      · obtain hqx | hxq := q.le_or_precedes x
        · exact hbehind x hx hqx
        · exact orientation_nonpos_of_turn hoq hqp hxq.le (hedge x hx) hturn
      · exact .of_head hdesc (fun x hx => hleft x (hmem x hx)) hqp hturn

theorem leftChain_append (points : List PlanePoint) (p : PlanePoint) :
    leftChain (points ++ [p]) = p :: dropRightTurns p (leftChain points) := by
  simp [leftChain]

/-- The step of the scan: a point behind all others goes in front of the chain that is left over. -/
theorem IsLeftChain.append_singleton {points chain : List PlanePoint} {p q : PlanePoint}
    (h : IsLeftChain points (q :: chain)) (hpoints : points.Pairwise Precedes)
    (hp : ∀ x ∈ points, x.Precedes p) :
    IsLeftChain (points ++ [p]) (p :: dropRightTurns p (q :: chain)) := by
  have hq : points.getLast? = some q := h.head?.symm
  have hfirst : ∀ f ∈ (q :: chain).getLast?, ∀ x ∈ points, f.le x := by
    intro f hf
    rw [h.getLast?] at hf
    exact le_of_head? hpoints hf
  have hbehind : ∀ x ∈ points, q.le x → orientation q p x ≤ 0 := by
    intro x hx hqx
    obtain ⟨before, rfl⟩ := List.getLast?_eq_some_iff.1 hq
    obtain hx | hx := List.mem_append.1 hx
    · exact absurd hqx ((List.pairwise_append.1 hpoints).2.2 x hx q List.mem_cons_self).not_le
    · rw [List.mem_singleton.1 hx, orientation_self_left]
  obtain ⟨top, rest, hdrop, hsuffix, hedge, hleft⟩ :=
    exists_dropRightTurns hp h.mem h.descending h.hasLeft hfirst hbehind
  have hmem : ∀ r ∈ top :: rest, r ∈ points := fun r hr => h.mem r (hsuffix.subset hr)
  rw [hdrop]
  refine ⟨?_, ?_, ?_, by simp, ?_⟩
  · intro r hr
    obtain rfl | hr := List.mem_cons.1 hr
    · exact List.mem_append_right _ List.mem_cons_self
    · exact List.mem_append_left _ (hmem r hr)
  · exact List.pairwise_cons.2
      ⟨fun r hr => hp r (hmem r hr), h.descending.sublist hsuffix.sublist⟩
  · intro x hx
    obtain hx | hx := List.mem_append.1 hx
    · exact List.isChain_cons_cons.2 ⟨hedge x hx, (h.hasLeft x hx).suffix hsuffix⟩
    · rw [List.mem_singleton.1 hx]
      exact List.isChain_cons_cons.2 ⟨(orientation_self_right _ _).le, hleft⟩
  · have hlast : (top :: rest).getLast? = (q :: chain).getLast? := by
      obtain ⟨before, hbefore⟩ := hsuffix
      rw [← hbefore, List.getLast?_append_of_ne_nil _ (List.cons_ne_nil top rest)]
    have hne : points ≠ [] := by
      rintro rfl
      cases hq
    rw [List.getLast?_cons_cons, hlast, h.getLast?, List.head?_append_of_ne_nil _ hne]

/-- The left chain over points in strict order. -/
theorem isLeftChain_leftChain {points : List PlanePoint} (h : points.Pairwise Precedes) :
    IsLeftChain points (leftChain points) := by
  induction points using List.reverseRecOn with
  | nil => exact ⟨nofun, .nil, nofun, rfl, rfl⟩
  | append_singleton points p ih =>
    obtain ⟨hpoints, -, hp⟩ := List.pairwise_append.1 h
    have hchain := ih hpoints
    rw [leftChain_append]
    cases hc : leftChain points with
    | nil =>
      have hnil : points = [] := by simpa [hc, eq_comm] using hchain.head?
      subst hnil
      exact ⟨by simp [dropRightTurns], by simp [dropRightTurns], fun _ _ => .singleton p, rfl, rfl⟩
    | cons q chain =>
      rw [hc] at hchain
      exact hchain.append_singleton hpoints fun x hx => hp x hx p List.mem_cons_self

/-! ## Points in strict order -/

theorem mem_dropRepeats {points : List PlanePoint} {p : PlanePoint} :
    p ∈ dropRepeats points ↔ p ∈ points := by
  fun_induction dropRepeats points with
  | case1 q rest ih =>
    rw [ih]
    simp
  | case2 q r rest hne ih => rw [List.mem_cons, ih, ← List.mem_cons]
  | case3 points => rfl

theorem pairwise_dropRepeats {points : List PlanePoint}
    (h : points.Pairwise fun p q => p.le q) : (dropRepeats points).Pairwise Precedes := by
  fun_induction dropRepeats points with
  | case1 q rest ih => exact ih (List.pairwise_cons.1 h).2
  | case2 p q rest hne ih =>
    obtain ⟨hp, hrest⟩ := List.pairwise_cons.1 h
    refine List.pairwise_cons.2 ⟨fun x hx => ?_, ih hrest⟩
    have hpq := (PlanePoint.le_iff_eq_or_precedes.1 (hp q List.mem_cons_self)).resolve_left hne
    have hqx : q.le x := by
      obtain rfl | hx := List.mem_cons.1 (mem_dropRepeats.1 hx)
      · exact PlanePoint.le_refl _
      · exact (List.pairwise_cons.1 hrest).1 x hx
    exact (PlanePoint.le_or_precedes x p).resolve_left fun hxp =>
      hpq.not_le (PlanePoint.le_trans hqx hxp)
  | case3 points hshort =>
    match points, hshort with
    | [], _ => exact .nil
    | [p], _ => exact List.pairwise_singleton _ p
    | p :: q :: rest, hshort => exact absurd rfl (hshort p q rest)

@[simp] theorem mem_sortedPoints {points : List PlanePoint} {p : PlanePoint} :
    p ∈ sortedPoints points ↔ p ∈ points := by
  rw [sortedPoints, mem_dropRepeats, List.mem_mergeSort]

theorem pairwise_sortedPoints (points : List PlanePoint) :
    (sortedPoints points).Pairwise Precedes := by
  refine pairwise_dropRepeats (List.pairwise_mergeSort ?_ ?_ points)
  · exact fun _ _ _ => PlanePoint.le_trans
  · intro p q
    rw [Bool.or_eq_true]
    exact (p.le_or_precedes q).imp_right Precedes.le

/-- Only the points matter, not their order or number. -/
theorem sortedPoints_congr {points points' : List PlanePoint}
    (h : ∀ p, p ∈ points ↔ p ∈ points') : sortedPoints points = sortedPoints points' := by
  have hsorted := pairwise_sortedPoints points
  have hsorted' := pairwise_sortedPoints points'
  have hperm : (sortedPoints points).Perm (sortedPoints points') :=
    (List.perm_ext_iff_of_nodup (hsorted.imp Precedes.ne) (hsorted'.imp Precedes.ne)).2 fun p => by
      rw [mem_sortedPoints, mem_sortedPoints, h]
  exact hperm.eq_of_pairwise (fun p q _ _ hpq hqp => absurd hqp.le hpq.not_le) hsorted hsorted'

theorem hull_congr {points points' : List PlanePoint} (h : ∀ p, p ∈ points ↔ p ∈ points') :
    hull points = hull points' := by
  rw [hull, sortedPoints_congr h, hull]

/-! ## The upper chain -/

theorem dropRightTurns_map_neg (p : PlanePoint) (chain : List PlanePoint) :
    dropRightTurns p.neg (chain.map .neg) = (dropRightTurns p chain).map .neg := by
  fun_induction dropRightTurns p chain with
  | case1 q o chain h ih =>
    rw [List.map_cons, List.map_cons, dropRightTurns, orientation_neg, if_pos h]
    exact ih
  | case2 q o chain h =>
    rw [List.map_cons, List.map_cons, dropRightTurns, orientation_neg, if_neg h]
  | case3 chain hshort =>
    match chain, hshort with
    | [], _ | [q], _ => rfl
    | q :: o :: chain, hshort => exact absurd rfl (hshort q o chain)

theorem leftChain_map_neg (points : List PlanePoint) :
    leftChain (points.map .neg) = (leftChain points).map .neg := by
  induction points using List.reverseRecOn with
  | nil => rfl
  | append_singleton points p ih =>
    rw [List.map_append, List.map_singleton, leftChain_append, leftChain_append, ih,
      dropRightTurns_map_neg, List.map_cons]

def Encloses (points path : List PlanePoint) : Prop :=
  path.IsChain fun a b => ∀ x ∈ points, orientation a b x ≤ 0

theorem Encloses.map_neg {points path : List PlanePoint} (h : Encloses points path) :
    Encloses (points.map .neg) (path.map .neg) := by
  rw [Encloses, List.isChain_map]
  refine h.imp fun a b hab x hx => ?_
  obtain ⟨y, hy, rfl⟩ := List.mem_map.1 hx
  rw [orientation_neg]
  exact hab y hy

theorem IsLeftChain.encloses {points chain : List PlanePoint} (h : IsLeftChain points chain) :
    Encloses points chain.reverse := by
  rw [Encloses, List.isChain_reverse]
  exact List.isChain_iff_forall_rel_of_append_cons_cons.2 fun b a before behind heq x hx =>
    List.isChain_iff_forall_rel_of_append_cons_cons.1 (h.hasLeft x hx) heq

/-- The chain over points in reverse order is that of the negated points, which are in order. -/
theorem isLeftChain_map_neg_reverse {points : List PlanePoint} (h : points.Pairwise Precedes) :
    IsLeftChain (points.reverse.map .neg) ((leftChain points.reverse).map .neg) := by
  have hneg : (points.reverse.map .neg).Pairwise Precedes := by
    rw [List.pairwise_map, List.pairwise_reverse]
    exact h.imp PlanePoint.precedes_neg.2
  rw [← leftChain_map_neg]
  exact isLeftChain_leftChain hneg

theorem pairwise_leftChain_reverse {points : List PlanePoint} (h : points.Pairwise Precedes) :
    (leftChain points.reverse).Pairwise Precedes :=
  (List.pairwise_map.1 (isLeftChain_map_neg_reverse h).descending).imp PlanePoint.precedes_neg.1

/-- The chains over points in order and in reverse order are paths from the first point to the last
and back that enclose all points. -/
theorem leftChain_reverse_spec {points : List PlanePoint} (h : points.Pairwise Precedes) :
    Encloses points (leftChain points.reverse).reverse ∧
      (leftChain points.reverse).head? = points.head? ∧
      (leftChain points.reverse).getLast? = points.getLast? ∧
      ∀ q ∈ leftChain points.reverse, q ∈ points := by
  have hchain := isLeftChain_map_neg_reverse h
  have hback : ∀ l : List PlanePoint, (l.map .neg).map .neg = l := fun l => by
    simp [Function.comp_def, PlanePoint.neg_neg]
  have hinj : Function.Injective PlanePoint.neg := fun p q hpq => by
    rw [← PlanePoint.neg_neg p, hpq, PlanePoint.neg_neg]
  have hencloses := hchain.encloses.map_neg
  rw [← List.map_reverse, hback, hback] at hencloses
  refine ⟨hencloses.imp fun a b hab x hx => hab x (List.mem_reverse.2 hx), ?_, ?_, fun q hq => ?_⟩
  · have := hchain.head?
    rw [List.head?_map, List.getLast?_map, List.getLast?_reverse] at this
    exact Option.map_injective hinj this
  · have := hchain.getLast?
    rw [List.head?_map, List.getLast?_map, List.head?_reverse] at this
    exact Option.map_injective hinj this
  · obtain ⟨r, hr, hrq⟩ := List.mem_map.1 (hchain.mem q.neg (List.mem_map_of_mem hq))
    exact hinj hrq ▸ List.mem_reverse.1 hr

/-! ## The hull -/

def closed {α : Type*} (l : List α) : List α := l ++ l.take 1

theorem exists_between {α : Type*} {l : List α} {a z : α} (hhead : l.head? = some z)
    (hlast : l.getLast? = some a) (hne : a ≠ z) : ∃ mid, l = z :: (mid ++ [a]) := by
  obtain ⟨t, rfl⟩ := List.head?_eq_some_iff.1 hhead
  have ht : t ≠ [] := by
    rintro rfl
    exact hne (Option.some.inj hlast).symm
  rw [List.getLast?_cons_of_ne_nil ht] at hlast
  obtain ⟨mid, rfl⟩ := List.getLast?_eq_some_iff.1 hlast
  exact ⟨mid, rfl⟩

/-- The chains of a hull of three points or more run from the first point to the last, and the hull
goes through the lower one and back through the upper one. -/
theorem exists_hull_chains {points : List PlanePoint} (h : 2 < (sortedPoints points).length) :
    ∃ a z lower upper, hull points = a :: (lower ++ z :: upper) ∧
      (sortedPoints points).head? = some a ∧ (sortedPoints points).getLast? = some z ∧
      (leftChain (sortedPoints points)).reverse = a :: (lower ++ [z]) ∧
      (leftChain (sortedPoints points).reverse).reverse = z :: (upper ++ [a]) := by
  have hsorted := pairwise_sortedPoints points
  rw [hull, if_neg (by omega)]
  generalize sortedPoints points = sorted at h hsorted ⊢
  obtain ⟨a, mid, z, rfl⟩ : ∃ a mid z, sorted = a :: (mid ++ [z]) := by
    obtain ⟨a, t, rfl⟩ := List.exists_cons_of_length_pos (Nat.zero_lt_of_lt h)
    have ht : t ≠ [] := by
      rintro rfl
      simp at h
    exact ⟨a, t.dropLast, t.getLast ht, by rw [List.dropLast_concat_getLast]⟩
  have haz : a ≠ z := ((List.pairwise_cons.1 hsorted).1 z (by simp)).ne
  have hhead : (a :: (mid ++ [z])).head? = some a := rfl
  have hlast : (a :: (mid ++ [z])).getLast? = some z := by
    rw [← List.cons_append, List.getLast?_concat]
  have hlower := isLeftChain_leftChain hsorted
  obtain ⟨-, huhead, hulast, -⟩ := leftChain_reverse_spec hsorted
  obtain ⟨lower, hl⟩ := exists_between (hlower.head?.trans hlast) (hlower.getLast?.trans hhead) haz
  obtain ⟨upper, hu⟩ := exists_between (huhead.trans hhead) (hulast.trans hlast) haz.symm
  rw [hl, hu]
  exact ⟨a, z, lower.reverse, upper.reverse, by simp, hhead, hlast, by simp, by simp⟩

/-- Both ways between the first point and the last enclose all points. -/
theorem exists_hull_eq {points : List PlanePoint} (h : 2 < (sortedPoints points).length) :
    ∃ a z lower upper, hull points = a :: (lower ++ z :: upper) ∧
      (sortedPoints points).head? = some a ∧ (sortedPoints points).getLast? = some z ∧
      Encloses (sortedPoints points) (a :: (lower ++ [z])) ∧
      Encloses (sortedPoints points) (z :: (upper ++ [a])) := by
  have hsorted := pairwise_sortedPoints points
  obtain ⟨a, z, lower, upper, hhull, hhead, hlast, hlower, hupper⟩ := exists_hull_chains h
  exact ⟨a, z, lower, upper, hhull, hhead, hlast,
    hlower ▸ (isLeftChain_leftChain hsorted).encloses, hupper ▸ (leftChain_reverse_spec hsorted).1⟩

theorem orientation_same (p x : PlanePoint) : orientation p p x = 0 := by
  simp [orientation]

/-- All points lie to the left of every edge of the hull or on it. -/
theorem encloses_closed_hull (points : List PlanePoint) :
    Encloses points (closed (hull points)) := by
  have hmem : ∀ {x}, x ∈ points → x ∈ sortedPoints points := mem_sortedPoints.2
  by_cases h : 2 < (sortedPoints points).length
  · obtain ⟨a, z, lower, upper, hhull, -, -, hlower, hupper⟩ := exists_hull_eq h
    have hclosed : closed (hull points) = a :: lower ++ z :: (upper ++ [a]) := by
      simp [closed, hhull]
    have hchain : Encloses (sortedPoints points) (a :: lower ++ z :: (upper ++ [a])) :=
      List.isChain_split.2 ⟨hlower, hupper⟩
    rw [hclosed]
    exact hchain.imp fun _ _ hab x hx => hab x (hmem hx)
  · have hhull : hull points = sortedPoints points := by rw [hull, if_pos (by omega)]
    rw [hhull]
    match hsorted : sortedPoints points with
    | [] => exact .nil
    | [p] =>
      exact List.isChain_pair.2 fun x _ => (orientation_same p x).le
    | [p, q] =>
      have hpq : ∀ x ∈ points, x = p ∨ x = q := fun x hx => by simpa [hsorted] using hmem hx
      refine List.isChain_cons_cons.2 ⟨fun x hx => ?_, List.isChain_pair.2 fun x hx => ?_⟩ <;>
        obtain rfl | rfl := hpq x hx <;> simp
    | p :: q :: r :: rest =>
      rw [hsorted] at h
      exact absurd (by simp) h

/-! ## Extreme corners -/

/-- A list that begins within a set and leaves it has two neighbours where it does. -/
theorem exists_leaving {α : Type*} {P : α → Prop} {l : List α} {a y : α} (ha : l.head? = some a)
    (hP : P a) (hy : y ∈ l) (hn : ¬ P y) : ∃ b c, [b, c] <:+: l ∧ P b ∧ ¬ P c := by
  by_contra hnone
  push Not at hnone
  have hall := (List.isChain_isInfix l).induction P l (fun b c hbc hb => hnone b c hbc hb)
    fun hne => by
      rw [List.head?_eq_some_head hne] at ha
      exact Option.some.inj ha ▸ hP
  exact hn (hall y hy)

theorem le_of_orientation_nonpos {b c x : PlanePoint} (hbx : b.le x) (hxc : x.Precedes c)
    (h : orientation b c x ≤ 0) : b.v ≤ x.v ∨ c.v ≤ x.v := by
  rw [PlanePoint.le_iff] at hbx
  unfold Precedes at hxc
  by_contra hlt
  push Not at hlt
  -- The line from `b` to `c` is above `x` all the way.
  have hu : b.u < x.u := by omega
  have hu' : x.u ≤ c.u := by omega
  rw [orientation] at h
  nlinarith

/-- A path from the first point to the last that encloses a point has a corner below it. -/
theorem Encloses.exists_le {points middle : List PlanePoint} {a z x : PlanePoint}
    (h : Encloses points (a :: (middle ++ [z]))) (hx : x ∈ points) (hax : a.le x) (hxz : x.le z) :
    ∃ b ∈ a :: (middle ++ [z]), b.v ≤ x.v := by
  obtain hzx | hxz := z.le_or_precedes x
  · rw [PlanePoint.le_iff] at hzx hxz
    exact ⟨z, by simp, by omega⟩
  · have hz : z ∈ a :: (middle ++ [z]) := by simp
    obtain ⟨b, c, hbc, hb, hc⟩ := exists_leaving (P := fun q => q.le x) rfl hax hz hxz.not_le
    have hchain := List.IsChain.infix h hbc
    have hedge := List.isChain_pair.1 hchain x hx
    obtain hv | hv := le_of_orientation_nonpos hb ((c.le_or_precedes x).resolve_left hc) hedge
    · exact ⟨b, hbc.subset (by simp), hv⟩
    · exact ⟨c, hbc.subset (by simp), hv⟩

/-- A path from the last point to the first that encloses a point has a corner above it. -/
theorem Encloses.exists_ge {points middle : List PlanePoint} {a z x : PlanePoint}
    (h : Encloses points (z :: (middle ++ [a]))) (hx : x ∈ points) (hax : a.le x) (hxz : x.le z) :
    ∃ b ∈ z :: (middle ++ [a]), x.v ≤ b.v := by
  have hneg : Encloses (points.map .neg) (z.neg :: (middle.map .neg ++ [a.neg])) := by
    simpa using h.map_neg
  obtain ⟨b, hb, hv⟩ := hneg.exists_le (List.mem_map_of_mem hx) (PlanePoint.neg_le_neg.2 hxz)
    (PlanePoint.neg_le_neg.2 hax)
  have hb : b ∈ (z :: (middle ++ [a])).map .neg := by simpa using hb
  obtain ⟨c, hc, rfl⟩ := List.mem_map.1 hb
  exact ⟨c, hc, Int.neg_le_neg_iff.1 hv⟩

/-- The hull has corners on both sides of every point, in both coordinates. -/
theorem exists_hull_corners {points : List PlanePoint} {x : PlanePoint} (hx : x ∈ points) :
    (∃ b ∈ hull points, b.u ≤ x.u) ∧ (∃ b ∈ hull points, x.u ≤ b.u) ∧
      (∃ b ∈ hull points, b.v ≤ x.v) ∧ ∃ b ∈ hull points, x.v ≤ b.v := by
  have hx := mem_sortedPoints.2 hx
  by_cases h : 2 < (sortedPoints points).length
  · obtain ⟨a, z, lower, upper, hhull, hhead, hlast, hlower, hupper⟩ := exists_hull_eq h
    have hax := le_of_head? (pairwise_sortedPoints points) hhead x hx
    have hxz := le_of_getLast? (pairwise_sortedPoints points) hlast x hx
    obtain ⟨b, hb, hbv⟩ := hlower.exists_le hx hax hxz
    obtain ⟨c, hc, hcv⟩ := hupper.exists_ge hx hax hxz
    rw [hhull]
    rw [PlanePoint.le_iff] at hax hxz
    refine ⟨⟨a, by simp, by omega⟩, ⟨z, by simp, by omega⟩, ⟨b, ?_, hbv⟩, c, ?_, hcv⟩
    · simp only [List.mem_cons, List.mem_append, List.not_mem_nil, or_false] at hb ⊢
      tauto
    · simp only [List.mem_cons, List.mem_append, List.not_mem_nil, or_false] at hc ⊢
      tauto
  · have hhull : hull points = sortedPoints points := by rw [hull, if_pos (by omega)]
    rw [hhull]
    exact ⟨⟨x, hx, Int.le_refl _⟩, ⟨x, hx, Int.le_refl _⟩, ⟨x, hx, Int.le_refl _⟩, x, hx,
      Int.le_refl _⟩

/-- The corners of the hull are among the points. -/
theorem mem_of_mem_hull {points : List PlanePoint} {x : PlanePoint} (hx : x ∈ hull points) :
    x ∈ points := by
  have hsorted := pairwise_sortedPoints points
  rw [hull] at hx
  split_ifs at hx with h
  · exact mem_sortedPoints.1 hx
  · rw [← mem_sortedPoints]
    obtain hx | hx := List.mem_append.1 hx
    · exact (isLeftChain_leftChain hsorted).mem x (List.mem_of_mem_tail (List.mem_reverse.1 hx))
    · exact (leftChain_reverse_spec hsorted).2.2.2 x (List.mem_of_mem_tail (List.mem_reverse.1 hx))

end VoxelAlgebra
