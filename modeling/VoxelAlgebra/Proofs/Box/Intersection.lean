import VoxelAlgebra.Box.Given
import VoxelAlgebra.Proofs.Box.Overlap

/-!
# Boxes meet where their extents do

The overlap of two boxes has the greater of their low sides and the smaller of their high sides. If
these are inverted on some axis, clipping records nothing: an edge of one box that passes through a
face of the other one has a point there that lies in both, as has a corner of one box that lies in
the other.

The rules for the overlap are written for every way in which a coordinate is read. They do the same
wherever voxels are carried over to such points.

## Main definitions

* `Carries` — points that stand for voxels.
* `run_clip_of_apart` — boxes that are apart have no corners in common.
* `intersect_eq_meet` — the overlap of two boxes in terms of their extents.
-/

namespace VoxelAlgebra

open Coordinates

/-! ## Boxes that are apart -/

instance (e : Extents) : Decidable e.IsUpright :=
  decidable_of_iff (∀ a ∈ Axis.all, e.low.coord a ≤ e.high.coord a)
    ⟨fun h a => h a a.mem_all, fun h a _ => h a⟩

theorem Extents.IsUpright.holds_corner {e : Extents} (h : e.IsUpright) (c : Corner) :
    e.Holds (e.corner c) := by
  intro a
  have ha := h a
  rw [e.coord_corner]
  split_ifs <;> omega

section

variable {b o : Extents} {a : Axis} {found : Cube (Option Voxel)}

/-- Where an edge of one box passes through a face of the other one, a point lies in both. -/
theorem isUpright_meet_of_crosses (hb : b.IsUpright) {c : Corner} (hc : c.isHigh a = false)
    {plane : Int} (hlow : o.low.coord a ≤ plane) (hhigh : plane ≤ o.high.coord a)
    (h : Id.run (crosses (b.corner c) (b.corner (c.raise a)) a plane o.reading) = true) :
    (b.meet o).IsUpright := by
  obtain ⟨hstart, hend, hothers⟩ := (crosses_iff ..).1 h
  simp only [b.coord_corner, hc, isHigh_raise, decide_true, Bool.true_or, Bool.false_eq_true,
    if_false, if_true] at hstart hend
  have hpoint : b.Holds (Point.moveTo (b.corner c) a plane) := fun d => by
    rw [coord_moveTo]
    split_ifs with hd
    · exact hd ▸ ⟨hstart, hend⟩
    · exact hb.holds_corner c d
  have hother : o.Holds (Point.moveTo (b.corner c) a plane) := fun d => by
    rw [coord_moveTo]
    split_ifs with hd
    · exact hd ▸ ⟨hlow, hhigh⟩
    · exact hothers d hd
  exact ((b.holds_meet_iff o _).2 ⟨hpoint, hother⟩).isUpright

/-- A corner of one box that lies in the other one lies in both. -/
theorem isUpright_meet_of_isInside (hb : b.IsUpright) {c : Corner}
    (h : Id.run (isInside (b.corner c) o.reading) = true) : (b.meet o).IsUpright :=
  ((b.holds_meet_iff o _).2 ⟨hb.holds_corner c, (isInside_iff _ _).1 h⟩).isUpright

theorem run_clipEdges_of_apart (hb : b.IsUpright) (ho : o.IsUpright)
    (hmeet : ¬(b.meet o).IsUpright) :
    Id.run (clipEdges b.reading o.reading a found) = found := by
  rw [run_clipEdges]
  refine List.foldlRecOn (motive := (· = found)) _ _ rfl fun found' hfound edge hedge => ?_
  obtain ⟨c, d⟩ := edge
  obtain ⟨hc, hd⟩ := mem_edges.1 hedge
  simp only at hc hd
  subst hd hfound
  have hcross (plane : Int) (hlow : o.low.coord a ≤ plane) (hhigh : plane ≤ o.high.coord a) :
      ¬Id.run (crosses (b.corner c) (b.corner (c.raise a)) a plane o.reading) = true :=
    fun h => hmeet (isUpright_meet_of_crosses hb hc hlow hhigh h)
  have hlow := hcross (o.low.coord a) (Int.le_refl _) (ho a)
  have hhigh := hcross (o.high.coord a) (ho a) (Int.le_refl _)
  simp only [run_clipEdge, if_neg hlow, if_neg hhigh]

theorem run_keepEnds_of_apart (hb : b.IsUpright) (hmeet : ¬(b.meet o).IsUpright) :
    Id.run (keepEnds b.reading o.reading a found) = found := by
  rw [run_keepEnds]
  refine List.foldlRecOn (motive := (· = found)) _ _ rfl fun found' hfound c _ => ?_
  rw [run_keepInside, if_neg fun h => hmeet (isUpright_meet_of_isInside hb h), hfound]

/-- Clipping records nothing of boxes that are apart. -/
theorem run_clip_of_apart (hb : b.IsUpright) (ho : o.IsUpright) (hmeet : ¬(b.meet o).IsUpright) :
    Id.run (clip b.reading o.reading) = Cube.fill none := by
  have hmeet' : ¬(o.meet b).IsUpright := o.meet_comm b ▸ hmeet
  rw [run_clip_eq_foldl]
  refine List.foldlRecOn (motive := (· = Cube.fill none)) _ _ rfl fun found hfound a _ => ?_
  rw [run_clipAxis, run_clipEdges_of_apart hb ho hmeet, run_clipEdges_of_apart ho hb hmeet',
    run_keepEnds_of_apart hb hmeet, run_keepEnds_of_apart ho hmeet', hfound]

end

/-! ## Points that stand for voxels -/

/-- Voxels are carried over to points that have the same coordinates and move in the same way. -/
structure Carries (m : Type → Type) {π : Type} [Monad m] [Coordinates m π] (point : Voxel → π) :
    Prop where
  coord : ∀ v a, (coord (point v) a : m Int) = pure (v.coord a)
  moveTo : ∀ v a n, Point.moveTo (point v) a n = point (Point.moveTo v a n)

/-- A row of three numbers stands for a voxel. -/
theorem carries_ofVoxel : Carries (Except Fault) GivenPoint.ofVoxel where
  coord v a := by cases a <;> rfl
  moveTo v a n := by cases a <;> rfl

/-- Corners given one by one as rows of three numbers are all there. -/
theorem givenCorner_corners (e : Extents) :
    givenCorner (e.corners.toList.map GivenPoint.ofVoxel) =
      fun c => pure (GivenPoint.ofVoxel (e.corners.get c)) := by
  funext c
  cases c <;> rfl

def Extents.readingAs {π : Type} (m : Type → Type) [Monad m] (point : Voxel → π) (e : Extents) :
    Corner → m π :=
  fun c => pure (point (e.corner c))

def carryAll {π : Type} (point : Voxel → π) (found : Cube (Option Voxel)) : Cube (Option π) :=
  found.map (Option.map point)

theorem carryAll_set {π : Type} (point : Voxel → π) (found : Cube (Option Voxel)) (c : Corner)
    (v : Voxel) : carryAll point (found.set c (some v)) =
      (carryAll point found).set c (some (point v)) := by
  refine Cube.ext_get fun d => ?_
  simp only [carryAll, Cube.get_map, Cube.get_set]
  split_ifs <;> rfl

/-- A loop over carried corners whose steps do the same as those over voxels. -/
theorem foldlM_carryAll {m : Type → Type} {π : Type} [Monad m] [LawfulMonad m] {point : Voxel → π}
    {β : Type} {f : Cube (Option π) → β → m (Cube (Option π))}
    {g : Cube (Option Voxel) → β → Id (Cube (Option Voxel))}
    (h : ∀ found x, f (carryAll point found) x = pure (carryAll point (Id.run (g found x))))
    (l : List β) (found : Cube (Option Voxel)) :
    l.foldlM f (carryAll point found) = pure (carryAll point (Id.run (l.foldlM g found))) := by
  induction l generalizing found with
  | nil => rfl
  | cons x l ih =>
    rw [List.foldlM_cons, h, pure_bind, ih, List.foldlM_cons]
    rfl

namespace Carries

variable {m : Type → Type} {π : Type} [Monad m] [LawfulMonad m] [Coordinates m π]
  {point : Voxel → π} (hpoint : Carries m point)

include hpoint

theorem isBetween_eq (low v high : Voxel) (a : Axis) :
    (isBetween (point low) (point v) (point high) a : m Bool) =
      pure (Id.run (isBetween low v high a)) := by
  by_cases h : low.coord a ≤ v.coord a <;> simp [isBetween, hpoint.coord,
    Coordinates.coord, h]

theorem allM_isBetween_eq (low v high : Voxel) (axes : List Axis) :
    (axes.allM fun a => isBetween (point low) (point v) (point high) a : m Bool) =
      pure (Id.run (axes.allM fun a => isBetween low v high a)) := by
  induction axes with
  | nil => rfl
  | cons a axes ih =>
    rw [List.allM, List.allM, hpoint.isBetween_eq, pure_bind, ih, Id.run_bind]
    cases Id.run (isBetween low v high a) <;> rfl

theorem isInside_eq (v : Voxel) (e : Extents) :
    isInside (point v) (e.readingAs m point) = pure (Id.run (isInside v e.reading)) := by
  simp only [isInside, Extents.readingAs, pure_bind, hpoint.allM_isBetween_eq]
  rfl

theorem crosses_eq (low high : Voxel) (a : Axis) (plane : Int) (e : Extents) :
    crosses (point low) (point high) a plane (e.readingAs m point) =
      pure (Id.run (crosses low high a plane e.reading)) := by
  by_cases hlow : low.coord a ≤ plane
  · by_cases hhigh : plane ≤ high.coord a
    · simp [crosses, hpoint.coord, Coordinates.coord, hlow, hhigh, Extents.readingAs,
        Extents.reading, hpoint.allM_isBetween_eq]
    · simp [crosses, hpoint.coord, Coordinates.coord, hhigh]
  · simp [crosses, hpoint.coord, Coordinates.coord, hlow]

theorem clipEdge_eq (b o : Extents) (a : Axis) (lowPlane highPlane : Int)
    (found : Cube (Option Voxel)) (edge : Corner × Corner) :
    clipEdge (b.readingAs m point) (o.readingAs m point) a lowPlane highPlane
        (carryAll point found) edge =
      pure (carryAll point (Id.run
        (clipEdge b.reading o.reading a lowPlane highPlane found edge))) := by
  have hread (c : Corner) : b.readingAs m point c = pure (point (b.corner c)) := rfl
  simp only [clipEdge, hread, pure_bind, hpoint.crosses_eq, hpoint.moveTo, ← carryAll_set]
  simp only [← apply_ite (carryAll point), ← carryAll_set]
  rfl

theorem clipEdges_eq (b o : Extents) (a : Axis) (found : Cube (Option Voxel)) :
    clipEdges (b.readingAs m point) (o.readingAs m point) a (carryAll point found) =
      pure (carryAll point (Id.run (clipEdges b.reading o.reading a found))) := by
  simp only [clipEdges, Extents.readingAs, pure_bind, hpoint.coord]
  exact foldlM_carryAll (fun found edge => hpoint.clipEdge_eq b o a _ _ found edge) _ found

theorem keepInside_eq (b o : Extents) (found : Cube (Option Voxel)) (c : Corner) :
    keepInside (b.readingAs m point) (o.readingAs m point) (carryAll point found) c =
      pure (carryAll point (Id.run (keepInside b.reading o.reading found c))) := by
  have hread : b.readingAs m point c = pure (point (b.corner c)) := rfl
  simp only [keepInside, hread, pure_bind, hpoint.isInside_eq, ← carryAll_set, ← apply_ite pure,
    ← apply_ite (carryAll point)]
  rfl

theorem keepEnds_eq (b o : Extents) (a : Axis) (found : Cube (Option Voxel)) :
    keepEnds (b.readingAs m point) (o.readingAs m point) a (carryAll point found) =
      pure (carryAll point (Id.run (keepEnds b.reading o.reading a found))) :=
  foldlM_carryAll (hpoint.keepInside_eq b o) _ found

theorem clipAxis_eq (b o : Extents) (found : Cube (Option Voxel)) (a : Axis) :
    clipAxis (b.readingAs m point) (o.readingAs m point) (carryAll point found) a =
      pure (carryAll point (Id.run (clipAxis b.reading o.reading found a))) := by
  simp only [clipAxis, hpoint.clipEdges_eq, hpoint.keepEnds_eq, pure_bind]
  rfl

/-- Clipping finds the points that stand for the corners that it finds of voxels. -/
theorem clip_eq (b o : Extents) :
    clip (b.readingAs m point) (o.readingAs m point) =
      pure (carryAll point (Id.run (clip b.reading o.reading))) := by
  have hstart : (Cube.fill none : Cube (Option π)) = carryAll point (Cube.fill none) := rfl
  rw [clip, hstart]
  exact foldlM_carryAll (hpoint.clipAxis_eq b o) _ _

end Carries

/-! ## The overlap -/

section

variable {m : Type → Type} {π : Type} [Monad m] [Coordinates m π]

/-- Without a known corner nothing can be inferred. -/
theorem correct_none (goal : Nat) :
    (correct goal (Cube.fill none : Cube (Option π)) : m _) = pure (false, Cube.fill none) := by
  have hcorrectable : ¬IsCorrectable (Cube.fill none : Cube (Option π)) := by
    intro h
    obtain ⟨c, -, -, hc⟩ := h .x (Axis.mem_all _) false (by simp)
    rw [Cube.get_fill] at hc
    cases hc
  rw [correct, if_neg hcorrectable]

/-- The overlap of two boxes has the greater of their low sides and the smaller of their high sides,
also where it is flat; if these are inverted on some axis, it has no corners. -/
theorem intersect_eq_meet [LawfulMonad m] {point : Voxel → π} (hpoint : Carries m point)
    {e₁ e₂ : Extents} (h₁ : e₁.IsUpright) (h₂ : e₂.IsUpright) :
    (intersect (fun c => pure (point (e₁.corners.get c)))
        (fun c => pure (point (e₂.corners.get c))) : m _) =
      pure (if (e₁.meet e₂).IsUpright then
          (true, (e₁.meet e₂).corners.map fun v => some (point v))
        else (false, Cube.fill none)) := by
  have hreading (e : Extents) :
      (fun c => pure (point (e.corners.get c))) = e.readingAs m point := by
    funext c
    rw [e.get_corners, Extents.readingAs]
  rw [hreading, hreading, intersect, hpoint.clip_eq, pure_bind]
  split_ifs with hmeet
  · have hcorners : carryAll point (Cube.ofFn fun c => some ((e₁.meet e₂).corner c)) =
        Cube.ofFn fun c => some (point ((e₁.meet e₂).corner c)) := rfl
    rw [run_clip hmeet, hcorners, correct_known]
    rfl
  · have hnone : carryAll point (Cube.fill none) = Cube.fill none := rfl
    rw [run_clip_of_apart h₁ h₂ hmeet, hnone, correct_none]

/-- A box that is flat on one axis touches the face of another one: their overlap is flat on two
axes. One step away they have none. -/
theorem intersect_eq_meet_touching :
    let e : Extents := ⟨⟨0, 0, 0⟩, ⟨2, 2, 2⟩⟩
    let touching : Extents := ⟨⟨2, 1, 1⟩, ⟨4, 5, 1⟩⟩
    let apart : Extents := ⟨⟨3, 1, 1⟩, ⟨4, 5, 1⟩⟩
    let reading (e : Extents) := givenCorner (e.corners.toList.map GivenPoint.ofVoxel)
    Carries (Except Fault) GivenPoint.ofVoxel ∧ e.IsUpright ∧ touching.IsUpright ∧
      apart.IsUpright ∧
      intersect (reading e) (reading touching) = .ok (true,
        (⟨⟨2, 1, 1⟩, ⟨2, 2, 1⟩⟩ : Extents).corners.map fun v => some (.ofVoxel v)) ∧
      intersect (reading e) (reading apart) = .ok (false, Cube.fill none) := by
  intro e touching apart reading
  have he : e.IsUpright := by decide
  have htouching : touching.IsUpright := by decide
  have hapart : apart.IsUpright := by decide
  refine ⟨carries_ofVoxel, he, htouching, hapart, ?_, ?_⟩
  · simp only [reading, givenCorner_corners]
    exact intersect_eq_meet carries_ofVoxel he htouching
  · simp only [reading, givenCorner_corners]
    exact intersect_eq_meet carries_ofVoxel he hapart

end

end VoxelAlgebra
