import VoxelAlgebra.Proofs.Box.Extents

/-!
# Overlaps of boxes

Where two boxes meet, clipping finds every corner of the overlap. Each corner of the overlap lies on
the sides of the two boxes that are further in. At least two of the three sides belong to the same
box, so the corner is a corner of that box or lies on one of its edges.

## Main definitions

* `Extents.meet` — the extents that two boxes have in common.
* `IsClipped` — corners that were recorded at the right places.
* `Box.exists_overlap?` — the overlap of boxes that meet contains their common voxels.
-/

namespace VoxelAlgebra

open Coordinates

namespace Extents

/-- The extents that two boxes have in common; they can be inverted if the boxes do not meet. -/
def meet (e₁ e₂ : Extents) : Extents where
  low := Voxel.ofCoords fun a => max (e₁.low.coord a) (e₂.low.coord a)
  high := Voxel.ofCoords fun a => min (e₁.high.coord a) (e₂.high.coord a)

theorem meet_comm (e₁ e₂ : Extents) : e₁.meet e₂ = e₂.meet e₁ := by
  simp only [meet, Int.max_comm, Int.min_comm]

theorem holds_meet_iff (e₁ e₂ : Extents) (v : Voxel) :
    (e₁.meet e₂).Holds v ↔ e₁.Holds v ∧ e₂.Holds v := by
  simp only [Holds, meet, Voxel.coord_ofCoords, ← forall_and]
  exact forall_congr' fun a => by omega

def IsUpright (e : Extents) : Prop := ∀ a, e.low.coord a ≤ e.high.coord a

theorem Holds.isUpright {e : Extents} {v : Voxel} (h : e.Holds v) : e.IsUpright := fun a =>
  Int.le_trans (h a).1 (h a).2

theorem coord_corner (e : Extents) (c : Corner) (a : Axis) :
    (e.corner c).coord a = if c.isHigh a then e.high.coord a else e.low.coord a := by
  rw [corner, Voxel.coord_ofCoords]

theorem get_corners (e : Extents) (c : Corner) : e.corners.get c = e.corner c := by
  rw [corners, Cube.get_ofFn]

end Extents

/-! ## Recorded corners -/

def IsClipped (e : Extents) (found : Cube (Option Voxel)) : Prop :=
  ∀ c v, found.get c = some v → v = e.corner c

theorem IsClipped.set {e : Extents} {found : Cube (Option Voxel)} (h : IsClipped e found)
    {c : Corner} {v : Voxel} (hv : v = e.corner c) : IsClipped e (found.set c (some v)) := by
  intro d w hw
  rw [Cube.get_set] at hw
  split_ifs at hw with hd
  · cases hw
    rw [hd, hv]
  · exact h d w hw

def Keeps (found found' : Cube (Option Voxel)) : Prop :=
  ∀ c, (found.get c).isSome → (found'.get c).isSome

theorem Keeps.refl (found : Cube (Option Voxel)) : Keeps found found := fun _ h => h

theorem Keeps.trans {f₁ f₂ f₃ : Cube (Option Voxel)} (h : Keeps f₁ f₂) (h' : Keeps f₂ f₃) :
    Keeps f₁ f₃ :=
  fun c hc => h' c (h c hc)

theorem keeps_set (found : Cube (Option Voxel)) (c : Corner) (v : Voxel) :
    Keeps found (found.set c (some v)) := by
  intro d hd
  rw [Cube.get_set]
  split_ifs
  · rfl
  · exact hd

/-- A step of clipping records corners of the extents and keeps those that are recorded. -/
def Clips (e : Extents) (step : Cube (Option Voxel) → Cube (Option Voxel)) : Prop :=
  ∀ found, IsClipped e found → IsClipped e (step found) ∧ Keeps found (step found)

variable {e : Extents} {found : Cube (Option Voxel)}

theorem Clips.comp {f g : Cube (Option Voxel) → Cube (Option Voxel)} (hf : Clips e f)
    (hg : Clips e g) : Clips e (g ∘ f) := fun found h =>
  have hfirst := hf found h
  have hsecond := hg _ hfirst.1
  ⟨hsecond.1, hfirst.2.trans hsecond.2⟩

theorem Clips.foldl {β : Type} {f : Cube (Option Voxel) → β → Cube (Option Voxel)} {l : List β}
    (h : ∀ b ∈ l, Clips e fun found => f found b) : Clips e fun found => l.foldl f found := by
  induction l with
  | nil => exact fun found hf => ⟨hf, .refl found⟩
  | cons b l ih =>
    exact (h b List.mem_cons_self).comp (ih fun d hd => h d (List.mem_cons_of_mem b hd))

/-- A corner that one step records is recorded by all steps. -/
theorem isSome_foldl {β : Type} {f : Cube (Option Voxel) → β → Cube (Option Voxel)} {l : List β}
    (h : ∀ b ∈ l, Clips e fun found => f found b) {b : β} (hb : b ∈ l) {c : Corner}
    (hc : ∀ found, IsClipped e found → ((f found b).get c).isSome) (hfound : IsClipped e found) :
    ((l.foldl f found).get c).isSome := by
  induction l generalizing found with
  | nil => cases hb
  | cons d l ih =>
    have hd := h d List.mem_cons_self found hfound
    have hl : ∀ b ∈ l, Clips e fun found => f found b := fun b hb =>
      h b (List.mem_cons_of_mem d hb)
    obtain rfl | hb := List.mem_cons.1 hb
    · exact (Clips.foldl hl _ hd.1).2 c (hc found hfound)
    · exact ih hl hb hd.1

/-! ## Steps of clipping -/

def Extents.reading (e : Extents) : Corner → Id Voxel := fun c => pure (e.corner c)

theorem crosses_iff (low high : Voxel) (a : Axis) (plane : Int) (e : Extents) :
    Id.run (crosses low high a plane e.reading) = true ↔
      low.coord a ≤ plane ∧ plane ≤ high.coord a ∧
        ∀ b ≠ a, e.low.coord b ≤ low.coord b ∧ low.coord b ≤ e.high.coord b := by
  have hsides (b : Axis) : Id.run (isBetween (e.corner .flb) low (e.corner .brt) b) = true ↔
      e.low.coord b ≤ low.coord b ∧ low.coord b ≤ e.high.coord b := by
    rw [Box.isBetween_iff, e.coord_corner, e.coord_corner]
    cases b <;> rfl
  by_cases hlow : low.coord a ≤ plane
  · by_cases hhigh : plane ≤ high.coord a
    · have h : Id.run (crosses low high a plane e.reading) = Id.run (a.others.allM fun b =>
          isBetween (e.corner .flb) low (e.corner .brt) b) := by
        simp [crosses, coord, hlow, hhigh, Extents.reading]
      rw [h, Box.allM_iff]
      simp only [hlow, hhigh, true_and, Axis.mem_others, hsides]
    · simp [crosses, coord, hlow, hhigh]
  · simp [crosses, coord, hlow]

theorem isInside_iff (v : Voxel) (e : Extents) :
    Id.run (isInside v e.reading) = true ↔ e.Holds v := by
  have h : Id.run (isInside v e.reading) = Id.run (Axis.all.allM fun a =>
    isBetween (e.corner .flb) v (e.corner .brt) a) := rfl
  have hsides (a : Axis) : Id.run (isBetween (e.corner .flb) v (e.corner .brt) a) = true ↔
      e.low.coord a ≤ v.coord a ∧ v.coord a ≤ e.high.coord a := by
    rw [Box.isBetween_iff, e.coord_corner, e.coord_corner]
    cases a <;> rfl
  rw [h, Box.allM_iff]
  simp only [hsides]
  exact ⟨fun h a => h a a.mem_all, fun h a _ => h a⟩

theorem coord_moveTo (v : Voxel) (a b : Axis) (n : Int) :
    (Point.moveTo v a n : Voxel).coord b = if b = a then n else v.coord b := by
  simp only [Point.moveTo, Voxel.coord_ofCoords]

theorem isHigh_raise (c : Corner) (a b : Axis) :
    (c.raise a).isHigh b = (decide (b = a) || c.isHigh b) := by
  rw [Corner.raise, Corner.isHigh_ofSides]

theorem mem_edges {a : Axis} {edge : Corner × Corner} :
    edge ∈ Corner.edges a ↔ edge.1.isHigh a = false ∧ edge.2 = edge.1.raise a := by
  obtain ⟨c, d⟩ := edge
  simp only [Corner.edges, List.mem_map, List.mem_filter, Prod.mk.injEq]
  constructor
  · rintro ⟨c, ⟨-, hc⟩, rfl, rfl⟩
    exact ⟨by simpa using hc, rfl⟩
  · rintro ⟨hc, rfl⟩
    exact ⟨c, ⟨c.mem_all, by simpa using hc⟩, rfl, rfl⟩

/-- Every corner ends an edge along each axis. -/
theorem exists_edge (c : Corner) (a : Axis) :
    ∃ edge ∈ Corner.edges a, c = if c.isHigh a then edge.2 else edge.1 := by
  cases c <;> cases a <;> decide

section

variable {b o : Extents} {a : Axis}

theorem coord_corner_meet (b o : Extents) (c : Corner) (a : Axis) :
    ((b.meet o).corner c).coord a = if c.isHigh a then min (b.high.coord a) (o.high.coord a)
      else max (b.low.coord a) (o.low.coord a) := by
  simp only [Extents.coord_corner, Extents.meet, Voxel.coord_ofCoords]

/-- Where an edge passes through the low face of the other box, its low end is cut off. -/
theorem moveTo_low (hmeet : (b.meet o).IsUpright) {c : Corner} (hc : c.isHigh a = false)
    (h : Id.run (crosses (b.corner c) (b.corner (c.raise a)) a (o.low.coord a) o.reading) = true) :
    (Point.moveTo (b.corner c) a (o.low.coord a) : Voxel) = (b.meet o).corner c := by
  obtain ⟨hlow, -, hothers⟩ := (crosses_iff ..).1 h
  refine Voxel.ext_coord fun d => ?_
  have hd := hmeet d
  rw [coord_moveTo, coord_corner_meet]
  simp only [b.coord_corner, Extents.meet, Voxel.coord_ofCoords] at hlow hothers hd ⊢
  by_cases hda : d = a
  · subst hda
    simp only [hc, Bool.false_eq_true, if_false, if_true] at hlow ⊢
    omega
  · have hd' := hothers d hda
    simp only [hda, if_false]
    cases hcd : c.isHigh d <;> simp only [hcd, Bool.false_eq_true, if_false, if_true] at hd' ⊢ <;>
      omega

/-- Where an edge passes through the high face of the other box, its high end is cut off. -/
theorem moveTo_high (hmeet : (b.meet o).IsUpright) {c : Corner} (hc : c.isHigh a = false)
    (h : Id.run (crosses (b.corner c) (b.corner (c.raise a)) a (o.high.coord a) o.reading) = true) :
    (Point.moveTo (b.corner (c.raise a)) a (o.high.coord a) : Voxel) =
      (b.meet o).corner (c.raise a) := by
  obtain ⟨-, hhigh, hothers⟩ := (crosses_iff ..).1 h
  refine Voxel.ext_coord fun d => ?_
  have hd := hmeet d
  rw [coord_moveTo, coord_corner_meet]
  simp only [b.coord_corner, isHigh_raise, Extents.meet, Voxel.coord_ofCoords] at hhigh hothers hd ⊢
  by_cases hda : d = a
  · subst hda
    simp only [decide_true, Bool.true_or, if_true] at hhigh ⊢
    omega
  · have hd' := hothers d hda
    simp only [hda, decide_false, Bool.false_or, if_false]
    cases hcd : c.isHigh d <;> simp only [hcd, Bool.false_eq_true, if_false, if_true] at hd' ⊢ <;>
      omega

/-- A corner of a box that lies in the other one is a corner of the overlap. -/
theorem corner_eq_meet {c : Corner} (h : o.Holds (b.corner c)) :
    b.corner c = (b.meet o).corner c := by
  refine Voxel.ext_coord fun d => ?_
  have hd := h d
  rw [coord_corner_meet]
  simp only [b.coord_corner] at hd ⊢
  cases hcd : c.isHigh d <;> simp only [hcd, Bool.false_eq_true, if_false, if_true] at hd ⊢ <;>
    omega

theorem run_clipEdge (b o : Extents) (a : Axis) (c d : Corner) (found : Cube (Option Voxel)) :
    Id.run (clipEdge b.reading o.reading a (o.low.coord a) (o.high.coord a) found (c, d)) =
      (let found := if Id.run (crosses (b.corner c) (b.corner d) a (o.low.coord a) o.reading) then
          found.set c (some (Point.moveTo (b.corner c) a (o.low.coord a))) else found
       if Id.run (crosses (b.corner c) (b.corner d) a (o.high.coord a) o.reading) then
         found.set d (some (Point.moveTo (b.corner d) a (o.high.coord a))) else found) :=
  rfl

theorem run_keepInside (b o : Extents) (c : Corner) (found : Cube (Option Voxel)) :
    Id.run (keepInside b.reading o.reading found c) =
      if Id.run (isInside (b.corner c) o.reading) then found.set c (some (b.corner c))
      else found := by
  have h : keepInside b.reading o.reading found c =
    if Id.run (isInside (b.corner c) o.reading) then pure (found.set c (some (b.corner c)))
      else pure found := rfl
  rw [h]
  split_ifs <;> rfl

theorem clips_clipEdge (hmeet : (b.meet o).IsUpright) {edge : Corner × Corner}
    (hedge : edge ∈ Corner.edges a) : Clips (b.meet o) fun found =>
      Id.run (clipEdge b.reading o.reading a (o.low.coord a) (o.high.coord a) found edge) := by
  obtain ⟨c, d⟩ := edge
  obtain ⟨hc, hd⟩ := mem_edges.1 hedge
  simp only at hc hd
  subst hd
  intro found hfound
  simp only [run_clipEdge]
  split_ifs with hhigh hlow hlow
  · exact ⟨(hfound.set (moveTo_low hmeet hc hlow)).set (moveTo_high hmeet hc hhigh),
      (keeps_set found _ _).trans (keeps_set _ _ _)⟩
  · exact ⟨hfound.set (moveTo_high hmeet hc hhigh), keeps_set found _ _⟩
  · exact ⟨hfound.set (moveTo_low hmeet hc hlow), keeps_set found _ _⟩
  · exact ⟨hfound, .refl found⟩

theorem clips_keepInside (c : Corner) : Clips (b.meet o) fun found =>
    Id.run (keepInside b.reading o.reading found c) := by
  intro found hfound
  simp only [run_keepInside]
  split_ifs with h
  · exact ⟨hfound.set (corner_eq_meet ((isInside_iff _ _).1 h)), keeps_set found _ _⟩
  · exact ⟨hfound, .refl found⟩

theorem run_clipEdges (b o : Extents) (a : Axis) (found : Cube (Option Voxel)) :
    Id.run (clipEdges b.reading o.reading a found) = (Corner.edges a).foldl (fun found edge =>
      Id.run (clipEdge b.reading o.reading a (o.low.coord a) (o.high.coord a) found edge))
        found := by
  have hflb : (o.corner .flb).coord a = o.low.coord a := by
    rw [o.coord_corner]
    cases a <;> rfl
  have hbrt : (o.corner .brt).coord a = o.high.coord a := by
    rw [o.coord_corner]
    cases a <;> rfl
  have h : Id.run (clipEdges b.reading o.reading a found) =
    Id.run ((Corner.edges a).foldlM (clipEdge b.reading o.reading a ((o.corner .flb).coord a)
      ((o.corner .brt).coord a)) found) := rfl
  rw [h, hflb, hbrt, List.idRun_foldlM]

theorem run_keepEnds (b o : Extents) (a : Axis) (found : Cube (Option Voxel)) :
    Id.run (keepEnds b.reading o.reading a found) =
      ((Corner.edges a).flatMap fun edge => [edge.1, edge.2]).foldl
        (fun found c => Id.run (keepInside b.reading o.reading found c)) found := by
  rw [keepEnds, List.idRun_foldlM]

theorem clips_clipEdges (hmeet : (b.meet o).IsUpright) : Clips (b.meet o) fun found =>
    Id.run (clipEdges b.reading o.reading a found) := by
  simp only [run_clipEdges]
  exact .foldl fun edge hedge => clips_clipEdge hmeet hedge

theorem clips_keepEnds : Clips (b.meet o) fun found =>
    Id.run (keepEnds b.reading o.reading a found) := by
  simp only [run_keepEnds]
  exact .foldl fun c _ => clips_keepInside c

/-! ## All corners are found -/

theorem Axis.forall_ne_x {p : Axis → Prop} (hy : p .y) (hz : p .z) : ∀ d ≠ .x, p d := by
  rintro (_ | _ | _) hd
  exacts [absurd rfl hd, hy, hz]

theorem Axis.forall_ne_y {p : Axis → Prop} (hx : p .x) (hz : p .z) : ∀ d ≠ .y, p d := by
  rintro (_ | _ | _) hd
  exacts [hx, absurd rfl hd, hz]

theorem Axis.forall_ne_z {p : Axis → Prop} (hx : p .x) (hy : p .y) : ∀ d ≠ .z, p d := by
  rintro (_ | _ | _) hd
  exacts [hx, hy, absurd rfl hd]

/-- The box `b` is the one that is further in at the side of a corner. -/
def IsInner (b o : Extents) (c : Corner) (a : Axis) : Prop :=
  if c.isHigh a then b.high.coord a ≤ o.high.coord a else o.low.coord a ≤ b.low.coord a

theorem isInner_or_isInner (b o : Extents) (c : Corner) (a : Axis) :
    IsInner b o c a ∨ IsInner o b c a := by
  unfold IsInner
  split_ifs <;> exact Int.le_total _ _

/-- The corner of a box lies between the sides of the other one where it is further in. -/
theorem IsInner.between (hmeet : (b.meet o).IsUpright) {c : Corner} {d : Axis}
    (h : IsInner b o c d) : o.low.coord d ≤ (b.corner c).coord d ∧
      (b.corner c).coord d ≤ o.high.coord d := by
  have hd := hmeet d
  simp only [Extents.meet, Voxel.coord_ofCoords] at hd
  rw [b.coord_corner]
  unfold IsInner at h
  split_ifs at h ⊢ <;> omega

/-- A corner that is further in on all axes lies in the other box. -/
theorem isSome_keepEnds (hmeet : (b.meet o).IsUpright) {c : Corner} (h : ∀ d, IsInner b o c d)
    {found : Cube (Option Voxel)} (hfound : IsClipped (b.meet o) found) :
    ((Id.run (keepEnds b.reading o.reading a found)).get c).isSome := by
  obtain ⟨edge, hedge, hc⟩ := exists_edge c a
  have hmem : c ∈ (Corner.edges a).flatMap fun edge => [edge.1, edge.2] := by
    refine List.mem_flatMap.2 ⟨edge, hedge, ?_⟩
    rw [hc]
    split_ifs <;> simp
  rw [run_keepEnds]
  refine isSome_foldl (fun c _ => clips_keepInside c) hmem (fun found _ => ?_) hfound
  rw [run_keepInside, if_pos ((isInside_iff _ _).2 fun d => (h d).between hmeet), Cube.get_set,
    if_pos rfl]
  rfl

/-- An edge passes through a face of the other box if it is further in on the other two axes. -/
theorem crosses_of_isInner (hmeet : (b.meet o).IsUpright) {c : Corner} (hc : c.isHigh a = false)
    (h : ∀ d ≠ a, IsInner b o c d) {plane : Int} (hlow : b.low.coord a ≤ plane)
    (hhigh : plane ≤ b.high.coord a) :
    Id.run (crosses (b.corner c) (b.corner (c.raise a)) a plane o.reading) = true := by
  refine (crosses_iff ..).2 ⟨?_, ?_, fun d hd => (h d hd).between hmeet⟩
  · simpa [b.coord_corner, hc] using hlow
  · simpa [b.coord_corner, isHigh_raise] using hhigh

/-- A corner that is further in on the other two axes lies on an edge along the third one, which
passes through a face of the other box there. -/
theorem isSome_clipEdges (hmeet : (b.meet o).IsUpright) {c : Corner}
    (h : ∀ d ≠ a, IsInner b o c d) (ha : IsInner o b c a) {found : Cube (Option Voxel)}
    (hfound : IsClipped (b.meet o) found) :
    ((Id.run (clipEdges b.reading o.reading a found)).get c).isSome := by
  have hup := hmeet a
  simp only [Extents.meet, Voxel.coord_ofCoords] at hup
  obtain ⟨⟨low, high⟩, hedge, hc⟩ := exists_edge c a
  rw [run_clipEdges]
  refine isSome_foldl (fun edge hedge => clips_clipEdge hmeet hedge) hedge (fun found _ => ?_)
    hfound
  obtain ⟨hlow, hhigh⟩ := mem_edges.1 hedge
  simp only at hlow hhigh hc
  subst hhigh
  rw [run_clipEdge]
  cases hca : c.isHigh a with
  | false =>
    simp only [hca, Bool.false_eq_true, if_false] at hc
    subst hc
    have hplane : b.low.coord a ≤ o.low.coord a := by simpa [IsInner, hca] using ha
    have hcross := crosses_of_isInner hmeet hlow h hplane (by omega)
    simp only [hcross, if_true]
    split_ifs
    · exact keeps_set _ _ _ _ (by simp)
    · simp
  | true =>
    simp only [hca, if_true] at hc
    subst hc
    have hplane : o.high.coord a ≤ b.high.coord a := by simpa [IsInner, hca] using ha
    have hothers : ∀ d ≠ a, IsInner b o low d := by
      intro d hd
      simpa [IsInner, isHigh_raise, hd] using h d hd
    have hcross := crosses_of_isInner hmeet hlow hothers (by omega) hplane
    simp only [hcross, if_true]
    simp

/-- What the edges along one axis tell in turn: the edges of the two boxes that are cut, then the
ends that lie inside. -/
theorem run_clipAxis (b o : Extents) (a : Axis) (found : Cube (Option Voxel)) :
    Id.run (clipAxis b.reading o.reading found a) =
      Id.run (keepEnds o.reading b.reading a (Id.run (keepEnds b.reading o.reading a
        (Id.run (clipEdges o.reading b.reading a
          (Id.run (clipEdges b.reading o.reading a found))))))) :=
  rfl

variable {found : Cube (Option Voxel)}

/-- A corner is found along an axis if one box is further in on the other two axes. -/
theorem isSome_clipAxis (hmeet : (b.meet o).IsUpright) {c : Corner}
    (h : ∀ d ≠ a, IsInner b o c d) (hfound : IsClipped (b.meet o) found) :
    ((Id.run (clipAxis b.reading o.reading found a)).get c).isSome ∧
      ((Id.run (clipAxis o.reading b.reading found a)).get c).isSome := by
  have hedges : Clips (b.meet o) fun found => Id.run (clipEdges b.reading o.reading a found) :=
    clips_clipEdges hmeet
  have hedges' : Clips (b.meet o) fun found => Id.run (clipEdges o.reading b.reading a found) := by
    rw [b.meet_comm] at hmeet ⊢
    exact clips_clipEdges hmeet
  have hends : Clips (b.meet o) fun found => Id.run (keepEnds b.reading o.reading a found) :=
    clips_keepEnds
  have hends' : Clips (b.meet o) fun found => Id.run (keepEnds o.reading b.reading a found) := by
    rw [b.meet_comm]
    exact clips_keepEnds
  simp only [run_clipAxis]
  obtain ha | ha := isInner_or_isInner b o c a
  · have hall : ∀ d, IsInner b o c d := fun d => by
      by_cases hd : d = a
      · exact hd ▸ ha
      · exact h d hd
    constructor
    · have hbefore := (hedges.comp hedges') found hfound
      exact (hends' _ (hends _ hbefore.1).1).2 c (isSome_keepEnds hmeet hall hbefore.1)
    · have hbefore := ((hedges'.comp hedges).comp hends') found hfound
      exact isSome_keepEnds hmeet hall hbefore.1
  · constructor
    · have hafter := ((hedges'.comp hends).comp hends') _ (hedges found hfound).1
      exact hafter.2 c (isSome_clipEdges hmeet h ha hfound)
    · have hbefore := hedges' found hfound
      have hafter := (hends'.comp hends) _ (hedges _ hbefore.1).1
      exact hafter.2 c (isSome_clipEdges hmeet h ha hbefore.1)

theorem clips_clipAxis (hmeet : (b.meet o).IsUpright) : Clips (b.meet o) fun found =>
    Id.run (clipAxis b.reading o.reading found a) := by
  have hedges : Clips (b.meet o) fun found => Id.run (clipEdges o.reading b.reading a found) := by
    rw [b.meet_comm] at hmeet ⊢
    exact clips_clipEdges hmeet
  have hends : Clips (b.meet o) fun found => Id.run (keepEnds o.reading b.reading a found) := by
    rw [b.meet_comm]
    exact clips_keepEnds
  intro found hfound
  simp only [run_clipAxis]
  exact (((clips_clipEdges hmeet).comp hedges).comp clips_keepEnds).comp hends found hfound

/-- Of the three sides of a corner two belong to one box. -/
theorem exists_inner_pair (b o : Extents) (c : Corner) : ∃ a,
    (∀ d ≠ a, IsInner b o c d) ∨ ∀ d ≠ a, IsInner o b c d := by
  obtain hx | hx := isInner_or_isInner b o c .x
  · obtain hy | hy := isInner_or_isInner b o c .y
    · exact ⟨.z, .inl (Axis.forall_ne_z hx hy)⟩
    · obtain hz | hz := isInner_or_isInner b o c .z
      · exact ⟨.y, .inl (Axis.forall_ne_y hx hz)⟩
      · exact ⟨.x, .inr (Axis.forall_ne_x hy hz)⟩
  · obtain hy | hy := isInner_or_isInner b o c .y
    · obtain hz | hz := isInner_or_isInner b o c .z
      · exact ⟨.x, .inl (Axis.forall_ne_x hy hz)⟩
      · exact ⟨.y, .inr (Axis.forall_ne_y hx hz)⟩
    · exact ⟨.z, .inr (Axis.forall_ne_z hx hy)⟩

/-- Clipping goes through the axes one after the other. -/
theorem run_clip_eq_foldl (b o : Extents) : Id.run (clip b.reading o.reading) =
    Axis.all.foldl (fun found a => Id.run (clipAxis b.reading o.reading found a))
      (Cube.fill none) :=
  List.idRun_foldlM

/-- Clipping two boxes that meet finds all corners of their overlap. -/
theorem run_clip (hmeet : (b.meet o).IsUpright) :
    Id.run (clip b.reading o.reading) = Cube.ofFn fun c => some ((b.meet o).corner c) := by
  have hstart : IsClipped (b.meet o) (Cube.fill none) := by
    intro c v h
    rw [Cube.get_fill] at h
    cases h
  have hsteps : ∀ a ∈ Axis.all, Clips (b.meet o) fun found =>
    Id.run (clipAxis b.reading o.reading found a) := fun a _ => clips_clipAxis hmeet
  refine Cube.ext_get fun c => ?_
  rw [Cube.get_ofFn, run_clip_eq_foldl]
  have hsome : ((Axis.all.foldl (fun found a => Id.run (clipAxis b.reading o.reading found a))
      (Cube.fill none)).get c).isSome := by
    obtain ⟨a, ha | ha⟩ := exists_inner_pair b o c
    · exact isSome_foldl hsteps a.mem_all (fun _ h => (isSome_clipAxis hmeet ha h).1) hstart
    · rw [b.meet_comm] at hmeet hstart hsteps
      exact isSome_foldl hsteps a.mem_all (fun _ h => (isSome_clipAxis hmeet ha h).2) hstart
  obtain ⟨v, hv⟩ := Option.isSome_iff_exists.1 hsome
  rw [hv, (Clips.foldl hsteps _ hstart).1 c v hv]

end

/-! ## The overlap -/

/-- Corners that are all known need no correction. -/
theorem correct_known {m : Type → Type} {π : Type} [Monad m] [LawfulMonad m] [Coordinates m π]
    (f : Corner → π) :
    (correct 8 (Cube.ofFn fun c => some (f c)) : m _) =
      pure (true, Cube.ofFn fun c => some (f c)) := by
  have hknown : (Cube.ofFn fun c => some (f c)).known = 8 := rfl
  have hcorrectable : IsCorrectable (Cube.ofFn fun c => some (f c)) := by
    intro a _ side _
    refine ⟨Corner.ofSides fun _ => side, Corner.mem_all _, by simp, ?_⟩
    rw [Cube.get_ofFn]
    rfl
  rw [correct, if_pos hcorrectable, infer]
  simp [hknown]

theorem Box.corner_ofExtents (e : Extents) : (ofExtents e).corner = e.reading := by
  funext c
  simp only [corner, ofExtents, e.get_corners, Extents.reading]

/-- Boxes that meet have an overlap, and it has the corners of the common extents. -/
theorem Box.exists_overlap? {b o : Extents} (hmeet : (b.meet o).IsUpright) :
    ∃ box, (ofExtents b).overlap? (ofExtents o) = some box ∧
      box.corners = (b.meet o).corners := by
  have hintersect : Id.run (intersect b.reading o.reading) =
      Id.run (correct 8 (Id.run (clip b.reading o.reading))) := rfl
  have hcomplete : (Cube.ofFn fun c => some ((b.meet o).corner c)).complete? =
      some (b.meet o).corners := by
    rw [Cube.complete?_eq_some_iff]
    intro c
    rw [Cube.get_ofFn, Extents.get_corners]
  refine ⟨ofCorners (b.meet o).corners, ?_, rfl⟩
  rw [overlap?, corner_ofExtents, corner_ofExtents, hintersect, run_clip hmeet, correct_known,
    Id.run_pure]
  simp only [hcomplete]
  rfl

/-- A voxel in two boxes is in their overlap. -/
theorem Box.contains_overlap? {b o : Extents} {v : Voxel} (hb : b.Holds v) (ho : o.Holds v) :
    ∃ box, (ofExtents b).overlap? (ofExtents o) = some box ∧ box.contains v := by
  have hv : (b.meet o).Holds v := (b.holds_meet_iff o v).2 ⟨hb, ho⟩
  obtain ⟨box, hbox, hcorners⟩ := exists_overlap? hv.isUpright
  refine ⟨box, hbox, ?_⟩
  rw [contains_iff, hcorners, Extents.corners_flb, Extents.corners_brt]
  exact hv

end VoxelAlgebra
