import VoxelAlgebra.Proofs.Box.Intersection

/-!
# Missing corners are inferred exactly

Known corners determine the others as soon as there is one on each side of every axis. Then two of
them are on a diagonal. From a face diagonal the rules give the whole face, which has the corner
opposite to a known one off that face, and a space diagonal gives all corners; as face diagonals
come first, one sweep of the rules is enough. No rule changes a known corner, and if the known
corners are those of some extents, upright or not, so is every inferred one.

## Main definitions

* `Corner.Spans` — the corners of the flat or full box that two corners span.
* `Cube.IsPartOf` — known corners that stay as they are.
* `sweep` — one application of every rule.
* `isSome_sweep` — a sweep completes corners on both sides of every axis.
* `correctGiven_completes` — what becomes of given corners.
-/

namespace VoxelAlgebra

open Coordinates

namespace Corner

variable {i j k : Corner} {a : Axis}

/-! ## Diagonals -/

def opposite (c : Corner) : Corner := ofSides fun a => !c.isHigh a

@[simp] theorem isHigh_opposite (c : Corner) (a : Axis) : c.opposite.isHigh a = !c.isHigh a := by
  simp [opposite]

/-- `k` is on the common side of `i` and `j` on every axis where they have one. -/
def Spans (i j k : Corner) : Prop := ∀ a, i.isHigh a = j.isHigh a → k.isHigh a = i.isHigh a

theorem Spans.symm (h : Spans i j k) : Spans j i k := fun a ha => (h a ha.symm).trans ha.symm

theorem mem_spanned : k ∈ spanned i j ↔ k ≠ i ∧ k ≠ j ∧ Spans i j k := by
  have haxes : (Axis.all.all fun a => i.isHigh a != j.isHigh a || k.isHigh a == i.isHigh a) = true ↔
      Spans i j k := by
    rw [List.all_eq_true]
    refine ⟨fun h a ha => ?_, fun h a _ => ?_⟩
    · simpa [ha] using h a a.mem_all
    · by_cases ha : i.isHigh a = j.isHigh a
      · simp [h a ha]
      · simp [ha]
  rw [spanned, List.mem_filter, Bool.and_eq_true, Bool.and_eq_true, decide_eq_true_iff,
    decide_eq_true_iff, haxes, and_assoc]
  exact and_iff_right k.mem_all

def IsSpaceDiagonal (i j : Corner) : Prop := ∀ a, i.isHigh a ≠ j.isHigh a

/-- The corners of a face diagonal differ on every axis but one. -/
def IsFaceDiagonal (a : Axis) (i j : Corner) : Prop :=
  i.isHigh a = j.isHigh a ∧ ∀ b, b ≠ a → i.isHigh b ≠ j.isHigh b

theorem isSpaceDiagonal_opposite (c : Corner) : IsSpaceDiagonal c c.opposite := fun a => by
  simp

/-- A space diagonal spans all corners. -/
theorem IsSpaceDiagonal.spans (h : IsSpaceDiagonal i j) (k : Corner) : Spans i j k :=
  fun a ha => absurd ha (h a)

/-- A face diagonal spans the corners of its face. -/
theorem IsFaceDiagonal.spans (h : IsFaceDiagonal a i j) (hk : k.isHigh a = i.isHigh a) :
    Spans i j k := by
  intro b hb
  by_cases hba : b = a
  · rw [hba, hk]
  · exact absurd hb (h.2 b hba)

theorem IsSpaceDiagonal.length_differing (h : IsSpaceDiagonal i j) :
    (differing i j).length = 3 := by
  have hx := h .x
  have hy := h .y
  have hz := h .z
  simp [differing, Axis.all, hx, hy, hz]

theorem IsFaceDiagonal.length_differing (h : IsFaceDiagonal a i j) :
    (differing i j).length = 2 := by
  obtain ⟨ha, hb⟩ := h
  cases a with
  | x => simp [differing, Axis.all, ha, hb .y (by decide), hb .z (by decide)]
  | y => simp [differing, Axis.all, ha, hb .x (by decide), hb .z (by decide)]
  | z => simp [differing, Axis.all, ha, hb .x (by decide), hb .y (by decide)]

/-- Corners that differ on two axes are on a diagonal. -/
theorem exists_isDiagonal (hx : i.isHigh .x ≠ j.isHigh .x) (hy : i.isHigh .y ≠ j.isHigh .y) :
    IsSpaceDiagonal i j ∨ ∃ a, IsFaceDiagonal a i j := by
  by_cases hz : i.isHigh .z = j.isHigh .z
  · exact .inr ⟨.z, hz, Axis.forall_ne_z hx hy⟩
  · refine .inl fun a => ?_
    cases a with
    | x => exact hx
    | y => exact hy
    | z => exact hz

theorem differing_comm (i j : Corner) : differing i j = differing j i := by
  simp only [differing, bne_comm]

def rulesAt (n : Nat) : List (Corner × Corner × List Corner) :=
  all.flatMap fun i =>
    (all.filter fun j => i.index < j.index && (differing i j).length = n).map fun j =>
      (i, j, spanned i j)

theorem rules_eq : rules = rulesAt 2 ++ rulesAt 3 := by
  simp [rules, rulesAt]

theorem mem_rulesAt {n : Nat} {rule : Corner × Corner × List Corner} : rule ∈ rulesAt n ↔
    rule.1.index < rule.2.1.index ∧ (differing rule.1 rule.2.1).length = n ∧
      rule.2.2 = spanned rule.1 rule.2.1 := by
  simp only [rulesAt, List.mem_flatMap, List.mem_map, List.mem_filter, Bool.and_eq_true,
    decide_eq_true_iff]
  constructor
  · rintro ⟨i, -, j, ⟨-, hlt, hlength⟩, rfl⟩
    exact ⟨hlt, hlength, rfl⟩
  · rintro ⟨hlt, hlength, hspanned⟩
    exact ⟨rule.1, mem_all _, rule.2.1, ⟨mem_all _, hlt, hlength⟩, by rw [← hspanned]⟩

/-- Every rule gives corners of the box that its two corners span. -/
theorem spans_of_mem_rules {rule : Corner × Corner × List Corner} (hrule : rule ∈ rules)
    (hk : k ∈ rule.2.2) : Spans rule.1 rule.2.1 k := by
  have hspanned : rule.2.2 = spanned rule.1 rule.2.1 := by
    rw [rules_eq, List.mem_append, mem_rulesAt, mem_rulesAt] at hrule
    obtain ⟨-, -, h⟩ | ⟨-, -, h⟩ := hrule <;> exact h
  rw [hspanned] at hk
  exact (mem_spanned.1 hk).2.2

theorem index_injective (h : i.index = j.index) : i = j := by
  cases i <;> cases j <;> first | rfl | cases h

/-- There is a rule for two corners that differ on `n` axes, in one order or the other. -/
theorem exists_rule {n : Nat} (hn : n ≠ 0) (h : (differing i j).length = n) :
    (i, j, spanned i j) ∈ rulesAt n ∨ (j, i, spanned j i) ∈ rulesAt n := by
  obtain hlt | heq | hlt := Nat.lt_trichotomy i.index j.index
  · exact .inl (mem_rulesAt.2 ⟨hlt, h, rfl⟩)
  · have hnil : differing j j = [] := by simp [differing]
    rw [index_injective heq, hnil] at h
    exact absurd h.symm hn
  · rw [differing_comm] at h
    exact .inr (mem_rulesAt.2 ⟨hlt, h, rfl⟩)

end Corner

/-! ## Corners that stay -/

/-- Every known corner is known in `full` too, at the same place. -/
def Cube.IsPartOf {α : Type} (known full : Cube (Option α)) : Prop :=
  ∀ c v, known.get c = some v → full.get c = some v

namespace Cube.IsPartOf

variable {α β : Type} {known next full : Cube (Option α)}

theorem refl (known : Cube (Option α)) : known.IsPartOf known := fun _ _ h => h

theorem trans (h : known.IsPartOf next) (h' : next.IsPartOf full) : known.IsPartOf full :=
  fun c v hv => h' c v (h c v hv)

theorem isSome (h : known.IsPartOf full) {c : Corner} (hc : (known.get c).isSome) :
    (full.get c).isSome := by
  obtain ⟨v, hv⟩ := Option.isSome_iff_exists.1 hc
  rw [h c v hv]
  rfl

/-- Nothing can be added to corners that are all known. -/
theorem eq (h : known.IsPartOf full) (hknown : ∀ c, (known.get c).isSome) : full = known := by
  refine Cube.ext_get fun c => ?_
  obtain ⟨v, hv⟩ := Option.isSome_iff_exists.1 (hknown c)
  rw [hv, h c v hv]

theorem foldl {f : Cube (Option α) → β → Cube (Option α)}
    (hf : ∀ (known : Cube (Option α)) b, known.IsPartOf (f known b)) (l : List β)
    (known : Cube (Option α)) :
    known.IsPartOf (l.foldl f known) :=
  List.foldlRecOn (motive := known.IsPartOf) _ _ (refl known) fun _ h b _ => h.trans (hf _ b)

/-- A corner that one of the steps makes known is known after all of them. -/
theorem isSome_foldl {f : Cube (Option α) → β → Cube (Option α)}
    (hf : ∀ (known : Cube (Option α)) b, known.IsPartOf (f known b)) {l : List β} {b : β}
    (hb : b ∈ l) {c : Corner}
    (hc : ∀ next, known.IsPartOf next → ((f next b).get c).isSome) :
    ((l.foldl f known).get c).isSome := by
  induction l generalizing known with
  | nil => cases hb
  | cons d l ih =>
    obtain rfl | hb := List.mem_cons.1 hb
    · exact (foldl hf l _).isSome (hc known (refl known))
    · exact ih hb fun next hnext => hc next ((hf known d).trans hnext)

end Cube.IsPartOf

/-! ## One rule -/

variable {known next : Cube (Option Voxel)} {i j k : Corner} {p q : Voxel} {e : Extents}

theorem coord_run_inferCorner (p q : Voxel) (i k : Corner) (a : Axis) :
    (Id.run (inferCorner p q i k)).coord a =
      if k.isHigh a = i.isHigh a then p.coord a else q.coord a := by
  rw [← apply_ite fun v : Voxel => v.coord a]
  cases a <;> rfl

/-- From two corners of extents, a corner that they span is inferred at its place. -/
theorem run_inferCorner (h : Corner.Spans i j k) :
    Id.run (inferCorner (e.corner i) (e.corner j) i k) = e.corner k := by
  refine Voxel.ext_coord fun a => ?_
  rw [coord_run_inferCorner]
  split_ifs with hi
  · rw [e.coord_corner, e.coord_corner, hi]
  · have hij : i.isHigh a ≠ j.isHigh a := fun hij => hi (h a hij)
    have hj : k.isHigh a = j.isHigh a := by
      rw [Bool.eq_not_of_ne hi, Bool.eq_not_of_ne hij.symm]
    rw [e.coord_corner, e.coord_corner, hj]

theorem run_inferMissing (p q : Voxel) (i : Corner) (known : Cube (Option Voxel)) (k : Corner) :
    Id.run (inferMissing p q i known k) = if (known.get k).isSome then known else
      known.set k (some (Id.run (inferCorner p q i k))) := by
  unfold inferMissing
  cases known.get k <;> rfl

theorem isPartOf_inferMissing (p q : Voxel) (i : Corner) (known : Cube (Option Voxel))
    (k : Corner) : known.IsPartOf (Id.run (inferMissing p q i known k)) := by
  rw [run_inferMissing]
  split_ifs with hk
  · exact .refl known
  · intro c v hv
    have hck : c ≠ k := by
      rintro rfl
      rw [hv] at hk
      exact hk rfl
    rw [Cube.get_set, if_neg hck, hv]

theorem isSome_inferMissing (p q : Voxel) (i : Corner) (known : Cube (Option Voxel))
    (k : Corner) : ((Id.run (inferMissing p q i known k)).get k).isSome := by
  rw [run_inferMissing]
  split_ifs with hk
  · exact hk
  · rw [Cube.get_set, if_pos rfl]
    rfl

def applied (known : Cube (Option Voxel)) (rule : Corner × Corner × List Corner) :
    Cube (Option Voxel) :=
  Id.run (applyRule known rule)

theorem applied_of_some {rule : Corner × Corner × List Corner} (hp : known.get rule.1 = some p)
    (hq : known.get rule.2.1 = some q) : applied known rule =
      rule.2.2.foldl (fun known k => Id.run (inferMissing p q rule.1 known k)) known := by
  rw [applied, applyRule]
  simp only [hp, hq]
  exact List.idRun_foldlM

/-- Either both corners of a rule are known, or it does nothing. -/
theorem applied_cases (known : Cube (Option Voxel)) (rule : Corner × Corner × List Corner) :
    (∃ p q, known.get rule.1 = some p ∧ known.get rule.2.1 = some q) ∨
      applied known rule = known := by
  unfold applied applyRule
  split
  · exact .inl ⟨_, _, ‹_›, ‹_›⟩
  · exact .inr rfl

theorem isPartOf_applied (known : Cube (Option Voxel)) (rule : Corner × Corner × List Corner) :
    known.IsPartOf (applied known rule) := by
  obtain ⟨p, q, hp, hq⟩ | h := applied_cases known rule
  · rw [applied_of_some hp hq]
    exact .foldl (isPartOf_inferMissing p q rule.1) _ known
  · rw [h]
    exact .refl known

/-- A rule infers corners of the same extents. -/
theorem IsClipped.applied (h : IsClipped e known) {rule : Corner × Corner × List Corner}
    (hrule : rule ∈ Corner.rules) : IsClipped e (applied known rule) := by
  obtain ⟨p, q, hp, hq⟩ | hsame := applied_cases known rule
  · rw [applied_of_some hp hq]
    refine List.foldlRecOn (motive := IsClipped e) _ _ h fun found hfound k hk => ?_
    rw [run_inferMissing]
    split_ifs
    · exact hfound
    · rw [h _ p hp, h _ q hq, run_inferCorner (Corner.spans_of_mem_rules hrule hk)]
      exact hfound.set rfl
  · rwa [hsame]

theorem isSome_applied {rule : Corner × Corner × List Corner} (hi : (known.get rule.1).isSome)
    (hj : (known.get rule.2.1).isSome) (hk : k ∈ rule.2.2) :
    ((applied known rule).get k).isSome := by
  obtain ⟨p, hp⟩ := Option.isSome_iff_exists.1 hi
  obtain ⟨q, hq⟩ := Option.isSome_iff_exists.1 hj
  rw [applied_of_some hp hq]
  exact Cube.IsPartOf.isSome_foldl (isPartOf_inferMissing p q rule.1) hk
    fun next _ => isSome_inferMissing p q rule.1 next k

/-- The rules for the diagonals between corners that differ on `n` axes complete the boxes that two
known ones of them span. -/
theorem isSome_foldl_rulesAt {n : Nat} (hn : n ≠ 0) (h : (Corner.differing i j).length = n)
    (hi : (known.get i).isSome) (hj : (known.get j).isSome) (hk : Corner.Spans i j k) :
    (((Corner.rulesAt n).foldl applied known).get k).isSome := by
  have hkept := Cube.IsPartOf.foldl isPartOf_applied (Corner.rulesAt n) known
  by_cases hki : k = i
  · exact hki ▸ hkept.isSome hi
  by_cases hkj : k = j
  · exact hkj ▸ hkept.isSome hj
  obtain hrule | hrule := Corner.exists_rule hn h
  · refine Cube.IsPartOf.isSome_foldl isPartOf_applied hrule fun next hnext => ?_
    exact isSome_applied (hnext.isSome hi) (hnext.isSome hj) (Corner.mem_spanned.2 ⟨hki, hkj, hk⟩)
  · refine Cube.IsPartOf.isSome_foldl isPartOf_applied hrule fun next hnext => ?_
    exact isSome_applied (hnext.isSome hj) (hnext.isSome hi)
      (Corner.mem_spanned.2 ⟨hkj, hki, hk.symm⟩)

/-! ## One sweep -/

def sweep (known : Cube (Option Voxel)) : Cube (Option Voxel) := Corner.rules.foldl applied known

theorem isPartOf_sweep (known : Cube (Option Voxel)) : known.IsPartOf (sweep known) :=
  .foldl isPartOf_applied _ known

theorem IsClipped.sweep (h : IsClipped e known) : IsClipped e (sweep known) :=
  List.foldlRecOn (motive := IsClipped e) _ _ h fun _ hfound _ hrule => hfound.applied hrule

/-- On both sides of every axis there is a known corner. -/
theorem isCorrectable_iff {π : Type} {known : Cube (Option π)} : IsCorrectable known ↔
    ∀ a side, ∃ c : Corner, c.isHigh a = side ∧ (known.get c).isSome := by
  refine ⟨fun h a side => ?_, fun h a _ side _ => ?_⟩
  · obtain ⟨c, -, hc⟩ := h a a.mem_all side (by simp)
    exact ⟨c, hc⟩
  · obtain ⟨c, hc⟩ := h a side
    exact ⟨c, c.mem_all, hc⟩

theorem IsCorrectable.exists_ne {π : Type} {known : Cube (Option π)} (h : IsCorrectable known)
    (i : Corner) (a : Axis) : ∃ j : Corner, i.isHigh a ≠ j.isHigh a ∧ (known.get j).isSome := by
  obtain ⟨j, hj, hknown⟩ := isCorrectable_iff.1 h a (!i.isHigh a)
  exact ⟨j, by simp [hj], hknown⟩

/-- Among corners on both sides of every axis, two are on a diagonal. -/
theorem IsCorrectable.exists_isDiagonal {π : Type} {known : Cube (Option π)}
    (h : IsCorrectable known) : ∃ i j, (known.get i).isSome ∧ (known.get j).isSome ∧
      (i.IsSpaceDiagonal j ∨ ∃ c, Corner.IsFaceDiagonal c i j) := by
  obtain ⟨c, -, hc⟩ := isCorrectable_iff.1 h .x false
  obtain ⟨i, hix, hi⟩ := h.exists_ne c .x
  obtain ⟨j, hjy, hj⟩ := h.exists_ne c .y
  by_cases hiy : c.isHigh .y = i.isHigh .y
  · by_cases hjx : c.isHigh .x = j.isHigh .x
    · -- then `i` and `j` are next to `c` along `x` and along `y`
      refine ⟨i, j, hi, hj, Corner.exists_isDiagonal ?_ ?_⟩
      · rw [← hjx]
        exact hix.symm
      · rwa [← hiy]
    · exact ⟨c, j, hc, hj, Corner.exists_isDiagonal hjx hjy⟩
  · exact ⟨c, i, hc, hi, Corner.exists_isDiagonal hix hiy⟩

/-- The rules for the faces leave two known corners on a space diagonal. -/
theorem IsCorrectable.exists_isSpaceDiagonal (h : IsCorrectable known) :
    ∃ i j : Corner, i.IsSpaceDiagonal j ∧
      (((Corner.rulesAt 2).foldl applied known).get i).isSome ∧
      (((Corner.rulesAt 2).foldl applied known).get j).isSome := by
  have hkept := Cube.IsPartOf.foldl isPartOf_applied (Corner.rulesAt 2) known
  obtain ⟨i, j, hi, hj, hspace | ⟨a, hface⟩⟩ := h.exists_isDiagonal
  · exact ⟨i, j, hspace, hkept.isSome hi, hkept.isSome hj⟩
  · -- a corner off the face is opposite to one of the face, which is inferred
    obtain ⟨k, hk, hknown⟩ := h.exists_ne i a
    have hopposite : k.opposite.isHigh a = i.isHigh a := by
      rw [Corner.isHigh_opposite, Bool.eq_not_of_ne hk.symm, Bool.not_not]
    refine ⟨k, k.opposite, k.isSpaceDiagonal_opposite, hkept.isSome hknown, ?_⟩
    exact isSome_foldl_rulesAt (by decide) hface.length_differing hi hj (hface.spans hopposite)

/-- One sweep completes corners on both sides of every axis. -/
theorem isSome_sweep (h : IsCorrectable known) (c : Corner) : ((sweep known).get c).isSome := by
  obtain ⟨i, j, hij, hi, hj⟩ := h.exists_isSpaceDiagonal
  rw [sweep, Corner.rules_eq, List.foldl_append]
  exact isSome_foldl_rulesAt (by decide) hij.length_differing hi hj (hij.spans c)

/-! ## Corners as rows -/

/-- Corners as a caller gives them: rows of three numbers, and gaps. -/
def Cube.asGiven (known : Cube (Option Voxel)) : List (Option GivenPoint) :=
  (carryAll GivenPoint.ofVoxel known).toList

theorem inferCorner_ofVoxel (p q : Voxel) (i k : Corner) :
    (inferCorner (GivenPoint.ofVoxel p) (GivenPoint.ofVoxel q) i k : Except Fault GivenPoint) =
      pure (GivenPoint.ofVoxel (Id.run (inferCorner p q i k))) := by
  simp only [inferCorner, ← apply_ite GivenPoint.ofVoxel, carries_ofVoxel.coord, pure_bind]
  rfl

theorem inferMissing_ofVoxel (p q : Voxel) (i : Corner) (known : Cube (Option Voxel))
    (k : Corner) :
    (inferMissing (GivenPoint.ofVoxel p) (GivenPoint.ofVoxel q) i
        (carryAll GivenPoint.ofVoxel known) k : Except Fault _) =
      pure (carryAll GivenPoint.ofVoxel (Id.run (inferMissing p q i known k))) := by
  rw [run_inferMissing, inferMissing, carryAll, Cube.get_map]
  cases known.get k with
  | some v => rfl
  | none =>
    simp only [Option.map_none, inferCorner_ofVoxel, pure_bind, Option.isSome_none,
      Bool.false_eq_true, if_false]
    rw [← carryAll, ← carryAll_set]

theorem applyRule_ofVoxel (known : Cube (Option Voxel))
    (rule : Corner × Corner × List Corner) :
    (applyRule (carryAll GivenPoint.ofVoxel known) rule : Except Fault _) =
      pure (carryAll GivenPoint.ofVoxel (applied known rule)) := by
  have hget (c : Corner) : (carryAll GivenPoint.ofVoxel known).get c =
      (known.get c).map GivenPoint.ofVoxel := Cube.get_map ..
  rw [applyRule, hget, hget]
  unfold applied applyRule
  cases known.get rule.1 with
  | none => rfl
  | some p =>
    cases known.get rule.2.1 with
    | none => rfl
    | some q => exact foldlM_carryAll (inferMissing_ofVoxel p q rule.1) _ known

/-- A cube has one value for each corner. -/
theorem Cube.toList_eq {α : Type} (b : Cube α) : b.toList = Corner.all.map b.get := rfl

/-- Eight corners are known if all are. -/
theorem eight_le_known_iff {π : Type} {known : Cube (Option π)} :
    8 ≤ known.known ↔ ∀ c, (known.get c).isSome := by
  have hlength : known.toList.length = 8 := rfl
  have hle : known.known ≤ 8 := List.countP_le_length
  have hall : known.known = 8 ↔ ∀ v ∈ known.toList, Option.isSome v = true :=
    List.countP_eq_length
  constructor
  · intro h c
    refine hall.1 (by omega) _ ?_
    rw [known.toList_eq]
    exact List.mem_map_of_mem c.mem_all
  · intro h
    have heq : known.known = 8 := by
      refine hall.2 fun v hv => ?_
      rw [known.toList_eq] at hv
      obtain ⟨c, -, rfl⟩ := List.mem_map.1 hv
      exact h c
    omega

/-- If one sweep completes the corners, inferring ends with it. -/
theorem infer_eq_of_sweep {m : Type → Type} {π : Type} [Monad m] [LawfulMonad m]
    [Coordinates m π] {known next : Cube (Option π)}
    (hsweep : Corner.rules.foldlM applyRule known = (pure next : m _))
    (hkept : known.IsPartOf next) (hnext : ∀ c, (next.get c).isSome) :
    (infer 8 known : m _) = pure next := by
  rw [infer]
  split_ifs with hknown
  · rw [hkept.eq (eight_le_known_iff.1 hknown)]
  · rw [hsweep, pure_bind]
    split_ifs
    · rw [infer, if_pos (eight_le_known_iff.2 hnext)]
    · rfl

theorem isSome_carryAll {π : Type} (point : Voxel → π) (known : Cube (Option Voxel)) (c : Corner) :
    ((carryAll point known).get c).isSome = (known.get c).isSome := by
  rw [carryAll, Cube.get_map, Option.isSome_map]

theorem isCorrectable_carryAll {π : Type} (point : Voxel → π) :
    IsCorrectable (carryAll point known) ↔ IsCorrectable known := by
  simp only [isCorrectable_iff, isSome_carryAll]

/-- Corners that lack a side of some axis are left as they are, others are completed by a sweep. -/
theorem correct_ofVoxel (known : Cube (Option Voxel)) :
    (correct 8 (carryAll GivenPoint.ofVoxel known) : Except Fault _) =
      pure (if IsCorrectable known then (true, carryAll GivenPoint.ofVoxel (sweep known))
        else (false, carryAll GivenPoint.ofVoxel known)) := by
  rw [correct]
  split_ifs with h h' h'
  · have hsweep : Corner.rules.foldlM applyRule (carryAll GivenPoint.ofVoxel known) =
        (pure (carryAll GivenPoint.ofVoxel (sweep known)) : Except Fault _) := by
      rw [foldlM_carryAll (g := fun known rule => pure (applied known rule)) applyRule_ofVoxel,
        List.foldlM_pure]
      rfl
    have hkept : (carryAll GivenPoint.ofVoxel known).IsPartOf
        (carryAll GivenPoint.ofVoxel (sweep known)) := by
      intro c v hv
      rw [carryAll, Cube.get_map, Option.map_eq_some_iff] at hv ⊢
      obtain ⟨w, hw, rfl⟩ := hv
      exact ⟨w, isPartOf_sweep known c w hw, rfl⟩
    have hfull (c : Corner) : ((carryAll GivenPoint.ofVoxel (sweep known)).get c).isSome := by
      rw [isSome_carryAll]
      exact isSome_sweep h' c
    rw [infer_eq_of_sweep hsweep hkept hfull, pure_bind,
      decide_eq_true (eight_le_known_iff.2 hfull)]
  · exact absurd ((isCorrectable_carryAll _).1 h) h'
  · exact absurd ((isCorrectable_carryAll _).2 h') h
  · rfl

/-- Eight corners, each a voxel or a gap, are completed if there is one on each side of every axis,
and left as they are otherwise. No corner that is given changes, and if all of them are corners of
some extents, upright or not, the others become the other corners of these. -/
theorem correctGiven_completes (known : Cube (Option Voxel)) :
    ∃ (isFull : Bool) (full : Cube (Option Voxel)),
      isCorrectableGiven known.asGiven = .ok isFull ∧
      correctGiven known.asGiven = .ok (isFull, full.asGiven) ∧
      (isFull = true ↔ ∀ a side, ∃ c : Corner, c.isHigh a = side ∧ (known.get c).isSome) ∧
      known.IsPartOf full ∧
      (isFull = true → ∀ c, (full.get c).isSome) ∧
      (isFull = false → full = known) ∧
      ∀ e : Extents, isFull = true → (∀ c v, known.get c = some v → v = e.corner c) →
        full = e.corners.map some := by
  have hcorrectable : isCorrectableGiven known.asGiven =
      .ok (decide (IsCorrectable (carryAll GivenPoint.ofVoxel known))) := rfl
  have hcorrect : correctGiven known.asGiven =
      correct 8 (carryAll GivenPoint.ofVoxel known) >>= fun r =>
        pure (r.1, r.2.toList ++ []) := rfl
  simp only [isCorrectable_carryAll] at hcorrectable
  rw [correct_ofVoxel, pure_bind] at hcorrect
  by_cases h : IsCorrectable known
  · rw [if_pos h, List.append_nil] at hcorrect
    rw [decide_eq_true h] at hcorrectable
    refine ⟨true, sweep known, hcorrectable, hcorrect, ?_, isPartOf_sweep known, ?_, nofun, ?_⟩
    · exact iff_of_true rfl (isCorrectable_iff.1 h)
    · exact fun _ => isSome_sweep h
    · intro e _ he
      refine Cube.ext_get fun c => ?_
      obtain ⟨v, hv⟩ := Option.isSome_iff_exists.1 (isSome_sweep h c)
      have hclipped : IsClipped e known := he
      rw [hv, Cube.get_map, e.get_corners, hclipped.sweep c v hv]
  · rw [if_neg h, List.append_nil] at hcorrect
    rw [decide_eq_false h] at hcorrectable
    refine ⟨false, known, hcorrectable, hcorrect, ?_, .refl known, nofun, fun _ => rfl, nofun⟩
    exact iff_of_false Bool.false_ne_true fun hsides => h (isCorrectable_iff.2 hsides)

end VoxelAlgebra
