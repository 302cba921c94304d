import Std.Data.HashSet

/-!
# Voxels

A voxel is a point of the integer grid.

## Main definitions

* `Axis`, `AxisOrder` — the three axes, and an order of them.
* `Voxel` — three coordinates, added and subtracted coordinate by coordinate.
* `Voxel.distinct` — the first occurrence of each voxel of a list.
-/

namespace VoxelAlgebra

inductive Axis where
  | x
  | y
  | z
  deriving DecidableEq, Repr, Inhabited

namespace Axis

def all : List Axis := [x, y, z]

def index : Axis → Nat
  | x => 0
  | y => 1
  | z => 2

def name : Axis → String
  | x => "x"
  | y => "y"
  | z => "z"

/-- The other two axes, in x, y, z order. -/
def others : Axis → List Axis
  | x => [y, z]
  | y => [x, z]
  | z => [x, y]

theorem mem_all (a : Axis) : a ∈ all := by cases a <;> decide

theorem mem_others {a b : Axis} : b ∈ a.others ↔ b ≠ a := by
  cases a <;> cases b <;> decide

end Axis

structure AxisOrder where
  first : Axis
  second : Axis
  third : Axis
  deriving DecidableEq, Repr

namespace AxisOrder

def toList (o : AxisOrder) : List Axis := [o.first, o.second, o.third]

def xyz : AxisOrder := ⟨.x, .y, .z⟩

/-- The axes by decreasing size; axes of one size keep their x, y, z order. -/
def byDecreasing (size : Axis → Int) : AxisOrder :=
  if size .y ≤ size .x then
    if size .z ≤ size .y then ⟨.x, .y, .z⟩
    else if size .z ≤ size .x then ⟨.x, .z, .y⟩
    else ⟨.z, .x, .y⟩
  else
    if size .z ≤ size .x then ⟨.y, .x, .z⟩
    else if size .z ≤ size .y then ⟨.y, .z, .x⟩
    else ⟨.z, .y, .x⟩

end AxisOrder

structure Voxel where
  x : Int
  y : Int
  z : Int
  deriving DecidableEq, Repr, Hashable, Inhabited

namespace Voxel

def coord (v : Voxel) : Axis → Int
  | .x => v.x
  | .y => v.y
  | .z => v.z

def ofCoords (f : Axis → Int) : Voxel := ⟨f .x, f .y, f .z⟩

@[simp] theorem coord_ofCoords (f : Axis → Int) (a : Axis) : (ofCoords f).coord a = f a := by
  cases a <;> rfl

theorem ext_coord {v w : Voxel} (h : ∀ a, v.coord a = w.coord a) : v = w := by
  cases v; cases w
  have hx := h .x
  have hy := h .y
  have hz := h .z
  simp_all [coord]

def zero : Voxel := ⟨0, 0, 0⟩

instance : Add Voxel := ⟨fun v w => ⟨v.x + w.x, v.y + w.y, v.z + w.z⟩⟩
instance : Sub Voxel := ⟨fun v w => ⟨v.x - w.x, v.y - w.y, v.z - w.z⟩⟩

@[simp] theorem coord_add (v w : Voxel) (a : Axis) :
    (v + w).coord a = v.coord a + w.coord a := by
  cases a <;> rfl

@[simp] theorem coord_sub (v w : Voxel) (a : Axis) :
    (v - w).coord a = v.coord a - w.coord a := by
  cases a <;> rfl

@[simp] theorem coord_zero (a : Axis) : zero.coord a = 0 := by
  cases a <;> rfl

theorem add_zero (v : Voxel) : v + zero = v :=
  ext_coord fun a => by simp

theorem zero_add (v : Voxel) : zero + v = v :=
  ext_coord fun a => by simp

theorem sub_zero (v : Voxel) : v - zero = v :=
  ext_coord fun a => by simp

theorem sub_add_cancel (v w : Voxel) : v - w + w = v :=
  ext_coord fun a => by simp

theorem add_sub_cancel (v w : Voxel) : v + w - w = v :=
  ext_coord fun a => by simp

theorem add_sub_add_right (v w t : Voxel) : v + t - (w + t) = v - w :=
  ext_coord fun a => by
    simp only [coord_add, coord_sub]
    omega

theorem add_comm (v w : Voxel) : v + w = w + v :=
  ext_coord fun a => by
    simp only [coord_add]
    omega

theorem add_assoc (u v w : Voxel) : u + v + w = u + (v + w) :=
  ext_coord fun a => by
    simp only [coord_add]
    omega

@[simp] theorem add_right_inj {v w t : Voxel} : v + t = w + t ↔ v = w :=
  ⟨fun h => by rw [← add_sub_cancel v t, h, add_sub_cancel], congrArg (· + t)⟩

/-! ## Distinct voxels -/

/-- The voxels that are not in `seen`, each at its first occurrence. -/
def distinctFrom (seen : Std.HashSet Voxel) : List Voxel → List Voxel
  | [] => []
  | v :: rest =>
    if v ∈ seen then distinctFrom seen rest else v :: distinctFrom (seen.insert v) rest

def distinct (voxels : List Voxel) : List Voxel := distinctFrom ∅ voxels

theorem mem_distinctFrom {seen : Std.HashSet Voxel} {voxels : List Voxel} {v : Voxel} :
    v ∈ distinctFrom seen voxels ↔ v ∈ voxels ∧ v ∉ seen := by
  induction voxels generalizing seen with
  | nil => simp [distinctFrom]
  | cons w rest ih =>
    by_cases hw : w ∈ seen
    · simp only [distinctFrom, hw, if_true, ih, List.mem_cons]
      constructor
      · exact fun h => ⟨.inr h.1, h.2⟩
      · rintro ⟨rfl | h, hv⟩
        · exact absurd hw hv
        · exact ⟨h, hv⟩
    · simp only [distinctFrom, hw, if_false, ih, List.mem_cons, Std.HashSet.mem_insert, beq_iff_eq]
      constructor
      · rintro (rfl | ⟨h, hv⟩)
        · exact ⟨.inl rfl, hw⟩
        · exact ⟨.inr h, fun hs => hv (.inr hs)⟩
      · rintro ⟨rfl | h, hv⟩
        · exact .inl rfl
        · by_cases hvw : w = v
          · exact .inl hvw.symm
          · exact .inr ⟨h, by simp [hvw, hv]⟩

@[simp] theorem mem_distinct {voxels : List Voxel} {v : Voxel} :
    v ∈ distinct voxels ↔ v ∈ voxels := by
  simp [distinct, mem_distinctFrom]

theorem nodup_distinctFrom (seen : Std.HashSet Voxel) (voxels : List Voxel) :
    (distinctFrom seen voxels).Nodup := by
  induction voxels generalizing seen with
  | nil => simp [distinctFrom]
  | cons w rest ih =>
    by_cases hw : w ∈ seen
    · simpa [distinctFrom, hw] using ih seen
    · simp only [distinctFrom, hw, if_false, List.nodup_cons]
      exact ⟨by simp [mem_distinctFrom], ih _⟩

theorem nodup_distinct (voxels : List Voxel) : (distinct voxels).Nodup :=
  nodup_distinctFrom ∅ voxels

theorem distinctFrom_of_nodup {seen : Std.HashSet Voxel} {voxels : List Voxel}
    (h : voxels.Nodup) : distinctFrom seen voxels = voxels.filter (· ∉ seen) := by
  induction voxels generalizing seen with
  | nil => rfl
  | cons v rest ih =>
    obtain ⟨hv, hrest⟩ := List.nodup_cons.1 h
    by_cases hseen : v ∈ seen
    · simp only [distinctFrom, hseen, if_true, ih hrest]
      exact (List.filter_cons_of_neg (by simpa using hseen)).symm
    · simp only [distinctFrom, hseen, if_false, ih hrest]
      rw [List.filter_cons_of_pos (by simpa using hseen)]
      refine congrArg (v :: ·) (List.filter_congr fun w hw => ?_)
      have hne : w ≠ v := fun h => hv (h ▸ hw)
      simp [hne.symm]

theorem distinctFrom_append {seen : Std.HashSet Voxel} {voxels more : List Voxel}
    (h : voxels.Nodup) (hmore : more.Nodup) (hseen : ∀ v ∈ voxels, v ∉ seen) :
    distinctFrom seen (voxels ++ more) =
      voxels ++ more.filter fun w => w ∉ seen ∧ w ∉ voxels := by
  induction voxels generalizing seen with
  | nil => simpa using distinctFrom_of_nodup hmore
  | cons v rest ih =>
    obtain ⟨hv, hrest⟩ := List.nodup_cons.1 h
    obtain ⟨hvseen, hrestseen⟩ := List.forall_mem_cons.1 hseen
    have hinsert : ∀ w ∈ rest, w ∉ seen.insert v := by
      intro w hw hmem
      rw [Std.HashSet.mem_insert, beq_iff_eq] at hmem
      rcases hmem with rfl | hmem
      · exact hv hw
      · exact hrestseen w hw hmem
    simp only [List.cons_append, distinctFrom, hvseen, if_false, ih hrest hinsert]
    refine congrArg (v :: rest ++ ·) (List.filter_congr fun w _ => ?_)
    simp only [Std.HashSet.mem_insert, beq_iff_eq, List.mem_cons, @eq_comm _ v]
    grind

/-- Of two lists without repetition the second gives the voxels that the first does not have. -/
theorem distinct_append {voxels more : List Voxel} (h : voxels.Nodup) (hmore : more.Nodup) :
    distinct (voxels ++ more) = voxels ++ more.filter (· ∉ voxels) := by
  simpa [distinct] using @distinctFrom_append ∅ _ _ h hmore (by simp)

theorem distinctFrom_distinctFrom_append (seen : Std.HashSet Voxel) (voxels more : List Voxel) :
    distinctFrom seen (distinctFrom seen voxels ++ more) = distinctFrom seen (voxels ++ more) := by
  induction voxels generalizing seen with
  | nil => rfl
  | cons v rest ih =>
    by_cases hv : v ∈ seen
    · simp only [List.cons_append, distinctFrom, hv, if_true, ih]
    · simp only [List.cons_append, distinctFrom, hv, if_false, ih]

/-- Voxels that are distinct already are passed over once more. -/
theorem distinct_distinct_append (voxels more : List Voxel) :
    distinct (distinct voxels ++ more) = distinct (voxels ++ more) :=
  distinctFrom_distinctFrom_append ∅ voxels more

end Voxel
end VoxelAlgebra
