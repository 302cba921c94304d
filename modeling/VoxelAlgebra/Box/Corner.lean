import VoxelAlgebra.Grid.Voxel

/-!
# Corners of a box

A box has eight corners. Each corner is on the low or the high side of every axis:

    x: left or right      y: bottom or top      z: front or back

so the front left bottom corner is the lowest and the back right top corner the highest.

## Main definitions

* `Corner`, `Corner.isHigh` — the corners and their sides.
* `Corner.edges` — the edges along an axis, from the low to the high end.
* `Corner.rules` — which corners two known corners determine.
* `Cube` — one value for each corner.
-/

namespace VoxelAlgebra

/-- Front or back, left or right, bottom or top. -/
inductive Corner where
  | flb
  | frb
  | flt
  | frt
  | blb
  | brb
  | blt
  | brt
  deriving DecidableEq, Repr, Inhabited

namespace Corner

def all : List Corner := [flb, frb, flt, frt, blb, brb, blt, brt]

def index : Corner → Nat
  | flb => 0
  | frb => 1
  | flt => 2
  | frt => 3
  | blb => 4
  | brb => 5
  | blt => 6
  | brt => 7

def label : Corner → String
  | flb => "FLB"
  | frb => "FRB"
  | flt => "FLT"
  | frt => "FRT"
  | blb => "BLB"
  | brb => "BRB"
  | blt => "BLT"
  | brt => "BRT"

/-- Whether the corner is on the high side of an axis: right, top or back. -/
def isHigh : Corner → Axis → Bool
  | flb, _ => false
  | frb, a => a = .x
  | flt, a => a = .y
  | frt, a => a ≠ .z
  | blb, a => a = .z
  | brb, a => a ≠ .y
  | blt, a => a ≠ .x
  | brt, _ => true

def ofSides (side : Axis → Bool) : Corner :=
  match side .x, side .y, side .z with
  | false, false, false => flb
  | true, false, false => frb
  | false, true, false => flt
  | true, true, false => frt
  | false, false, true => blb
  | true, false, true => brb
  | false, true, true => blt
  | true, true, true => brt

theorem mem_all (c : Corner) : c ∈ all := by cases c <;> decide

@[simp] theorem isHigh_ofSides (side : Axis → Bool) (a : Axis) :
    (ofSides side).isHigh a = side a := by
  unfold ofSides
  cases a <;> cases hx : side .x <;> cases hy : side .y <;> cases hz : side .z <;> rfl

/-- The corner at the high end of the edge along `a` that begins at `c`. -/
def raise (c : Corner) (a : Axis) : Corner := ofSides fun b => b = a || c.isHigh b

/-- The four edges along an axis, each from its low to its high end. -/
def edges (a : Axis) : List (Corner × Corner) :=
  (all.filter fun c => !c.isHigh a).map fun c => (c, c.raise a)

def differing (i j : Corner) : List Axis := Axis.all.filter fun a => i.isHigh a != j.isHigh a

/-- The other corners of the flat or full box that is spanned by two corners: those on the common
side of every axis on which the two agree. -/
def spanned (i j : Corner) : List Corner :=
  all.filter fun k => k ≠ i && k ≠ j &&
    Axis.all.all fun a => i.isHigh a != j.isHigh a || k.isHigh a == i.isHigh a

/-- Two corners of a face diagonal give the other corners of the face, two corners of a space
diagonal give all others. Face diagonals come first. -/
def rules : List (Corner × Corner × List Corner) :=
  [2, 3].flatMap fun distance => all.flatMap fun i =>
    (all.filter fun j => i.index < j.index && (differing i j).length = distance).map fun j =>
      (i, j, spanned i j)

end Corner

structure Cube (α : Type) where
  flb : α
  frb : α
  flt : α
  frt : α
  blb : α
  brb : α
  blt : α
  brt : α
  deriving DecidableEq, Repr

namespace Cube

variable {α β : Type}

def get (b : Cube α) : Corner → α
  | .flb => b.flb
  | .frb => b.frb
  | .flt => b.flt
  | .frt => b.frt
  | .blb => b.blb
  | .brb => b.brb
  | .blt => b.blt
  | .brt => b.brt

def ofFn (f : Corner → α) : Cube α :=
  ⟨f .flb, f .frb, f .flt, f .frt, f .blb, f .brb, f .blt, f .brt⟩

def set (b : Cube α) (c : Corner) (a : α) : Cube α :=
  match c with
  | .flb => { b with flb := a }
  | .frb => { b with frb := a }
  | .flt => { b with flt := a }
  | .frt => { b with frt := a }
  | .blb => { b with blb := a }
  | .brb => { b with brb := a }
  | .blt => { b with blt := a }
  | .brt => { b with brt := a }

def toList (b : Cube α) : List α := [b.flb, b.frb, b.flt, b.frt, b.blb, b.brb, b.blt, b.brt]

def map (f : α → β) (b : Cube α) : Cube β := ofFn fun c => f (b.get c)

def fill (a : α) : Cube α := ofFn fun _ => a

@[simp] theorem get_ofFn (f : Corner → α) (c : Corner) : (ofFn f).get c = f c := by
  cases c <;> rfl

@[simp] theorem get_set (b : Cube α) (c d : Corner) (a : α) :
    (b.set c a).get d = if d = c then a else b.get d := by
  cases c <;> cases d <;> rfl

@[simp] theorem get_map (f : α → β) (b : Cube α) (c : Corner) : (b.map f).get c = f (b.get c) := by
  simp [map]

@[simp] theorem get_fill (a : α) (c : Corner) : (fill a).get c = a := by simp [fill]

theorem ext_get {b d : Cube α} (h : ∀ c, b.get c = d.get c) : b = d := by
  cases b; cases d
  have h₀ := h .flb
  have h₁ := h .frb
  have h₂ := h .flt
  have h₃ := h .frt
  have h₄ := h .blb
  have h₅ := h .brb
  have h₆ := h .blt
  have h₇ := h .brt
  simp_all [get]

def known (b : Cube (Option α)) : Nat := b.toList.countP Option.isSome

def complete? (b : Cube (Option α)) : Option (Cube α) :=
  match b with
  | ⟨some flb, some frb, some flt, some frt, some blb, some brb, some blt, some brt⟩ =>
    some ⟨flb, frb, flt, frt, blb, brb, blt, brt⟩
  | _ => none

theorem complete?_eq_some_iff {b : Cube (Option α)} {d : Cube α} :
    b.complete? = some d ↔ ∀ c, b.get c = some (d.get c) := by
  constructor
  · intro h c
    unfold complete? at h
    split at h
    · cases h; cases c <;> rfl
    · cases h
  · intro h
    have : b = d.map some := ext_get fun c => by rw [h c, get_map]
    rw [this]; rfl

end Cube
end VoxelAlgebra
