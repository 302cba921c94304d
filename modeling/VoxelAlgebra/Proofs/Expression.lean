import Mathlib.Data.Set.Card
import VoxelAlgebra.Datum
import VoxelAlgebra.Equation.Symbol

/-!
# Expressions over objects

The tree of an equation says which objects are joined by which operations. Two names of one object
say the same, and so do an item and the level that has only this item. Operations with the same
operator and the same operands are the same; the operands of a commutative one may be swapped, at
every depth.

## Main definitions

* `Expression`, `Datum.Reads` — what a tree says, with objects in place of names.
* `Expression.operations` — the operations of an expression.
* `Expression.Same` — the equivalence of expressions.
* `Expression.classes` — the operations of an expression up to this equivalence.
-/

namespace VoxelAlgebra

open Equation (Operator)

inductive Expression (κ : Type) where
  | universal
  | null
  | object (k : κ)
  | operation (left : Expression κ) (op : Operator) (right : Expression κ)

namespace Expression

variable {κ : Type} {a b c : Expression κ}

/-- The operations of an expression, each as often as it occurs. -/
def operations : Expression κ → List (Expression κ)
  | operation l op r => operation l op r :: (l.operations ++ r.operations)
  | _ => []

theorem exists_operation_of_mem (h : a ∈ b.operations) : ∃ l op r, a = operation l op r := by
  induction b with
  | universal | null | object => cases h
  | operation l op r ihl ihr =>
    obtain rfl | h := List.mem_cons.1 h
    · exact ⟨l, op, r, rfl⟩
    · exact (List.mem_append.1 h).elim ihl ihr

/-! ## Sameness -/

/-- Expressions that differ only in the order of the operands of commutative operations. -/
inductive Same : Expression κ → Expression κ → Prop
  | universal : Same universal universal
  | null : Same null null
  | object (k : κ) : Same (object k) (object k)
  | operation {l l' r r' : Expression κ} {op : Operator} :
    Same l l' → Same r r' → Same (operation l op r) (operation l' op r')
  | swapped {l l' r r' : Expression κ} {op : Operator} :
    op.isCommutative → Same l r' → Same r l' → Same (operation l op r) (operation l' op r')

namespace Same

theorem refl (a : Expression κ) : Same a a := by
  induction a with
  | universal => exact .universal
  | null => exact .null
  | object k => exact .object k
  | operation l op r ihl ihr => exact .operation ihl ihr

theorem symm (h : Same a b) : Same b a := by
  induction h with
  | universal => exact .universal
  | null => exact .null
  | object k => exact .object k
  | operation _ _ ihl ihr => exact .operation ihl ihr
  | swapped hop _ _ ihl ihr => exact .swapped hop ihr ihl

theorem trans (h : Same a b) (h' : Same b c) : Same a c := by
  induction h generalizing c with
  | universal | null | object => exact h'
  | operation _ _ ihl ihr =>
    cases h' with
    | operation hl hr => exact .operation (ihl hl) (ihr hr)
    | swapped hop hl hr => exact .swapped hop (ihl hl) (ihr hr)
  | swapped hop _ _ ihl ihr =>
    cases h' with
    | operation hl hr => exact .swapped hop (ihl hr) (ihr hl)
    | swapped _ hl hr => exact .operation (ihl hr) (ihr hl)

end Same

instance setoid (κ : Type) : Setoid (Expression κ) where
  r := Same
  iseqv := ⟨Same.refl, Same.symm, Same.trans⟩

theorem mk_eq_mk_iff : (⟦a⟧ : Quotient (setoid κ)) = ⟦b⟧ ↔ Same a b := Quotient.eq

def classes (a : Expression κ) : Set (Quotient (setoid κ)) := {q | ∃ t ∈ a.operations, ⟦t⟧ = q}

end Expression

/-! ## Trees -/

/-- What a tree says if its names stand for objects. -/
inductive Datum.Reads {κ : Type} (ν : String → Option κ) : Datum → Expression κ → Prop
  | universal : Reads ν (.text "Ω") .universal
  | null : Reads ν (.text "∅") .null
  | name {s : String} {k : κ} : s ≠ "Ω" → s ≠ "∅" → ν s = some k → Reads ν (.text s) (.object k)
  | lone {d : Datum} {a : Expression κ} : Reads ν d a → Reads ν (.list [d]) a
  | binary {l r : Datum} {sign : String} {op : Operator} {a b : Expression κ} :
    Operator.ofSign? sign.toList = some op → Reads ν l a → Reads ν r b →
    Reads ν (.list [l, .text sign, r]) (.operation a op b)

/-- The parts of a tree: the tree itself, and the parts of the operands of its levels. -/
inductive Datum.IsPart (e : Datum) : Datum → Prop
  | self : IsPart e e
  | lone {d : Datum} : IsPart e d → IsPart e (.list [d])
  | left {l token r : Datum} : IsPart e l → IsPart e (.list [l, token, r])
  | right {l token r : Datum} : IsPart e r → IsPart e (.list [l, token, r])

end VoxelAlgebra
