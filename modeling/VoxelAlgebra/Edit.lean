import VoxelAlgebra.Report

/-!
# Edits

An edit changes a state step by step. When it fails, the state keeps what was changed before the
failure.

## Main definitions

* `Edit σ α` — an operation on a state `σ` with a result or a fault.
* `Edit.onPart`, `Edit.onFirst`, `Edit.onSecond` — an edit of a part of the state.
* `Edit.withSecond` — an edit that needs a further state only for itself.
-/

namespace VoxelAlgebra

/-- An operation on a state; a failed one also leaves a state behind. -/
abbrev Edit (σ α : Type) := EStateM Fault σ α

namespace Edit

variable {σ τ α : Type}

/-- A computation that may fail leaves the state as it is. -/
def ofExcept : Except Fault α → Edit σ α
  | .ok a => pure a
  | .error e => throw e

/-- An edit of the part that `read` finds and `write` puts back, also when the edit fails. -/
def onPart (read : σ → τ) (write : τ → σ → σ) (edit : Edit τ α) : Edit σ α := fun s =>
  match edit (read s) with
  | .ok a t => .ok a (write t s)
  | .error e t => .error e (write t s)

def onFirst (edit : Edit σ α) : Edit (σ × τ) α := onPart Prod.fst (fun s p => (s, p.2)) edit

def onSecond (edit : Edit τ α) : Edit (σ × τ) α := onPart Prod.snd (fun t p => (p.1, t)) edit

/-- An edit beside a second part that begins as `t` and is given back with the result. It is lost
when the edit fails. -/
def withSecond (t : τ) (edit : Edit (σ × τ) α) : Edit σ (α × τ) := fun s =>
  match edit (s, t) with
  | .ok a p => .ok (a, p.2) p.1
  | .error e p => .error e p.1

/-- The outcome of an edit, and the state that it leaves in either case. -/
def outcome (edit : Edit σ α) (s : σ) : Except Fault α × σ :=
  match edit s with
  | .ok a t => (.ok a, t)
  | .error e t => (.error e, t)

end Edit
end VoxelAlgebra
