/-!
# Registry of identifiers

A registry tracks identifiers and can keep a reference for each. Candidates for a new identifier
come from outside; one that is tracked already is passed over.

## Main definitions

* `Registry` — tracked identifiers and references.
* `Registry.issue?` — takes up the first candidate that is not tracked.
* `Registry.sortedIds` — the tracked identifiers by code point.
-/

namespace VoxelAlgebra

/-- Tracked identifiers, each once, and references by identifier. -/
structure Registry (ρ : Type) where
  ids : List String := []
  references : List (String × ρ) := []
  deriving Repr, Inhabited

namespace Registry

variable {ρ : Type}

def empty : Registry ρ := {}

def has (r : Registry ρ) (id : String) : Bool := r.ids.contains id

def size (r : Registry ρ) : Nat := r.ids.length

/-- Tracks an identifier and tells whether it was new. -/
def add (r : Registry ρ) (id : String) : Bool × Registry ρ :=
  if r.has id then (false, r) else (true, { r with ids := r.ids ++ [id] })

/-- Tracks the first candidate that is not tracked yet, and gives the candidates behind it. -/
def issue? (r : Registry ρ) (candidates : List String) :
    Option (String × List String × Registry ρ) :=
  match candidates.dropWhile r.has with
  | [] => none
  | id :: rest => some (id, rest, { r with ids := r.ids ++ [id] })

/-- Keeps a reference for an identifier, in place of an older one. -/
def register (r : Registry ρ) (id : String) (reference : ρ) : Registry ρ :=
  { r with references := (id, reference) :: r.references.filter fun e => e.1 ≠ id }

def unregister (r : Registry ρ) (id : String) : Registry ρ :=
  { r with references := r.references.filter fun e => e.1 ≠ id }

def lookup? (r : Registry ρ) (id : String) : Option ρ := r.references.lookup id

def remove (r : Registry ρ) (id : String) : Registry ρ :=
  { r.unregister id with ids := r.ids.filter fun other => other ≠ id }

/-- Whether `a` comes before `b` or is equal, by code point. -/
def idLe (a b : String) : Bool := !(b < a)

def sortedIds (r : Registry ρ) : List String := r.ids.mergeSort idLe

end Registry
end VoxelAlgebra
