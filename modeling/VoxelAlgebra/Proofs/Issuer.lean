import Mathlib.Data.Finset.Card
import Mathlib.Data.List.TakeWhile
import VoxelAlgebra.Identifier
import VoxelAlgebra.Proofs.Edit
import VoxelAlgebra.Proofs.Equation.Grammar

/-!
# Fresh identifiers

An identifier can always be issued, because there are more candidates than identifiers in use. It is
not in use before, and it is in use until it is given back.

## Main definitions

* `IdSource.unary` — a supply of short names.
* `Issuer.inUse` — the identifiers that were issued and not given back.
* `Issuer.Issues` — what issuing an identifier does.
* `Issuer.exists_issue`, `Issuer.issues_of_issue` — issuing never fails.
-/

namespace VoxelAlgebra

/-- Names of one letter, each longer than the one before. They are short where only a few are
issued. -/
def IdSource.unary : IdSource where
  text n := String.ofList (List.replicate (n + 1) 'a')
  injective i j h := by
    have hlength := congrArg List.length (String.ofList_injective h)
    simpa using hlength
  isName i := by
    refine ⟨fun h => ?_, ?_⟩
    · have hlength := congrArg String.length h
      simp at hlength
    · have hletter : Equation.isNameChar 'a' = true := by decide
      simp [hletter]

namespace Issuer

def inUse (s : Issuer) : List String := s.registry.ids

/-- An identifier that was not in use is in use now, behind all others. -/
structure Issues (s : Issuer) (id : String) (s' : Issuer) : Prop where
  fresh : id ∉ s.inUse
  inUse : s'.inUse = s.inUse ++ [id]
  isName : Equation.IsName id

/-- More different names than identifiers in use. -/
theorem exists_fresh_candidate (s : Issuer) : ∃ id ∈ s.candidates, id ∉ s.inUse := by
  by_contra h
  push Not at h
  have hinj : Function.Injective fun i => s.source.text (s.drawn + i) := fun i j hij =>
    Nat.add_left_cancel (s.source.injective _ _ hij)
  have hsub : (Finset.range (s.registry.size + 1)).image (fun i => s.source.text (s.drawn + i)) ⊆
      s.inUse.toFinset := by
    intro id hid
    obtain ⟨i, hi, rfl⟩ := Finset.mem_image.1 hid
    have hmem := h _ (List.mem_map_of_mem (List.mem_range.2 (Finset.mem_range.1 hi)))
    exact List.mem_toFinset.2 hmem
  have hcard := Finset.card_le_card hsub
  rw [Finset.card_image_of_injective _ hinj, Finset.card_range] at hcard
  have hle := List.toFinset_card_le s.inUse
  have hsize : s.inUse.length = s.registry.size := rfl
  omega

theorem isName_of_mem_candidates {s : Issuer} {id : String} (h : id ∈ s.candidates) :
    Equation.IsName id := by
  obtain ⟨i, -, rfl⟩ := List.mem_map.1 h
  have hname := s.source.isName (s.drawn + i)
  exact ⟨hname.1, by simpa using hname.2⟩

/-- Issuing never fails. -/
theorem exists_issue (s : Issuer) : ∃ id s', issue s = .ok id s' ∧ Issues s id s' := by
  cases hrest : s.candidates.dropWhile s.registry.has with
  | nil =>
    obtain ⟨id, hid, hfresh⟩ := s.exists_fresh_candidate
    have hall := List.dropWhile_eq_nil_iff.1 hrest id hid
    rw [Registry.has, List.contains_iff_mem] at hall
    exact absurd hall hfresh
  | cons id rest =>
    have hmem : id ∈ s.candidates := (List.dropWhile_sublist _).subset (hrest ▸ List.mem_cons_self)
    have hfresh : id ∉ s.inUse := by
      have hnot := List.head?_dropWhile_not s.registry.has s.candidates
      rw [hrest] at hnot
      simpa [Registry.has, inUse] using hnot
    have hissue : s.registry.issue? s.candidates =
        some (id, rest, { s.registry with ids := s.registry.ids ++ [id] }) := by
      rw [Registry.issue?, hrest]
    let registry : Registry Unit := { s.registry with ids := s.registry.ids ++ [id] }
    let s' : Issuer := { s with
      registry := registry.register id ()
      drawn := s.drawn + (s.candidates.length - rest.length) }
    refine ⟨id, s', ?_, hfresh, rfl, isName_of_mem_candidates hmem⟩
    simp only [issue, Edit.bind_eq_ok, Edit.get_eq_ok]
    refine ⟨s, s, ⟨rfl, rfl⟩, ?_⟩
    rw [hissue]
    rfl

theorem issues_of_issue {s s' : Issuer} {id : String} (h : issue s = .ok id s') :
    Issues s id s' := by
  obtain ⟨id', s'', h', hissues⟩ := s.exists_issue
  rw [h] at h'
  cases h'
  exact hissues

theorem inUse_of_release {s s' : Issuer} {id : String} {u : Unit}
    (h : release id s = .ok u s') : s'.inUse = s.inUse.filter (· ≠ id) := by
  simp only [release, Edit.modify_eq_ok] at h
  subst h
  rfl

end Issuer
end VoxelAlgebra
