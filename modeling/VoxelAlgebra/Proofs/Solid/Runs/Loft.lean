import VoxelAlgebra.Proofs.Solid.Building
import VoxelAlgebra.Proofs.Solid.Runs.Composite

/-!
# Successful runs of lofts

A loft owns its own voxels and its sections. The layers that trace hulls, and the line and the
composite with which sections are built, are given back before a successful run ends.

## Main definitions

* `Loft.owns_of_generateEdges` and its siblings — what a loft owns after a run.
-/

namespace VoxelAlgebra

variable {i i' : Issuer} {held : Set String} {others : List VoxelSet} {u : Unit}

namespace Loft

variable {l l' : Loft}

theorem owns_of_resetSections (h : l.base.isDeleted = false → i.Owns held (l.sets ++ others))
    (hrun : resetSections (i, l) = .ok u (i', l')) :
    ∃ base, l' = { base } ∧ i'.Owns held (base :: others) := by
  simp only [resetSections, onBase, Edit.get_bind, Edit.bind_eq_ok, Edit.ofExcept_eq_ok,
    VoxelSet.checkAlive_eq_ok, Edit.onFirst_eq_ok, Edit.onSecond_eq_ok, Edit.onPart_eq_ok,
    Edit.modify_eq_ok] at hrun
  obtain ⟨_, _, ⟨hlive, rfl⟩, _, ⟨i₁, _⟩, ⟨hreleases, rfl⟩, _, ⟨_, _⟩, ⟨rfl, rfl⟩,
    ⟨base, hset, rfl⟩, rfl⟩ := hrun
  have hperm : (l.sets ++ others).Perm (l.sections.map Prod.snd ++ l.base :: others) :=
    List.perm_middle.symm
  have howns := ((h hlive).perm hperm).of_releaseSets hreleases
  exact ⟨base, rfl, .of_isChange (fun _ => howns) (VoxelSet.isChange_of_setFill hset)⟩

theorem owns_of_generateEdges {shell : Bool} {profiles : List Profile}
    (h : l.base.isDeleted = false → i.Owns held (l.sets ++ others))
    (hrun : generateEdges shell profiles (i, l) = .ok u (i', l')) :
    i'.Owns held (l'.sets ++ others) := by
  obtain ⟨hlive, i₁, base, hreset, hbase⟩ := resetSections_of_generateEdges hrun
  obtain ⟨_, hend, howns⟩ := owns_of_resetSections h hreset
  cases hend
  obtain ⟨hchange, -, -, howns'⟩ := (endsIn_generateEdges shell profiles hlive hreset
    hbase.isSound.isLive howns).of_ok hrun
  exact .of_isChange (fun _ => howns'.perm List.perm_middle) hchange

theorem owns_of_release (h : l.base.isDeleted = false → i.Owns held (l.sets ++ others))
    (hrun : release (i, l) = .ok u (i', l')) : l'.base.isDeleted = true ∧ i'.Owns held others := by
  simp only [release, Edit.get_bind, Edit.bind_eq_ok, Edit.onFirst_eq_ok, Edit.onSecond_eq_ok,
    Edit.modify_eq_ok] at hrun
  obtain ⟨_, ⟨i₁, l₁⟩, hreset, base, ⟨i₂, _⟩, ⟨hrelease, rfl⟩, rfl, rfl⟩ := hrun
  obtain ⟨base₁, rfl, howns⟩ := owns_of_resetSections h hreset
  exact Issuer.Owns.of_release (fun _ => howns) hrelease

theorem owns_of_create {origin : List Number} (h : i.Owns held others)
    (hrun : create origin i = .ok l i') : i'.Owns held (l.sets ++ others) := by
  simp only [create, Edit.bind_eq_ok, Edit.pure_eq_ok] at hrun
  obtain ⟨base, _, hcreate, rfl, rfl⟩ := hrun
  exact h.of_createFrom hcreate

end Loft
end VoxelAlgebra
