import VoxelAlgebra.Proofs.Grid.Steps
import VoxelAlgebra.Proofs.SetEquation.Difference
import VoxelAlgebra.Proofs.Solid.Building

/-!
# The voxels of a growing section

A section grows by the result of the equation "line without section", which is evaluated anew for
every line, over the section as it is then. The equation keeps its tree, its names keep standing for
the line and the section, and no pass begins with a result of an earlier one. So each line adds its
missing voxels in the order of the line, and after any number of lines the section is the list of
all their voxels with every repetition left out.

## Main definitions

* `Evaluation.absoluteFill_of_evaluate` — the list of voxels that a difference evaluates to.
* `Loft.Draft.Accumulates` — a section that is the distinct voxels of a list.
* `Loft.Draft.Accumulates.addSegment`, `Loft.Draft.Accumulates.addSegments` — adding lines.
* `Loft.Draft.absoluteFill_of_joinProfiles` — all lines between two profiles.
-/

namespace VoxelAlgebra

open Equation (IsName)

/-! ## Evaluating a difference -/

namespace Cache

/-- Without results nothing is found. -/
theorem find?_of_results_eq_nil {c : Cache} (h : c.results = []) (left : String)
    (op : Equation.Operator) (right : String) : c.find? left op right = none := by
  simp [find?, h]

end Cache

namespace Evaluation

variable {bound : Bound} {left right result : VoxelSet} {p p' : Issuer × Cache}

/-- The difference of two sets keeps the voxels of the first in their order. -/
theorem absoluteFill_of_apply_diff (hleft : left.IsSound) (hright : right.IsSound)
    (hne : left.id ≠ right.id) (hempty : p.2.results = [])
    (hrun : apply left .diff right p = .ok result p') :
    result.absoluteFill = left.absoluteFill.filter (· ∉ right.absoluteFill) := by
  have hvoxels : operate left .diff right =
      .ok (left.absoluteFill.filter (· ∉ right.absoluteFill)) := by
    have hregion : ∀ v ∈ left.absoluteFill, v ∈ right.absoluteFill →
        (left.overlapRegion right).contains v := fun v =>
      VoxelSet.contains_overlapRegion hleft hright
    have hpartition := VoxelSet.partition_eq hleft hright hregion
    have hpartition' := VoxelSet.partition_eq hright hleft fun v hv hv' => hregion v hv' hv
    rw [operate, if_neg hne, combineVoxels]
    simp only [hpartition, hpartition', except_ok_bind]
    rfl
  simp only [apply, store, Edit.get_bind, Cache.find?_of_results_eq_nil hempty, hvoxels,
    Edit.bind_eq_ok, Edit.ofExcept_eq_ok, Edit.onFirst_eq_ok, Edit.onSecond_eq_ok,
    Edit.modify_eq_ok, Edit.pure_eq_ok] at hrun
  obtain ⟨voxels, _, ⟨hvoxels, rfl⟩, s, ⟨_, _⟩, ⟨hcreate, rfl⟩, _, ⟨_, _⟩, -, rfl, -⟩ := hrun
  cases hvoxels
  obtain ⟨-, horigin, hfill, -⟩ := VoxelSet.create_eq_ok hcreate
  rw [VoxelSet.absoluteFill_of_zero horigin, hfill]

/-- The tree of a difference of names evaluates to the difference of their sets. -/
theorem absoluteFill_of_evaluate {s t : String} (hs : IsName s) (ht : IsName t)
    (hleft : bound.lookup s = some left) (hright : bound.lookup t = some right)
    (hsound : left.IsSound) (hsound' : right.IsSound) (hne : left.id ≠ right.id)
    (hempty : p.2.results = []) (hrun : evaluate bound (differenceTree s t) p = .ok result p') :
    result.absoluteFill = left.absoluteFill.filter (· ∉ right.absoluteFill) := by
  have hlookUp : ∀ {name : String} {found found' : VoxelSet} {q q' : Issuer × Cache},
      IsName name → bound.lookup name = some found →
      resolve bound (.text name) q = .ok found' q' → found' = found ∧ q' = q := by
    intro name found found' q q' hname hfound hrun
    have huniversal : name ≠ "Ω" := hname.ne_constant (c := 'Ω') (by decide)
    have hnull : name ≠ "∅" := hname.ne_constant (c := '∅') (by decide)
    rw [resolve_text, lookUp_eq_ok, if_neg huniversal, if_neg hnull, hfound] at hrun
    exact ⟨(Option.some.inj hrun.2).symm, hrun.1.symm⟩
  have hresolve : resolve bound (differenceTree s t) p = .ok result p' := by
    rwa [differenceTree, resolve]
  obtain ⟨l, p₁, r, p₂, hl, hr, happly⟩ := (resolve_binary_eq_ok rfl).1 hresolve
  obtain ⟨rfl, rfl⟩ := hlookUp hs hleft hl
  obtain ⟨rfl, rfl⟩ := hlookUp ht hright hr
  exact absoluteFill_of_apply_diff hsound hsound' hne hempty happly

end Evaluation

namespace Composite

/-- An interpretation evaluates the tree without any result at hand, and the voxels of the result
become those of the composite. -/
theorem absoluteFill_of_interpret {bound : Bound} {i i' : Issuer} {c c' : Composite} {u : Unit}
    (hrun : interpret bound (i, c) = .ok u (i', c')) :
    c'.equation = c.equation ∧ ∃ (p p' : Issuer × Cache) (result : VoxelSet), p.2.results = [] ∧
      Evaluation.evaluate bound c.equation.tree p = .ok result p' ∧
      c'.base.absoluteFill = result.absoluteFill := by
  simp only [interpret, onCache, onBase, Edit.bind_eq_ok, Edit.get_bind, Edit.onPart_eq_ok,
    Edit.onSecond_eq_ok, Edit.ofExcept_eq_ok, VoxelSet.absolute_eq_ok] at hrun
  obtain ⟨cache, ⟨i₁, c₁⟩, hbegin, result, _, ⟨q, hevaluate, rfl⟩, voxels, _, ⟨⟨-, rfl⟩, rfl⟩,
    ⟨base, hset, rfl⟩, rfl⟩ := hrun
  obtain ⟨rfl, hempty, -⟩ := beginCache_eq_ok hbegin
  refine ⟨rfl, (i₁, cache), q, result, hempty, hevaluate, ?_⟩
  obtain ⟨-, d, -, rfl⟩ := VoxelSet.setFill_eq_ok.1 hset
  simp [VoxelSet.absoluteFill, Voxel.sub_add_cancel, Function.comp_def]

end Composite

/-! ## Lines -/

namespace Loft.Draft

variable {held : Set String} {others : List VoxelSet} {d d' : Draft} {u : Unit}

/-- The section is the distinct voxels of a list, and the composite has the tree of "line without
section". -/
structure Accumulates (held : Set String) (others : List VoxelSet) (voxels : List Voxel)
    (d : Draft) : Prop extends IsPrepared held others d where
  difference : d.1.2.composite.equation.tree = differenceTree d.1.2.line.id d.2.id
  fill : d.2.absoluteFill = Voxel.distinct voxels

namespace IsAtHand

theorem isName (h : IsAtHand held others d) : IsName d.1.2.line.id ∧ IsName d.2.id :=
  ⟨h.areApart.isName _ List.mem_cons_self,
    h.areApart.isName _ (List.mem_cons_of_mem _ List.mem_cons_self)⟩

theorem line_id_ne (h : IsAtHand held others d) : d.1.2.line.id ≠ d.2.id := by
  obtain ⟨⟨-, -, -, hids⟩, -⟩ := VoxelSet.areApart_cons.1 h.areApart
  exact fun hid => hids ⟨d.2, List.mem_cons_self, hid.symm⟩

/-- What interpreting "line without section" finds are the missing voxels of the line, in the order
of the line. -/
theorem absoluteFill_of_interpret {i : Issuer} {c : Composite} (h : IsAtHand held others d)
    (htree : d.1.2.composite.equation.tree = differenceTree d.1.2.line.id d.2.id)
    (hrun : Composite.interpret d.bound (d.1.1, d.1.2.composite) = .ok u (i, c)) :
    c.base.absoluteFill = d.1.2.line.absoluteFill.filter (· ∉ d.2.absoluteFill) := by
  obtain ⟨-, p, p', result, hempty, hevaluate, hfill⟩ := Composite.absoluteFill_of_interpret hrun
  obtain ⟨hline, hsection⟩ := h.isName
  rw [htree] at hevaluate
  rw [hfill]
  refine Evaluation.absoluteFill_of_evaluate hline hsection ?_ ?_ h.isSound_line h.isSound
    h.line_id_ne hempty hevaluate
  · simp [bound, List.lookup_cons, beq_eq_false_iff_ne.2 h.line_id_ne]
  · simp [bound]

end IsAtHand

/-- The composite takes up the tree of "line without section". -/
theorem difference_of_prepare (h : IsAtHand held others d) (hrun : prepare d = .ok u d') :
    d'.1.2.composite.equation.tree = differenceTree d'.1.2.line.id d'.2.id := by
  obtain ⟨hline, hsection, -, hassign⟩ := prepare_eq_ok hrun
  rw [hline, hsection]
  exact SetEquation.tree_of_assign h.isName.1 h.isName.2 h.line_id_ne hassign

/-- A line adds its voxels to the list of which the section is the distinct voxels. -/
theorem Accumulates.addSegment {voxels : List Voxel} {start finish : Voxel}
    (h : Accumulates held others voxels d) (hrun : addSegment start finish d = .ok u d') :
    Accumulates held others (voxels ++ segment start finish) d' := by
  have hprepared := ((endsIn_addSegment start finish h.toIsPrepared).of_ok hrun).1
  obtain ⟨line, i, c, hset, hinterpret, hend, hadd⟩ := addSegment_eq_ok hrun
  obtain ⟨-, hsound, hid⟩ := VoxelSet.isChange_of_setFill hset
  obtain ⟨hzero, hline⟩ := VoxelSet.absoluteFill_of_setFill h.line hset
  have hsection := (VoxelSet.isChange_of_addFill hadd).id
  -- the line has its new voxels when the equation is interpreted
  have h₁ : IsAtHand held others ((d.1.1, { d.1.2 with line }), d.2) :=
    ⟨h.owns.change_middle hsound hid, hzero, h.origin⟩
  have hnew := h₁.absoluteFill_of_interpret (hid ▸ h.difference) hinterpret
  refine ⟨hprepared, ?_, ?_⟩
  · have hequation := (Composite.absoluteFill_of_interpret hinterpret).1
    rw [hend, hsection]
    exact (congrArg SetEquation.tree hequation).trans (hid ▸ h.difference)
  · rw [VoxelSet.absoluteFill_of_addFill h.origin hadd, hnew, hline, h.fill,
      ← Voxel.distinct_append (Voxel.nodup_distinct voxels) (nodup_segment start finish),
      Voxel.distinct_distinct_append]

/-- Several lines add their voxels one after the other. -/
theorem Accumulates.addSegments {voxels : List Voxel} {segments : List (Voxel × Voxel)}
    (h : Accumulates held others voxels d) (hrun : addSegments segments d = .ok u d') :
    Accumulates held others (voxels ++ segments.flatMap fun p => segment p.1 p.2) d' := by
  induction segments generalizing voxels d with
  | nil =>
    obtain ⟨-, rfl⟩ := Edit.pure_eq_ok.1 hrun
    simpa using h
  | cons p rest ih =>
    rw [Draft.addSegments, Edit.bind_eq_ok] at hrun
    obtain ⟨_, d₁, hadd, hrest⟩ := hrun
    rw [List.flatMap_cons, ← List.append_assoc]
    exact ih (h.addSegment hadd) hrest

/-- Whenever all lines between two profiles were added to an empty section, it is the distinct
voxels of the lines in the order in which they were added. -/
theorem absoluteFill_of_joinProfiles {first second : Profile} (h : IsAtHand held others d)
    (hempty : d.2.fill = []) (hrun : joinProfiles first second d = .ok u d') :
    ∃ starts finishes, first.vertices = .ok starts ∧ second.vertices = .ok finishes ∧
      d'.2.absoluteFill = Voxel.distinct
        (starts.flatMap fun s => finishes.flatMap fun f => segment s f) := by
  simp only [joinProfiles, Edit.bind_eq_ok, Edit.ofExcept_eq_ok] at hrun
  obtain ⟨_, d₁, hprepare, starts, _, ⟨hstarts, rfl⟩, finishes, _, ⟨hfinishes, rfl⟩, hrun⟩ := hrun
  obtain ⟨d₁', hprepare', hprepared, hsection⟩ := exists_prepare h
  rw [hprepare] at hprepare'
  cases hprepare'
  have hfill : d₁.2.absoluteFill = Voxel.distinct [] := by
    rw [hsection, VoxelSet.absoluteFill_of_zero h.origin, hempty]
    rfl
  have hbegin : Accumulates held others [] d₁ :=
    ⟨hprepared, difference_of_prepare h hprepare, hfill⟩
  refine ⟨starts, finishes, hstarts, hfinishes, (hbegin.addSegments hrun).fill.trans ?_⟩
  simp [List.flatMap_assoc, List.flatMap_map]

end Loft.Draft
end VoxelAlgebra
