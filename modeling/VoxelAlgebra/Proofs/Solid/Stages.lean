import VoxelAlgebra.Proofs.Solid.Accumulation

/-!
# Stages of building a loft

The building of a loft comes by every section twice: when all lines between two profiles have been
added to it, and when the hulls of its slices have taken their place. It can be cut at the first of
these moments for every two consecutive profiles. What it has there is the section with its lines
and the workshop that was used for all sections before.

## Main definitions

* `Loft.joinSection`, `Loft.finishSection` — the two halves of building a section.
* `Loft.buildUntilJoined`, `Loft.buildFromJoined` — building a loft up to the lines of a section,
  and from there.
* `Loft.generateEdges_eq_bind` — the two make up the building.
* `Loft.absolute_of_buildUntilJoined` — the voxels of the section with its lines.
-/

namespace VoxelAlgebra

namespace Loft

/-! ## Stages -/

/-- The beginning of a building: all sections are given back, and a workshop is set up. -/
def openWorkshop (shell : Bool) : Edit (Issuer × Loft) Workshop := do
  Edit.ofExcept (← get).2.base.checkAlive
  resetSections
  Edit.onSecond (modify ({ · with isShell := shell }))
  let line ← Edit.onFirst (VoxelSet.create .zero [])
  let composite ← Edit.onFirst (Composite.create [0, 0, 0] [])
  return { line, composite }

def joinSection (first second : Profile) : Edit (Issuer × Workshop) VoxelSet := do
  let fresh ← Edit.onFirst (VoxelSet.create .zero [])
  let (_, joined) ← Edit.withSecond fresh (Draft.joinProfiles first second)
  return joined

/-- The hulls of the slices take the place of a section, and it is added to the loft. -/
def finishSection (shell : Bool) (number : Nat) (joined : VoxelSet) :
    Edit ((Issuer × Loft) × Workshop) Unit := do
  let finished ← onWorkshop do
    let (_, finished) ← Edit.withSecond joined (Draft.hullSection shell)
    return finished
  Edit.onFirst <| Edit.onSecond <|
    modify fun l => { l with sections := l.sections ++ [(number, finished)] }

/-- The end of a building: the union of all sections. The workshop is given back. -/
def closeWorkshop : Edit ((Issuer × Loft) × Workshop) (List Voxel) := do
  let sections := (← get).1.2.sections.map Prod.snd
  let voxels ← onWorkshop (unionVoxels sections)
  onWorkshop (Workshop.onComposite Composite.release)
  let line := (← get).2.line
  let _ ← Edit.onFirst (Edit.onFirst line.release)
  return voxels

/-- The building of a loft up to where the section between two consecutive profiles has all its
lines. There are profiles `before` the two. -/
def buildUntilJoined (shell : Bool) (before : List Profile) (first second : Profile) :
    Edit (Issuer × Loft) (VoxelSet × Workshop) := do
  let w ← openWorkshop shell
  Edit.withSecond w do
    addSections shell 0 (before ++ [first])
    onWorkshop (joinSection first second)

/-- The building of a loft from where the section with a number has all its lines. -/
def buildFromJoined (shell : Bool) (number : Nat) (rest : List Profile)
    (stage : VoxelSet × Workshop) : Edit (Issuer × Loft) Unit := do
  let (voxels, _) ← Edit.withSecond stage.2 do
    finishSection shell number stage.1
    addSections shell (number + 1) rest
    closeWorkshop
  let origin := (← get).2.base.origin
  onBase (VoxelSet.setFill (voxels.map (· - origin)))

variable {shell : Bool} {number : Nat} {first second : Profile} {before after : List Profile}

theorem onWorkshop_bind {α β : Type} (x : Edit (Issuer × Workshop) α)
    (f : α → Edit (Issuer × Workshop) β) :
    onWorkshop (x >>= f) = onWorkshop x >>= fun a => onWorkshop (f a) := by
  simp only [onWorkshop]
  rw [Edit.onPart_bind]
  · exact fun _ _ => rfl
  · exact fun _ _ _ => rfl

/-- A section is built in two halves. -/
theorem addSection_eq_bind (shell : Bool) (number : Nat) (first second : Profile) :
    addSection shell number first second =
      onWorkshop (joinSection first second) >>= finishSection shell number := by
  have hbuild : (do
      let fresh ← Edit.onFirst (VoxelSet.create .zero [])
      let (_, finished) ← Edit.withSecond fresh do
        Draft.joinProfiles first second
        Draft.hullSection shell
      return finished : Edit (Issuer × Workshop) VoxelSet) = do
      let joined ← joinSection first second
      let (_, finished) ← Edit.withSecond joined (Draft.hullSection shell)
      return finished := by
    simp only [joinSection, Edit.withSecond_bind, bind_assoc, pure_bind]
  rw [addSection, hbuild, onWorkshop_bind, bind_assoc]
  rfl

/-- The sections up to a profile are built before those from it on. -/
theorem addSections_append (shell : Bool) (number : Nat) (before : List Profile) (first : Profile)
    (rest : List Profile) : addSections shell number (before ++ first :: rest) =
      addSections shell number (before ++ [first]) >>= fun _ =>
        addSections shell (number + before.length) (first :: rest) := by
  induction before generalizing number with
  | nil => simp [addSections]
  | cons p before ih =>
    cases before with
    | nil => simp [addSections]
    | cons q before =>
      have hnumber : number + (p :: q :: before).length = number + 1 + (q :: before).length := by
        simp only [List.length_cons]
        omega
      have h := ih (number + 1)
      simp only [List.cons_append] at h ⊢
      simp only [addSections, bind_assoc, hnumber]
      rw [h]

/-- The building of a loft comes by the section between every two consecutive profiles when it has
all its lines, and goes on from there. -/
theorem generateEdges_eq_bind (shell : Bool) (before : List Profile) (first second : Profile)
    (after : List Profile) : generateEdges shell (before ++ first :: second :: after) =
      buildUntilJoined shell before first second >>=
        buildFromJoined shell before.length (second :: after) := by
  have hsections : addSections shell 0 (before ++ first :: second :: after) =
      addSections shell 0 (before ++ [first]) >>= fun _ =>
        onWorkshop (joinSection first second) >>= fun joined =>
          finishSection shell before.length joined >>= fun _ =>
            addSections shell (before.length + 1) (second :: after) := by
    rw [addSections_append, Nat.zero_add]
    simp only [addSections, addSection_eq_bind, bind_assoc]
  rw [generateEdges, hsections]
  delta buildFromJoined
  simp only [buildUntilJoined, openWorkshop, closeWorkshop, Edit.withSecond_bind, bind_assoc,
    pure_bind]

/-! ## The section with its lines -/

variable {held : Set String} {others : List VoxelSet} {i i' : Issuer} {l l' : Loft} {w : Workshop}

/-- A workshop that was set up is at hand, whatever identifiers were in use before. -/
theorem hasWorkshop_of_openWorkshop (hrun : openWorkshop shell (i, l) = .ok w (i', l')) :
    ∃ held, HasWorkshop held [] i' w := by
  simp only [openWorkshop, Edit.get_bind, Edit.bind_eq_ok, Edit.ofExcept_eq_ok,
    Edit.onFirst_eq_ok, Edit.onSecond_eq_ok, Edit.modify_eq_ok, Edit.pure_eq_ok] at hrun
  obtain ⟨_, _, -, _, ⟨i₁, l₁⟩, -, _, ⟨_, _⟩, ⟨-, rfl⟩, line, ⟨i₂, _⟩, ⟨hline, -⟩, composite,
    ⟨i₃, _⟩, ⟨hcomposite, -⟩, rfl, hend⟩ := hrun
  cases hend
  obtain ⟨line', i₂', hline', hzero, -, howns₂⟩ := (Issuer.Owns.of_inUse i₁).exists_create_empty
  rw [hline] at hline'
  cases hline'
  obtain ⟨composite', i₃', hcomposite', howns₃⟩ := Composite.exists_create howns₂
  rw [hcomposite] at hcomposite'
  cases hcomposite'
  exact ⟨_, howns₃, hzero⟩

/-- A new section is empty before its first line. -/
theorem absolute_of_joinSection {joined : VoxelSet} {p : Issuer × Workshop}
    (h : HasWorkshop held others i w) (hrun : joinSection first second (i, w) = .ok joined p) :
    ∃ starts finishes, first.vertices = .ok starts ∧ second.vertices = .ok finishes ∧
      joined.absolute = .ok (Voxel.distinct
        (starts.flatMap fun s => finishes.flatMap fun f => segment s f)) := by
  obtain ⟨fresh, i₁, hcreate, horigin, hempty, howns⟩ := h.owns.exists_create_empty
  have hfresh : Draft.IsAtHand held others ((i₁, w), fresh) :=
    ⟨Draft.owns_of_fresh howns, h.line, horigin⟩
  simp only [joinSection, Edit.bind_eq_ok, Edit.onFirst_eq_ok, Edit.withSecond_eq_ok,
    Edit.pure_eq_ok] at hrun
  obtain ⟨fresh', ⟨_, _⟩, ⟨hcreate', rfl⟩, ⟨_, s⟩, _, hjoin, rfl, rfl⟩ := hrun
  rw [hcreate] at hcreate'
  cases hcreate'
  obtain ⟨starts, finishes, hstarts, hfinishes, hfill⟩ :=
    Draft.absoluteFill_of_joinProfiles hfresh hempty hjoin
  have hsound := ((Draft.endsIn_joinProfiles first second hfresh).of_ok hjoin).1.isSound
  exact ⟨starts, finishes, hstarts, hfinishes,
    VoxelSet.absolute_eq_ok.2 ⟨hsound.isLive, hfill⟩⟩

/-- Wherever a loft is built, the section between two consecutive profiles with all its lines is the
distinct voxels of the lines from every vertex of the first to every vertex of the second. -/
theorem absolute_of_buildUntilJoined {stage : VoxelSet × Workshop} {p : Issuer × Loft}
    (hrun : buildUntilJoined shell before first second (i, l) = .ok stage p) :
    ∃ starts finishes, first.vertices = .ok starts ∧ second.vertices = .ok finishes ∧
      stage.1.absolute = .ok (Voxel.distinct
        (starts.flatMap fun s => finishes.flatMap fun f => segment s f)) := by
  simp only [buildUntilJoined, onWorkshop, Edit.bind_eq_ok, Edit.withSecond_eq_ok,
    Edit.onPart_eq_ok] at hrun
  obtain ⟨w, ⟨i₁, l₁⟩, hopen, _, ⟨⟨i₂, l₂⟩, w₂⟩, hsections, q, hjoin, -⟩ := hrun
  obtain ⟨held, hworkshop⟩ := hasWorkshop_of_openWorkshop hopen
  obtain ⟨new, -, -, hworkshop', -⟩ :=
    (endsIn_addSections shell 0 (before ++ [first]) l₁ hworkshop).of_ok hsections
  exact absolute_of_joinSection hworkshop' hjoin

/-- A live loft gets a workshop. -/
theorem exists_openWorkshop (shell : Bool) (h : i.Owns held (l.sets ++ others)) :
    ∃ w i' l', openWorkshop shell (i, l) = .ok w (i', l') ∧
      HasWorkshop held (l'.base :: others) i' w := by
  obtain ⟨i₁, base, hreset, howns₁, -, -⟩ := exists_resetSections h
  obtain ⟨line, i₂, hline, hzero, -, howns₂⟩ := howns₁.exists_create_empty
  obtain ⟨composite, i₃, hcomposite, howns₃⟩ := Composite.exists_create howns₂
  have hlive := (h.isSound l.base List.mem_cons_self).isLive
  let opened : Loft := { base, isShell := shell }
  refine ⟨{ line, composite }, i₃, opened, ?_, howns₃, hzero⟩
  simp only [openWorkshop, Edit.get_bind, Edit.bind_eq_ok, Edit.ofExcept_eq_ok,
    VoxelSet.checkAlive_eq_ok, Edit.onFirst_eq_ok, Edit.onSecond_eq_ok, Edit.modify_eq_ok,
    Edit.pure_eq_ok]
  exact ⟨(), (i, l), ⟨hlive, rfl⟩, (), (i₁, { base }), hreset, (), (i₁, opened), ⟨rfl, rfl⟩, line,
    (i₂, opened), ⟨hline, rfl⟩, composite, (i₃, opened), ⟨hcomposite, rfl⟩, rfl, rfl⟩

/-- The lines between two readable profiles can be added. -/
theorem exists_joinSection (h : HasWorkshop held others i w) (hfirst : IsReadable first)
    (hsecond : IsReadable second) : ∃ joined p, joinSection first second (i, w) = .ok joined p := by
  obtain ⟨fresh, i₁, hcreate, horigin, -, howns⟩ := h.owns.exists_create_empty
  have hfresh : Draft.IsAtHand held others ((i₁, w), fresh) :=
    ⟨Draft.owns_of_fresh howns, h.line, horigin⟩
  obtain ⟨_, ⟨p, joined⟩, hjoin, -⟩ := ((Draft.endsIn_joinProfiles first second hfresh).imp
    (fun _ _ hok => hok) fun _ _ hstops => hstops.2 ⟨hfirst, hsecond⟩).exists_ok
  refine ⟨joined, p, ?_⟩
  simp only [joinSection, Edit.bind_eq_ok, Edit.onFirst_eq_ok, Edit.withSecond_eq_ok,
    Edit.pure_eq_ok]
  exact ⟨fresh, (i₁, w), ⟨hcreate, rfl⟩, ((), joined), p, hjoin, rfl, rfl⟩

/-- Over readable profiles the building of a live loft comes that far. -/
theorem exists_buildUntilJoined (shell : Bool) (h : i.Owns held (l.sets ++ others))
    (hbefore : ∀ p ∈ before, IsReadable p) (hfirst : IsReadable first)
    (hsecond : IsReadable second) :
    ∃ stage p, buildUntilJoined shell before first second (i, l) = .ok stage p := by
  obtain ⟨w, i₁, l₁, hopen, hworkshop⟩ := exists_openWorkshop shell h
  obtain ⟨new, i₂, w₂, hsections, hworkshop₂⟩ := exists_addSections shell 0 l₁ hworkshop
    (List.forall_mem_append.2 ⟨hbefore, List.forall_mem_singleton.2 hfirst⟩)
  obtain ⟨joined, ⟨i₃, w₃⟩, hjoin⟩ := exists_joinSection hworkshop₂ hfirst hsecond
  refine ⟨(joined, w₃), (i₃, { l₁ with sections := l₁.sections ++ new }), ?_⟩
  simp only [buildUntilJoined, onWorkshop, Edit.bind_eq_ok, Edit.withSecond_eq_ok,
    Edit.onPart_eq_ok]
  exact ⟨w, (i₁, l₁), hopen, (), _, hsections, (i₃, w₃), hjoin, rfl⟩

end Loft
end VoxelAlgebra
