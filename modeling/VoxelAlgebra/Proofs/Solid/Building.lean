import VoxelAlgebra.Proofs.Edit.Outcome
import VoxelAlgebra.Proofs.Solid.HulledLines
import VoxelAlgebra.Proofs.Solid.Loft
import VoxelAlgebra.Proofs.Solid.Runs.Basic
import VoxelAlgebra.Proofs.Solid.Sharing

/-!
# Outcomes of building lofts

Nothing but the profiles can stop the building of a loft: their vertices may be unreadable or out of
range. Wherever it stops, the workshop and the unfinished section are at hand still. When it does
not stop, the loft has one section between every two consecutive profiles, made of the hulls of the
lines between them, and every voxel of the sections once.

## Main definitions

* `Loft.Draft.Stops` — what is in use where the building of a section stops.
* `Loft.Draft.prepare_eq_ok`, `Loft.Draft.addSegment_eq_ok` — what single steps do.
* `Loft.Draft.endsIn_joinProfiles` — the outcome of joining two profiles.
* `Loft.Connects`, `Loft.AreConnected` — sections between profiles.
* `Loft.Connects.subset_of_shell` — a hollow section and a solid one.
* `Loft.IsBuilt` — a loft that was built.
* `Loft.endsIn_addSections`, `Loft.endsIn_generateEdges` — the outcomes of building sections and a
  loft.
* `Loft.exists_generateEdges` — lofts that can be built.
* `Loft.areConnected_of_generateEdges` — what is built whenever the building succeeds.
-/

namespace VoxelAlgebra

variable {held : Set String} {others : List VoxelSet}

namespace Loft

open Edit (EndsIn)

namespace Draft

variable {d d' : Draft} {u : Unit}

/-- The issuer of a draft whose sets are at hand, with a cache. -/
def Stops (held : Set String) (others : List VoxelSet) (i : Issuer) : Prop :=
  ∃ d, IsAtHand held others d ∧ d.1.2.composite.cache.isSome ∧ d.1.1 = i

theorem Stops.perm {others' : List VoxelSet} {i : Issuer} (h : Stops held others i)
    (hperm : others.Perm others') : Stops held others' i := by
  obtain ⟨d, hd, hcache, hissuer⟩ := h
  refine ⟨d, ⟨hd.owns.perm ?_, hd.line, hd.origin⟩, hcache, hissuer⟩
  exact ((hperm.cons _).cons _).append_left _

/-- Five sets at least are at hand there besides the others: the line and the composite of the
workshop, the universal and the null set of the composite, and the unfinished section. -/
theorem Stops.exists_scratch {i : Issuer} (h : Stops held others i) :
    ∃ scratch : List VoxelSet, 5 ≤ scratch.length ∧ i.Owns held (scratch ++ others) := by
  obtain ⟨d, hd, hcache, rfl⟩ := h
  obtain ⟨cache, hcache⟩ := Option.isSome_iff_exists.1 hcache
  refine ⟨d.1.2.composite.sets ++ [d.1.2.line, d.2], ?_, ?_⟩
  · simp [Composite.sets, Composite.cacheSets, hcache, Cache.sets]
  · rw [List.append_assoc]
    exact hd.owns

/-- How a composite takes up the equation of a section: its cache begins, and it reads the text. -/
theorem prepare_eq_ok (hrun : prepare d = .ok u d') :
    d'.1.2.line = d.1.2.line ∧ d'.2 = d.2 ∧ d'.1.2.composite.cache.isSome ∧
      SetEquation.assign (d.1.2.line.id ++ "-" ++ d.2.id) d.1.2.composite.equation =
        .ok () d'.1.2.composite.equation := by
  obtain ⟨⟨i, w⟩, s⟩ := d
  obtain ⟨⟨i', w'⟩, s'⟩ := d'
  simp only [prepare, onComposite, Workshop.onComposite, Composite.resetCache,
    Composite.setEquation, Edit.get_bind, Edit.onFirst_eq_ok, Edit.onSecond_eq_ok,
    Edit.onPart_eq_ok, Edit.bind_eq_ok, Edit.pure_eq_ok, Edit.ofExcept_eq_ok] at hrun
  obtain ⟨⟨⟨_, c⟩, ⟨_, ⟨_, _⟩, ⟨_, _, hbegin, -, rfl⟩, _, _, ⟨-, rfl⟩, ⟨e, hassign, rfl⟩, rfl⟩,
    hend⟩, rfl⟩ := hrun
  obtain ⟨rfl, -⟩ := Composite.beginCache_eq_ok hbegin
  cases hend
  exact ⟨rfl, rfl, rfl, hassign⟩

/-- What a segment does to a section: the composite finds its missing voxels, and they are added. -/
theorem addSegment_eq_ok {start finish : Voxel} (hrun : addSegment start finish d = .ok u d') :
    ∃ line i c, VoxelSet.setFill (segment start finish) d.1.2.line = .ok () line ∧
      Composite.interpret [(d.2.id, d.2), (line.id, line)] (d.1.1, d.1.2.composite) =
        .ok () (i, c) ∧
      d'.1 = (i, ⟨line, c⟩) ∧ VoxelSet.addFill c.base.absoluteFill d.2 = .ok () d'.2 := by
  obtain ⟨⟨i, w⟩, s⟩ := d
  obtain ⟨⟨i', w'⟩, s'⟩ := d'
  simp only [addSegment, onLine, onComposite, Workshop.onComposite, Edit.bind_eq_ok, Edit.get_bind,
    Edit.onFirst_eq_ok, Edit.onSecond_eq_ok, Edit.onPart_eq_ok, Edit.ofExcept_eq_ok,
    VoxelSet.absolute_eq_ok] at hrun
  obtain ⟨_, ⟨⟨_, _⟩, _⟩, ⟨⟨⟨line, hset, rfl⟩, rfl⟩, rfl⟩, _, ⟨⟨_, _⟩, _⟩,
    ⟨⟨⟨_, c⟩, hinterpret, hend⟩, rfl⟩, _, _, ⟨⟨-, rfl⟩, rfl⟩, hadd, hend'⟩ := hrun
  cases hend
  cases hend'
  exact ⟨line, _, c, hset, hinterpret, rfl, hadd⟩

theorem isSome_cache_of_addSegment {start finish : Voxel}
    (hrun : addSegment start finish d = .ok u d') : d'.1.2.composite.cache.isSome := by
  obtain ⟨line, i, c, -, hinterpret, hend, -⟩ := addSegment_eq_ok hrun
  obtain ⟨-, -, -, cache, -, -, hcache⟩ := Composite.interpret_eq_ok hinterpret
  simp [hend, hcache]

/-- A segment adds its voxels, or one of them is out of range and nothing is issued. -/
theorem endsIn_addSegment (start finish : Voxel) (h : IsPrepared held others d) :
    (addSegment start finish).EndsIn d
      (fun _ d' => IsPrepared held others d' ∧
        ∀ v, v ∈ d'.2.voxels ↔ v ∈ d.2.voxels ∨ v ∈ segment start finish)
      fun _ d' => d'.1.1 = d.1.1 ∧ ¬∀ v ∈ segment start finish, v.InRange := by
  by_cases hrange : ∀ v ∈ segment start finish, v.InRange
  · obtain ⟨d', hrun, h'⟩ := exists_addSegment h hrange
    exact Edit.endsIn_of_eq_ok hrun h'
  · simp only [addSegment, onLine, Edit.endsIn_bind, Edit.endsIn_onFirst, Edit.endsIn_onSecond,
      Edit.endsIn_onPart]
    refine Edit.endsIn_iff.2
      ⟨fun _ line hset => absurd (fun v hv => ?_) hrange, fun _ _ _ => ⟨trivial, hrange⟩⟩
    obtain ⟨-, _, hd, -⟩ := VoxelSet.setFill_eq_ok.1 hset
    have hin := (Derived.of_eq_ok hd).1 (v + d.1.2.line.origin) (List.mem_map_of_mem hv)
    rwa [h.line, Voxel.add_zero] at hin

theorem endsIn_addSegments (segments : List (Voxel × Voxel)) (h : IsPrepared held others d)
    (hcache : d.1.2.composite.cache.isSome) : (addSegments segments).EndsIn d
      (fun _ d' => IsPrepared held others d' ∧
        ∀ v, v ∈ d'.2.voxels ↔ v ∈ d.2.voxels ∨ ∃ p ∈ segments, v ∈ segment p.1 p.2)
      fun _ d' => Stops held others d'.1.1 ∧ ¬∀ p ∈ segments, ∀ v ∈ segment p.1 p.2, v.InRange := by
  induction segments generalizing d with
  | nil => exact ⟨h, fun v => by simp⟩
  | cons p rest ih =>
    rw [addSegments, Edit.endsIn_bind]
    have hadd := endsIn_addSegment p.1 p.2 h
    refine Edit.endsIn_iff.2 ⟨fun u d₁ hrun => ?_, fun e d₁ hrun => ?_⟩
    · obtain ⟨h₁, hmem₁⟩ := hadd.of_ok hrun
      refine (ih h₁ (isSome_cache_of_addSegment hrun)).imp (fun _ d₂ h₂ => ⟨h₂.1, fun v => ?_⟩)
        fun _ _ hstops => ⟨hstops.1, fun hrange => hstops.2 (List.forall_mem_cons.1 hrange).2⟩
      rw [h₂.2, hmem₁, List.exists_mem_cons_iff, or_assoc]
    · obtain ⟨hissuer, hrange⟩ := hadd.of_error hrun
      exact ⟨⟨d, h.toIsAtHand, hcache, hissuer.symm⟩,
        fun hall => hrange (List.forall_mem_cons.1 hall).1⟩

/-- The lines between vertices in range are in range. -/
theorem inRange_of_mem_lines {starts finishes : List Voxel} (hstarts : ∀ v ∈ starts, v.InRange)
    (hfinishes : ∀ v ∈ finishes, v.InRange) :
    ∀ p ∈ starts.flatMap fun s => finishes.map fun f => (s, f), ∀ v ∈ segment p.1 p.2,
      v.InRange := by
  intro p hp v hv
  obtain ⟨s, hs, hp⟩ := List.mem_flatMap.1 hp
  obtain ⟨f, hf, rfl⟩ := List.mem_map.1 hp
  exact inRange_of_isBetween (hstarts s hs) (hfinishes f hf) (isBetween_of_mem_segment hv)

/-- Two profiles are joined, or one of them cannot be read or is out of range. -/
theorem endsIn_joinProfiles (first second : Profile) (h : IsAtHand held others d) :
    (joinProfiles first second).EndsIn d
      (fun _ d' => IsAtHand held others d' ∧ ∃ starts finishes, first.vertices = .ok starts ∧
        second.vertices = .ok finishes ∧ ∀ v, v ∈ d'.2.voxels ↔
          v ∈ d.2.voxels ∨ ∃ s ∈ starts, ∃ f ∈ finishes, v ∈ segment s f)
      fun _ d' => Stops held others d'.1.1 ∧ ¬(IsReadable first ∧ IsReadable second) := by
  obtain ⟨d₁, hprepare, h₁, hsection⟩ := exists_prepare h
  obtain ⟨-, -, hcache, -⟩ := prepare_eq_ok hprepare
  have hstops : Stops held others d₁.1.1 := ⟨d₁, h₁.toIsAtHand, hcache, rfl⟩
  rw [joinProfiles, Edit.endsIn_bind]
  refine Edit.endsIn_of_eq_ok hprepare ?_
  simp only [Edit.endsIn_bind, Edit.endsIn_ofExcept]
  refine ⟨fun starts hstarts => ⟨fun finishes hfinishes => ?_, fun e hsecond => ?_⟩,
    fun e hfirst => ?_⟩
  · refine (endsIn_addSegments _ h₁ hcache).imp (fun _ d₂ h₂ => ?_) fun _ d₂ hstops => ?_
    · refine ⟨h₂.1.toIsAtHand, starts, finishes, hstarts, hfinishes, fun v => ?_⟩
      rw [h₂.2, hsection]
      simp
    · refine ⟨hstops.1, ?_⟩
      rintro ⟨⟨starts', hstarts', hrange⟩, finishes', hfinishes', hrange'⟩
      cases hstarts.symm.trans hstarts'
      cases hfinishes.symm.trans hfinishes'
      exact hstops.2 (inRange_of_mem_lines hrange hrange')
  · refine ⟨hstops, ?_⟩
    rintro ⟨-, _, hvertices, -⟩
    cases hsecond.symm.trans hvertices
  · refine ⟨hstops, ?_⟩
    rintro ⟨⟨_, hvertices, -⟩, -⟩
    cases hfirst.symm.trans hvertices

end Draft

/-! ## Sections -/

def Connects (shell : Bool) (first second : Profile) (s : VoxelSet) : Prop :=
  ∃ starts finishes, first.vertices = .ok starts ∧ second.vertices = .ok finishes ∧
    IsSection shell starts finishes s

/-- Between the same profiles a hollow section is part of a section, hollow or solid. -/
theorem Connects.subset_of_shell {shell : Bool} {first second : Profile} {s t : VoxelSet}
    (h : Connects true first second s) (h' : Connects shell first second t) :
    s.absoluteFill ⊆ t.absoluteFill := by
  obtain ⟨starts, finishes, hstarts, hfinishes, hs⟩ := h
  obtain ⟨starts', finishes', hstarts', hfinishes', ht⟩ := h'
  cases hstarts.symm.trans hstarts'
  cases hfinishes.symm.trans hfinishes'
  exact hs.subset_of_shell ht

def AreConnected (shell : Bool) (profiles : List Profile) (sections : List (Nat × VoxelSet)) :
    Prop :=
  List.Forall₂ (fun pair e => Connects shell pair.1 pair.2 e.2) (profiles.zip profiles.tail)
    sections

/-- Two consecutive elements are among the pairs of consecutive ones. -/
theorem mem_zip_tail {α : Type} {a b : α} {l : List α} (h : [a, b] <:+: l) :
    (a, b) ∈ l.zip l.tail := by
  obtain ⟨before, after, rfl⟩ := h
  induction before with
  | nil => simp
  | cons c before ih =>
    rw [List.cons_append, List.cons_append, List.tail_cons]
    cases hl : before ++ [a, b] ++ after with
    | nil => simp at hl
    | cons d l =>
      rw [hl] at ih
      exact List.mem_cons_of_mem _ ih

/-- Every two consecutive profiles have a section that connects them. -/
theorem AreConnected.exists_connects {shell : Bool} {profiles : List Profile}
    {sections : List (Nat × VoxelSet)} (h : AreConnected shell profiles sections)
    {first second : Profile} (hpair : [first, second] <:+: profiles) :
    ∃ s ∈ sections.map Prod.snd, Connects shell first second s := by
  obtain ⟨e, he, hconnects⟩ := exists_mem_of_forall₂ h.flip (mem_zip_tail hpair)
  exact ⟨e.2, List.mem_map_of_mem he, hconnects⟩

theorem AreConnected.nodup {shell : Bool} {profiles : List Profile}
    {sections : List (Nat × VoxelSet)} (h : AreConnected shell profiles sections) :
    ∀ s ∈ sections.map Prod.snd, s.absoluteFill.Nodup := by
  rw [List.forall_mem_map]
  intro e he
  obtain ⟨_, -, _, _, -, -, hsection⟩ := exists_mem_of_forall₂ h he
  exact hsection.nodup

/-- Sections that connect profiles are sections between the vertices of these. -/
theorem AreConnected.isSection {shell : Bool} {profiles : List Profile}
    {sections : List (Nat × VoxelSet)} {vertices : List (List Voxel)}
    (h : AreConnected shell profiles sections)
    (hvertices : List.Forall₂ (fun p vs => p.vertices = .ok vs) profiles vertices) :
    List.Forall₂ (fun pair e => IsSection shell pair.1 pair.2 e.2) (vertices.zip vertices.tail)
      sections := by
  induction hvertices generalizing sections with
  | nil =>
    cases h
    exact .nil
  | cons hfirst hrest ih =>
    cases hrest with
    | nil =>
      cases h
      exact .nil
    | cons hsecond hrest =>
      cases h with
      | cons hconnects h =>
        obtain ⟨starts, finishes, hstarts, hfinishes, hsection⟩ := hconnects
        cases hfirst.symm.trans hstarts
        cases hsecond.symm.trans hfinishes
        exact .cons hsection (ih h)

variable {i i₁ : Issuer} {l l' : Loft} {w : Workshop}

/-- A section is added that connects the profiles. Or one of them cannot be read or is out of range,
and the building stops with a section that is not added. -/
theorem endsIn_addSection (shell : Bool) (number : Nat) (first second : Profile) (l : Loft)
    (h : HasWorkshop held others i w) :
    (addSection shell number first second).EndsIn ((i, l), w)
      (fun _ p => ∃ s, p.1.2 = { l with sections := l.sections ++ [(number, s)] } ∧
        HasWorkshop held (s :: others) p.1.1 p.2 ∧ Connects shell first second s)
      fun _ p => (p.1.2 = l ∧ Draft.Stops held others p.1.1) ∧
        ¬(IsReadable first ∧ IsReadable second) := by
  obtain ⟨fresh, i₁, hcreate, horigin, hfill, howns⟩ := h.owns.exists_create_empty
  have hfresh : Draft.IsAtHand held others ((i₁, w), fresh) :=
    ⟨Draft.owns_of_fresh howns, h.line, horigin⟩
  simp only [addSection, onWorkshop, Edit.endsIn_bind, Edit.endsIn_onPart, Edit.endsIn_onFirst,
    Edit.endsIn_onSecond, Edit.endsIn_modify, Edit.endsIn_pure]
  refine Edit.endsIn_of_eq_ok hcreate ?_
  simp only [Edit.endsIn_withSecond, Edit.endsIn_bind]
  refine (Draft.endsIn_joinProfiles first second hfresh).imp (fun _ d₁ h₁ => ?_)
    fun _ _ hstops => ⟨⟨trivial, hstops.1⟩, hstops.2⟩
  obtain ⟨h₁, starts, finishes, hstarts, hfinishes, hmem⟩ := h₁
  obtain ⟨⟨⟨i', w'⟩, s⟩, hhull, h', hnodup, hhulled⟩ := Draft.exists_hullSection shell h₁
  refine Edit.endsIn_of_eq_ok hhull ⟨s, rfl, ⟨h'.owns, h'.line⟩, starts, finishes, hstarts,
    hfinishes, h'.isSound, hnodup, _, _, fun v => ?_, h₁.isSound.derived, hhulled⟩
  rw [← VoxelSet.mem_voxels, hmem, VoxelSet.mem_voxels, VoxelSet.absoluteFill_of_zero horigin,
    hfill]
  simp

/-- There is a section between every two consecutive profiles. Or one of the profiles cannot be read
or is out of range, and the building stops behind the sections that were added. -/
theorem endsIn_addSections (shell : Bool) (number : Nat) (profiles : List Profile) (l : Loft)
    (h : HasWorkshop held others i w) :
    (addSections shell number profiles).EndsIn ((i, l), w)
      (fun _ p => ∃ new, p.1.2 = { l with sections := l.sections ++ new } ∧
        new.map Prod.fst = List.range' number (profiles.length - 1) ∧
        HasWorkshop held (new.map Prod.snd ++ others) p.1.1 p.2 ∧
        AreConnected shell profiles new)
      fun _ p => (∃ new, p.1.2 = { l with sections := l.sections ++ new } ∧
          Draft.Stops held (new.map Prod.snd ++ others) p.1.1) ∧
        ¬∀ p ∈ profiles, IsReadable p := by
  induction profiles generalizing number i l others w with
  | nil =>
    simp only [addSections, Edit.endsIn_pure]
    exact ⟨[], by simp, rfl, h, .nil⟩
  | cons first rest ih =>
    cases rest with
    | nil =>
      simp only [addSections, Edit.endsIn_pure]
      exact ⟨[], by simp, rfl, h, .nil⟩
    | cons second rest =>
      rw [addSections, Edit.endsIn_bind]
      refine (endsIn_addSection shell number first second l h).imp ?_ ?_
      · rintro _ ⟨⟨i₁, _⟩, w₁⟩ ⟨s, rfl, h₁, hs⟩
        have hperm : ∀ new : List (Nat × VoxelSet),
            (new.map Prod.snd ++ s :: others).Perm (s :: new.map Prod.snd ++ others) :=
          fun _ => List.perm_middle
        refine (ih (number + 1) { l with sections := l.sections ++ [(number, s)] } h₁).imp ?_ ?_
        · rintro _ p ⟨new, hl, hkeys, h₂, hnew⟩
          refine ⟨(number, s) :: new, by simp [hl], ?_, h₂.perm (hperm new), .cons hs hnew⟩
          rw [List.map_cons, hkeys]
          simp [List.range'_succ]
        · rintro _ p ⟨⟨new, hl, hstops⟩, hread⟩
          exact ⟨⟨(number, s) :: new, by simp [hl], hstops.perm (hperm new)⟩,
            fun hall => hread (List.forall_mem_cons.1 hall).2⟩
      · rintro _ p ⟨⟨hl, hstops⟩, hread⟩
        exact ⟨⟨[], by simp [hl], hstops⟩, fun hall =>
          hread ⟨hall first List.mem_cons_self, hall second (by simp)⟩⟩

/-- The sections between profiles that can be read and are in range can be built. -/
theorem exists_addSections (shell : Bool) (number : Nat) {profiles : List Profile} (l : Loft)
    (h : HasWorkshop held others i w) (hprofiles : ∀ p ∈ profiles, IsReadable p) :
    ∃ new i' w', addSections shell number profiles ((i, l), w) =
        .ok () ((i', { l with sections := l.sections ++ new }), w') ∧
      HasWorkshop held (new.map Prod.snd ++ others) i' w' := by
  obtain ⟨_, ⟨⟨i', _⟩, w'⟩, hrun, new, rfl, -, h', -⟩ :=
    ((endsIn_addSections shell number profiles l h).imp (fun _ _ hok => hok)
      fun _ _ hstops => hstops.2 hprofiles).exists_ok
  exact ⟨new, i', w', hrun, h'⟩

/-! ## Lofts -/

/-- A loft that was built over so many profiles: it has a section between every two consecutive
ones, and the voxels of these, each once. -/
structure IsBuilt (count : Nat) (l : Loft) : Prop where
  isLive : l.base.isDeleted = false
  keys : l.sections.map Prod.fst = List.range (count - 1)
  sections_isLive : ∀ s ∈ l.sections.map Prod.snd, s.isDeleted = false
  mem_iff : ∀ v, v ∈ l.base.absoluteFill ↔ ∃ s ∈ l.sections.map Prod.snd, v ∈ s.absoluteFill
  nodup : l.base.absoluteFill.Nodup

/-- A loft is built. Or one of the profiles cannot be read or is out of range, and the building
stops behind some sections, with its workshop in use. -/
theorem endsIn_generateEdges (shell : Bool) (profiles : List Profile) {base : VoxelSet}
    (hlive : l.base.isDeleted = false) (hreset : resetSections (i, l) = .ok () (i₁, { base }))
    (hbase : base.isDeleted = false) (h : i₁.Owns held others) :
    (generateEdges shell profiles).EndsIn (i, l)
      (fun _ p => VoxelSet.IsChange base p.2.base ∧ IsBuilt profiles.length p.2 ∧
        AreConnected shell profiles p.2.sections ∧
        p.1.Owns held (p.2.sections.map Prod.snd ++ others))
      fun _ p => (∃ new, p.2 = { base, sections := new, isShell := shell } ∧
          Draft.Stops held (new.map Prod.snd ++ others) p.1) ∧
        ¬∀ p ∈ profiles, IsReadable p := by
  obtain ⟨line, i₂, hline, hzero, -, howns₂⟩ := h.exists_create_empty
  obtain ⟨composite, i₃, hcomposite, howns₃⟩ := Composite.exists_create howns₂
  have hworkshop : HasWorkshop held others i₃ { line, composite } := ⟨howns₃, hzero⟩
  have halive : l.base.checkAlive = .ok () := VoxelSet.checkAlive_eq_ok.2 hlive
  simp only [generateEdges, Edit.endsIn_bind, Edit.endsIn_get, halive, Edit.endsIn_ofExcept_ok]
  refine Edit.endsIn_of_eq_ok hreset ?_
  simp only [Edit.endsIn_onFirst, Edit.endsIn_onSecond, Edit.endsIn_modify]
  refine Edit.endsIn_of_eq_ok hline (Edit.endsIn_of_eq_ok hcomposite ?_)
  simp only [Edit.endsIn_withSecond, Edit.endsIn_bind]
  refine (endsIn_addSections shell 0 profiles { base, isShell := shell } hworkshop).imp ?_ ?_
  · rintro _ ⟨⟨i₄, _⟩, w₄⟩ ⟨new, rfl, hkeys, h₄, hnew⟩
    obtain ⟨voxels, i₅, w₅, hunion, h₅, hmem, hnodup⟩ := exists_unionVoxels h₄
    obtain ⟨i₆, c₆, hrelease, -, howns₆⟩ := Composite.exists_release h₅.owns
    obtain ⟨i₇, hrelease', howns₇⟩ := howns₆.exists_release
    simp only [Edit.endsIn_get, onWorkshop, onBase, Workshop.onComposite, Edit.endsIn_onPart,
      Edit.endsIn_onFirst, Edit.endsIn_onSecond, Edit.endsIn_pure, List.nil_append]
    refine Edit.endsIn_of_eq_ok hunion (Edit.endsIn_of_eq_ok hrelease
      (Edit.endsIn_of_eq_ok hrelease' ?_))
    have hrange : ∀ v ∈ voxels, v.InRange := fun v hv => by
      obtain ⟨s, hs, hvs⟩ := (hmem v).1 hv
      exact (howns₇.isSound s (List.mem_append_left _ hs)).inRange v hvs
    obtain ⟨base', hset, hsound, hid, -, habsolute⟩ :=
      VoxelSet.exists_setFill_absolute hbase hrange
    refine Edit.endsIn_of_eq_ok hset ⟨⟨hbase, hsound, hid⟩, ⟨hsound.isLive, ?_, fun s hs => ?_,
      fun v => ?_, ?_⟩, hnew, howns₇⟩
    · rw [hkeys, List.range_eq_range']
    · exact (howns₇.isSound s (List.mem_append_left _ hs)).isLive
    · rw [habsolute, hmem]
      rfl
    · exact habsolute ▸ hnodup hnew.nodup
  · rintro _ ⟨⟨i₄, _⟩, w₄⟩ ⟨⟨new, rfl, hstops⟩, hread⟩
    exact ⟨⟨new, rfl, hstops⟩, hread⟩

/-- A live loft over profiles that can be read and are in range can be built. -/
theorem exists_generateEdges (shell : Bool) {profiles : List Profile}
    (h : i.Owns held (l.sets ++ others)) (hprofiles : ∀ p ∈ profiles, IsReadable p) :
    ∃ i' l', generateEdges shell profiles (i, l) = .ok () (i', l') := by
  obtain ⟨i₁, base, hreset, howns, -, -⟩ := exists_resetSections h
  obtain ⟨_, ⟨i', l'⟩, hrun, -⟩ := ((endsIn_generateEdges shell profiles
    (h.isSound l.base List.mem_cons_self).isLive hreset
    (howns.isSound base List.mem_cons_self).isLive howns).imp (fun _ _ hok => hok)
      fun _ _ hstops => hstops.2 hprofiles).exists_ok
  exact ⟨i', l', hrun⟩

theorem resetSections_eq_ok {u : Unit} (h : resetSections (i, l) = .ok u (i₁, l')) :
    ∃ base, l' = { base } ∧ VoxelSet.IsChange l.base base := by
  simp only [resetSections, onBase, Edit.get_bind, Edit.bind_eq_ok, Edit.ofExcept_eq_ok,
    Edit.onFirst_eq_ok, Edit.onSecond_eq_ok, Edit.onPart_eq_ok, Edit.modify_eq_ok] at h
  obtain ⟨_, _, ⟨-, rfl⟩, _, ⟨_, _⟩, ⟨-, rfl⟩, _, ⟨_, _⟩, ⟨rfl, rfl⟩, ⟨base, hset, rfl⟩, rfl⟩ := h
  exact ⟨base, rfl, VoxelSet.isChange_of_setFill hset⟩

/-- The building of a loft begins by giving its sections back. -/
theorem resetSections_of_generateEdges {shell : Bool} {profiles : List Profile} {i' : Issuer}
    {u : Unit} (hrun : generateEdges shell profiles (i, l) = .ok u (i', l')) :
    l.base.isDeleted = false ∧ ∃ i₁ base, resetSections (i, l) = .ok () (i₁, { base }) ∧
      VoxelSet.IsChange l.base base := by
  simp only [generateEdges, Edit.get_bind, Edit.bind_eq_ok, Edit.ofExcept_eq_ok,
    VoxelSet.checkAlive_eq_ok] at hrun
  obtain ⟨_, _, ⟨hlive, rfl⟩, _, ⟨i₁, l₁⟩, hreset, -⟩ := hrun
  obtain ⟨base, rfl, hbase⟩ := resetSections_eq_ok hreset
  exact ⟨hlive, i₁, base, hreset, hbase⟩

/-- Whatever identifiers are in use, a loft is built whenever the building succeeds. It keeps its
own identifier, and its sections connect the profiles. -/
theorem areConnected_of_generateEdges {shell : Bool} {profiles : List Profile} {i' : Issuer}
    {u : Unit} (hrun : generateEdges shell profiles (i, l) = .ok u (i', l')) :
    VoxelSet.IsChange l.base l'.base ∧ IsBuilt profiles.length l' ∧
      AreConnected shell profiles l'.sections := by
  obtain ⟨hlive, i₁, base, hreset, hbase⟩ := resetSections_of_generateEdges hrun
  obtain ⟨hchange, hbuilt, hconnected, -⟩ := (endsIn_generateEdges shell profiles hlive hreset
    hbase.isSound.isLive (.of_inUse i₁)).of_ok hrun
  exact ⟨⟨hlive, hchange.isSound, hchange.id.trans hbase.id⟩, hbuilt, hconnected⟩

theorem isBuilt_of_generateEdges {shell : Bool} {profiles : List Profile} {i' : Issuer} {u : Unit}
    (hrun : generateEdges shell profiles (i, l) = .ok u (i', l')) :
    VoxelSet.IsChange l.base l'.base ∧ IsBuilt profiles.length l' :=
  (areConnected_of_generateEdges hrun).imp_right And.left

/-! ## Views -/

theorem IsBuilt.sectionVoxels_eq {count : Nat} (h : IsBuilt count l) :
    l.sectionVoxels = .ok (l.sections.map fun e => (e.1, e.2.absoluteFill)) := by
  rw [sectionVoxels, except_bind_eq_ok]
  refine ⟨(), VoxelSet.checkAlive_eq_ok.2 h.isLive, ?_⟩
  rw [except_mapM_eq_ok, List.forall₂_map_right_iff, List.forall₂_same]
  rintro ⟨number, s⟩ he
  have hs : s.absolute = .ok s.absoluteFill := VoxelSet.absolute_eq_ok.2
    ⟨h.sections_isLive s (List.mem_map_of_mem (f := Prod.snd) he), rfl⟩
  simp only [hs, except_ok_bind]
  rfl

end Loft
end VoxelAlgebra
