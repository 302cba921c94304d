import VoxelAlgebra.Proofs.Solid.Stages
import VoxelAlgebra.Proofs.World.Building
import VoxelAlgebra.Proofs.World.Lofting

/-!
# The lines of lofts in a world

Every line of a section is found missing or not by interpreting an equation over a section that the
lines before have changed. What comes of it is nevertheless what one pass over all lines would give:
before its hulls are made, the section between two layers has the voxels of all lines from a vertex
of the first to a vertex of the second, in this order and each where it comes first.

## Main definitions

* `World.generateEdges_accumulates` — the voxels of a section with all its lines.
-/

namespace VoxelAlgebra

namespace World

variable {w : World} {h : Handle} {l : Loft} {handles : List Handle}

/-- The building of a loft comes by the section between every two consecutive layers when it has
all its lines, and goes on with its hulls from there. The section then is the list of the voxels of
the lines from every vertex of the first layer to every vertex of the second, without repetitions.
In every world that operations lead to, the building of a live loft comes that far if the profiles
before can be read and all vertices up to there are in range. -/
theorem generateEdges_accumulates (shell : Bool) {before after : List Profile}
    {first second : Layer} {starts finishes : List Voxel}
    (hl : w.solids[h]? = some (.loft l handles))
    (hprofiles : handles.mapM profile w =
      .ok (before ++ first.profile :: second.profile :: after) w)
    (hstarts : first.absoluteVertices = .ok starts)
    (hfinishes : second.absoluteVertices = .ok finishes) :
    onLoft h (Loft.generateEdges shell) w = onPartOf h l (fun l => .loft l handles)
      (Loft.buildUntilJoined shell before first.profile second.profile >>=
        Loft.buildFromJoined shell before.length (second.profile :: after)) w ∧
    (∀ joined workshop p, Loft.buildUntilJoined shell before first.profile second.profile
        (w.issuer, l) = .ok (joined, workshop) p →
      joined.absolute = .ok (Voxel.distinct
        (starts.flatMap fun s => finishes.flatMap fun f => segment s f))) ∧
    ∀ source, w.Reached source → l.base.isDeleted = false → (∀ p ∈ before, Loft.IsReadable p) →
      (∀ v ∈ starts ++ finishes, v.InRange) →
      ∃ joined workshop p, Loft.buildUntilJoined shell before first.profile second.profile
        (w.issuer, l) = .ok (joined, workshop) p := by
  refine ⟨?_, fun joined workshop p hrun => ?_, fun source hw hlive hbefore hrange => ?_⟩
  · rw [onLoft_eq hl hprofiles, Loft.generateEdges_eq_bind]
  · obtain ⟨starts', finishes', hstarts', hfinishes', habsolute⟩ :=
      Loft.absolute_of_buildUntilJoined hrun
    cases hstarts.symm.trans hstarts'
    cases hfinishes.symm.trans hfinishes'
    exact habsolute
  · have howns : w.issuer.Owns ∅ (l.sets ++ w.others h) := hw.isSound.owns_of_isLive hl hlive
    obtain ⟨hstartRange, hfinishRange⟩ := List.forall_mem_append.1 hrange
    have hfirst : Loft.IsReadable first.profile := ⟨starts, hstarts, hstartRange⟩
    have hsecond : Loft.IsReadable second.profile := ⟨finishes, hfinishes, hfinishRange⟩
    obtain ⟨⟨joined, workshop⟩, p, hrun⟩ :=
      Loft.exists_buildUntilJoined shell howns hbefore hfirst hsecond
    exact ⟨joined, workshop, p, hrun⟩

/-- Two segments of different lengths above a point. The lines between the segments start at the
same vertices and end at the same vertices, so their ends repeat. -/
theorem generateEdges_accumulates_segments : ∃ (w : World) (l : Loft) (first second : Layer)
    (before : List Profile),
    w.solids[3]? = some (.loft l [0, 1, 2]) ∧
    [0, 1, 2].mapM profile w = .ok (before ++ first.profile :: second.profile :: []) w ∧
    first.absoluteVertices = .ok [⟨0, 0, 1⟩, ⟨1, 0, 1⟩] ∧
    second.absoluteVertices = .ok [⟨0, 0, 3⟩, ⟨2, 0, 3⟩] ∧
    onLoft 3 (Loft.generateEdges true) w = onPartOf 3 l (fun l => .loft l [0, 1, 2])
      (Loft.buildUntilJoined true before first.profile second.profile >>=
        Loft.buildFromJoined true before.length [second.profile]) w ∧
    ∃ joined workshop p, Loft.buildUntilJoined true before first.profile second.profile
        (w.issuer, l) = .ok (joined, workshop) p ∧
      joined.absolute =
        .ok [⟨0, 0, 1⟩, ⟨0, 0, 2⟩, ⟨0, 0, 3⟩, ⟨1, 0, 2⟩, ⟨2, 0, 3⟩, ⟨1, 0, 1⟩] := by
  obtain ⟨w, hw, l, l₀, l₁, l₂, hl, hlive, hl₀, hl₁, hl₂, hread, hstarts, hfinishes⟩ :
      ∃ w : World, w.Reached .hexadecimal ∧ ∃ (l : Loft) (l₀ l₁ l₂ : Layer),
        w.solids[3]? = some (.loft l [0, 1, 2]) ∧ l.base.isDeleted = false ∧
        w.solids[0]? = some (.layer l₀) ∧ w.solids[1]? = some (.layer l₁) ∧
        w.solids[2]? = some (.layer l₂) ∧ Loft.IsReadable l₀.profile ∧
        l₁.absoluteVertices = .ok [⟨0, 0, 1⟩, ⟨1, 0, 1⟩] ∧
        l₂.absoluteVertices = .ok [⟨0, 0, 3⟩, ⟨2, 0, 3⟩] := by
    refine exists_reached [.createLayer [0, 0, 0] [[0, 0, 0]],
      .createLayer [0, 0, 1] [[0, 0, 0], [1, 0, 0]], .createLayer [0, 0, 3] [[0, 0, 0], [2, 0, 0]],
      .createLoft [5, 0, 0] [0, 1, 2]] (by cbv) ?_
    exact ⟨_, _, _, _, rfl, rfl, rfl, rfl, rfl, ⟨_, rfl, by decide⟩, rfl, rfl⟩
  have hlayers : List.Forall₂ (fun k layer => w.solids[k]? = some (.layer layer)) [0, 1, 2]
      [l₀, l₁, l₂] := .cons hl₀ (.cons hl₁ (.cons hl₂ .nil))
  have hprofiles : [0, 1, 2].mapM profile w =
      .ok ([l₀.profile] ++ l₁.profile :: l₂.profile :: []) w := mapM_profile_eq_ok hlayers
  obtain ⟨hbuild, habsolute, hreach⟩ :=
    generateEdges_accumulates true hl hprofiles hstarts hfinishes
  obtain ⟨joined, workshop, p, hrun⟩ := hreach .hexadecimal hw hlive
    (List.forall_mem_singleton.2 hread) (by decide)
  have hlines : [(⟨0, 0, 1⟩ : Voxel), ⟨1, 0, 1⟩].flatMap (fun s =>
      [⟨0, 0, 3⟩, ⟨2, 0, 3⟩].flatMap fun f => segment s f) =
      [⟨0, 0, 1⟩, ⟨0, 0, 2⟩, ⟨0, 0, 3⟩] ++ [⟨0, 0, 1⟩, ⟨1, 0, 2⟩, ⟨2, 0, 3⟩] ++
        [⟨1, 0, 1⟩, ⟨1, 0, 2⟩, ⟨0, 0, 3⟩] ++ [⟨1, 0, 1⟩, ⟨1, 0, 2⟩, ⟨2, 0, 3⟩] := by decide
  refine ⟨w, l, l₁, l₂, [l₀.profile], hl, hprofiles, hstarts, hfinishes, hbuild, joined, workshop,
    p, hrun, (habsolute joined workshop p hrun).trans ?_⟩
  rw [hlines]
  simp [Voxel.distinct, Voxel.distinctFrom]

end World
end VoxelAlgebra
