import VoxelAlgebra.Proofs.Grid.Reversal
import VoxelAlgebra.Proofs.Solid.Outline
import VoxelAlgebra.Solid.Line

/-!
# Traced lines

The voxels of a traced line lie between its endpoints, so a live line with endpoints in range can
always be traced. A double pass gives the way there and behind it the voxels that only the way back
has; as a set these are the voxels of both ways, in whichever order the endpoints stand.

## Main definitions

* `Line.trace_doublePass` — the voxels of a double pass.
* `Line.generate_eq_ok`, `Line.exists_generate` — tracing a line.
* `Line.generate_agrees` — the two directions of a segment, and what a double pass makes of them.
-/

namespace VoxelAlgebra

namespace Line

variable {l l' : Line} {u : Unit}

/-! ## Both directions -/

theorem trace_doublePass {start finish : Voxel} (hn : 0 < (finish - start).span) :
    trace start finish true = segment start finish ++
      (unevenSteps (finish - start)).filterMap ((segment finish start)[·]?) := by
  rw [trace, if_pos rfl, Voxel.distinct_append (nodup_segment start finish)
    (nodup_segment finish start), filter_segment_notMem hn]

theorem mem_trace {start finish v : Voxel} {doublePass : Bool} :
    v ∈ trace start finish doublePass ↔
      v ∈ segment start finish ∨ doublePass = true ∧ v ∈ segment finish start := by
  cases doublePass <;> simp [trace]

theorem nodup_trace (start finish : Voxel) (doublePass : Bool) :
    (trace start finish doublePass).Nodup := by
  cases doublePass
  · exact nodup_segment start finish
  · exact Voxel.nodup_distinct _

/-! ## Tracing -/

theorem generate_eq_ok : generate l = .ok u l' ↔ l.base.isDeleted = false ∧
    ∃ base, VoxelSet.setFill (trace l.start l.finish l.doublePass) l.base = .ok u base ∧
      l' = { l with base } := by
  simp only [generate, onBase, Edit.get_bind, Edit.bind_eq_ok, Edit.ofExcept_eq_ok,
    Edit.onPart_eq_ok, VoxelSet.checkAlive_eq_ok]
  constructor
  · rintro ⟨_, _, ⟨hlive, rfl⟩, base, hset, rfl⟩
    exact ⟨hlive, base, hset, rfl⟩
  · rintro ⟨hlive, base, hset, rfl⟩
    exact ⟨(), l, ⟨hlive, rfl⟩, base, hset, rfl⟩

theorem fill_of_generate (h : generate l = .ok u l') :
    l'.base.fill = trace l.start l.finish l.doublePass := by
  obtain ⟨-, base, hset, rfl⟩ := generate_eq_ok.1 h
  obtain ⟨-, d, -, rfl⟩ := VoxelSet.setFill_eq_ok.1 hset
  rfl

theorem inRange_segment {start finish t : Voxel} (hstart : (start + t).InRange)
    (hfinish : (finish + t).InRange) : ∀ v ∈ segment start finish, (v + t).InRange := by
  intro v hv
  have hmoved : v + t ∈ segment (start + t) (finish + t) := by
    rw [segment_add]
    exact List.mem_map_of_mem hv
  exact inRange_of_isBetween hstart hfinish (isBetween_of_mem_segment hmoved)

/-- A live line can be traced if its endpoints are in range. -/
theorem exists_generate (hlive : l.base.isDeleted = false)
    (hstart : (l.start + l.base.origin).InRange) (hfinish : (l.finish + l.base.origin).InRange) :
    ∃ l', generate l = .ok () l' := by
  have hrange : ∀ v ∈ trace l.start l.finish l.doublePass, (v + l.base.origin).InRange := by
    intro v hv
    rcases mem_trace.1 hv with hv | ⟨-, hv⟩
    · exact inRange_segment hstart hfinish v hv
    · exact inRange_segment hfinish hstart v hv
  obtain ⟨base, hset, -⟩ := VoxelSet.exists_setFill _ hlive hrange
  exact ⟨_, generate_eq_ok.2 ⟨hlive, base, hset, rfl⟩⟩

/-- The way back from `q` to `p` goes the share of each step rounded up where the way there goes it
rounded down, so that it is the same way only if every axis changes by nothing or by one at each
step. A line with a double pass can be traced if its endpoints are in range. It then has the way
there, behind it the voxels of the way back at the steps with a share that is not whole, and no
voxel twice; with its endpoints swapped it has the same voxels. -/
theorem generate_agrees {p q : Voxel} (hn : 1 ≤ (q - p).span) :
    (∀ i ≤ (q - p).span, (segment q p)[(q - p).span - i]? = some (.ofCoords fun a =>
      p.coord a + ((q - p).coord a).sign *
        ((i * ((q - p).coord a).natAbs ⌈/⌉ (q - p).span : Nat) : Int))) ∧
    ((segment q p).reverse = segment p q ↔
      ∀ a, ((q - p).coord a).natAbs = 0 ∨ ((q - p).coord a).natAbs = (q - p).span) ∧
    ∀ l : Line, l.start = p → l.finish = q → l.doublePass = true →
      (l.base.isDeleted = false → (p + l.base.origin).InRange → (q + l.base.origin).InRange →
        ∃ l', generate l = .ok () l') ∧
      ∀ l', generate l = .ok () l' →
        l'.base.fill = segment p q ++ (unevenSteps (q - p)).filterMap ((segment q p)[·]?) ∧
        l'.base.fill.Nodup ∧
        ∀ m m' : Line, m.start = q → m.finish = p → m.doublePass = true →
          generate m = .ok () m' → ∀ v, v ∈ m'.base.fill ↔ v ∈ l'.base.fill := by
  refine ⟨?_, reverse_segment_eq_iff hn, ?_⟩
  · intro i hi
    exact getElem?_segment_backward hn hi
  · rintro l rfl rfl hdouble
    refine ⟨exists_generate, fun l' hl' => ?_⟩
    have hfill := fill_of_generate hl'
    rw [hdouble] at hfill
    refine ⟨hfill.trans (trace_doublePass hn), hfill ▸ nodup_trace _ _ _, ?_⟩
    intro m m' hstart hfinish hm hm' v
    rw [fill_of_generate hm', hfill, hstart, hfinish, hm, mem_trace, mem_trace]
    simp [or_comm]

/-- A line of four steps along x and one along y: the way back differs at the three steps between
its endpoints. -/
theorem generate_agrees_slope :
    1 ≤ ((⟨4, 1, 0⟩ : Voxel) - ⟨0, 0, 0⟩).span ∧
    ∃ l', generate ⟨⟨"line", ⟨10, -5, 2⟩, [], .empty, false⟩, ⟨0, 0, 0⟩, ⟨4, 1, 0⟩, true⟩ =
        .ok () l' ∧
      l'.base.fill = [⟨0, 0, 0⟩, ⟨1, 0, 0⟩, ⟨2, 0, 0⟩, ⟨3, 0, 0⟩, ⟨4, 1, 0⟩,
        ⟨3, 1, 0⟩, ⟨2, 1, 0⟩, ⟨1, 1, 0⟩] := by
  have hn : 1 ≤ ((⟨4, 1, 0⟩ : Voxel) - ⟨0, 0, 0⟩).span := by decide
  obtain ⟨-, -, hlines⟩ := generate_agrees hn
  obtain ⟨hexists, hfill⟩ :=
    hlines ⟨⟨"line", ⟨10, -5, 2⟩, [], .empty, false⟩, ⟨0, 0, 0⟩, ⟨4, 1, 0⟩, true⟩ rfl rfl rfl
  obtain ⟨l', hl'⟩ := hexists rfl (by decide) (by decide)
  refine ⟨hn, l', hl', (hfill l' hl').1.trans ?_⟩
  decide

end Line

end VoxelAlgebra
