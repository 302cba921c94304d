import VoxelAlgebra.Proofs.Equation.Evaluation
import VoxelAlgebra.Proofs.Solid.Ownership

/-!
# Evaluating trees over voxel sets

During a pass the named sets are live and held by others, the sets of the cache are owned by the
pass, and every set is known by its identifier: two sets with one identifier are the same set. Every
kept result is the result of the operation that its key names. Each step of the evaluation keeps
this up, so a result that is found under a key is right whenever it was computed.

## Main definitions

* `VoxelSet.voxels`, `Bound.union`, `Bound.value?` — voxel sets as sets of voxels.
* `Datum.IsTree` — trees whose levels are complete and whose names are bound.
* `IsPass` — what holds between the steps of a pass.
* `Evaluation.yields_resolve` — evaluating a tree gives a set of its value.
-/

namespace VoxelAlgebra

open Equation (Operator)

def VoxelSet.voxels (s : VoxelSet) : Set Voxel := {v | v ∈ s.absoluteFill}

@[simp] theorem VoxelSet.mem_voxels {s : VoxelSet} {v : Voxel} :
    v ∈ s.voxels ↔ v ∈ s.absoluteFill := Iff.rfl

namespace Bound

def union (bound : Bound) : Set Voxel := {v | ∃ b ∈ bound, v ∈ b.2.voxels}

def value? (bound : Bound) (name : String) : Option (Set Voxel) :=
  (bound.lookup name).map VoxelSet.voxels

def sets (bound : Bound) : List VoxelSet := bound.map Prod.snd

theorem mem_sets_of_lookup {bound : Bound} {name : String} {s : VoxelSet}
    (h : bound.lookup name = some s) : s ∈ bound.sets := by
  obtain ⟨before, behind, rfl, -⟩ := List.lookup_eq_some_iff.1 h
  simp [sets]

end Bound

/-! ## Trees -/

/-- Trees whose levels have one or three items, an operator in the middle of three, and names that
satisfy `p` or constants at the leaves. -/
inductive Datum.IsTree (p : String → Prop) : Datum → Prop
  | leaf {s : String} : s = "Ω" ∨ s = "∅" ∨ p s → IsTree p (.text s)
  | lone {d : Datum} : IsTree p d → IsTree p (.list [d])
  | binary {l r : Datum} {sign : String} {op : Operator} :
    Operator.ofSign? sign.toList = some op → IsTree p l → IsTree p r →
    IsTree p (.list [l, .text sign, r])

theorem Datum.IsTree.mono {p q : String → Prop} (hpq : ∀ s, p s → q s) {d : Datum}
    (h : d.IsTree p) : d.IsTree q := by
  induction h with
  | leaf hs => exact .leaf (hs.imp_right (Or.imp_right (hpq _)))
  | lone _ ih => exact .lone ih
  | binary hsign _ _ ihl ihr => exact .binary hsign ihl ihr

/-! ## The state of a pass -/

/-- The set of an operation without duplicates has none if the operands have none. -/
structure IsResult (op : Operator) (left right result : VoxelSet) : Prop where
  voxels : result.voxels = op.onSets left.voxels right.voxels
  nodup : left.absoluteFill.Nodup → right.absoluteFill.Nodup → result.absoluteFill.Nodup

def Cache.known (c : Cache) (bound : Bound) : List VoxelSet := c.sets ++ bound.sets

/-- Live sets that others hold. One set may have several names, but it has one identifier. -/
structure Bound.IsHeld (held : Set String) (bound : Bound) : Prop where
  isSound : ∀ s ∈ bound.sets, s.IsSound
  held : ∀ s ∈ bound.sets, s.id ∈ held
  unique : ∀ s ∈ bound.sets, ∀ t ∈ bound.sets, s.id = t.id → s = t

/-- What holds between the steps of a pass over named sets. -/
structure IsPass (held : Set String) (bound : Bound) (i : Issuer) (c : Cache) : Prop where
  isHeld : bound.IsHeld held
  owns : i.Owns held c.sets
  universal : c.universal.voxels = bound.union
  null : c.null.voxels = ∅
  results : ∀ entry ∈ c.results, ∃ l ∈ c.known bound, ∃ r ∈ c.known bound,
    l.id = entry.1.left ∧ r.id = entry.1.right ∧ IsResult entry.1.op l r entry.2
  nodup : (∀ s ∈ bound.sets, s.absoluteFill.Nodup) → ∀ s ∈ c.sets, s.absoluteFill.Nodup

namespace IsPass

variable {held : Set String} {bound : Bound} {i : Issuer} {c : Cache} {left right : VoxelSet}
  {op : Operator}

theorem isSound (h : IsPass held bound i c) {s : VoxelSet} (hs : s ∈ c.known bound) : s.IsSound :=
  (List.mem_append.1 hs).elim (h.owns.isSound s) (h.isHeld.isSound s)

theorem unique (h : IsPass held bound i c) {s t : VoxelSet} (hs : s ∈ c.known bound)
    (ht : t ∈ c.known bound) (hid : s.id = t.id) : s = t := by
  obtain hs | hs := List.mem_append.1 hs <;> obtain ht | ht := List.mem_append.1 ht
  · exact h.owns.eq_of_id hs ht hid
  · exact absurd (hid ▸ h.isHeld.held t ht) (h.owns.notHeld s hs)
  · exact absurd (hid ▸ h.isHeld.held s hs) (h.owns.notHeld t ht)
  · exact h.isHeld.unique s hs t ht hid

theorem universal_mem (c : Cache) (bound : Bound) : c.universal ∈ c.known bound :=
  List.mem_append_left _ List.mem_cons_self

theorem null_mem (c : Cache) (bound : Bound) : c.null ∈ c.known bound :=
  List.mem_append_left _ (by simp [Cache.sets])

theorem nodup_of_known (h : IsPass held bound i c) (hbound : ∀ s ∈ bound.sets, s.absoluteFill.Nodup)
    {s : VoxelSet} (hs : s ∈ c.known bound) : s.absoluteFill.Nodup :=
  (List.mem_append.1 hs).elim (h.nodup hbound s) (hbound s)

theorem result_mem {key : OperationKey} {s : VoxelSet} (h : (key, s) ∈ c.results)
    (bound : Bound) : s ∈ c.known bound :=
  List.mem_append_left _ (List.mem_cons_of_mem _ (List.mem_cons_of_mem _
    (List.mem_map_of_mem (f := Prod.snd) h)))

/-- A result under the identifiers of two sets is that of the two sets. -/
theorem isResult_of_lookup (h : IsPass held bound i c) (hl : left ∈ c.known bound)
    (hr : right ∈ c.known bound) {s : VoxelSet}
    (hs : c.results.lookup ⟨left.id, op, right.id⟩ = some s) :
    s ∈ c.known bound ∧ IsResult op left right s := by
  have hmem : (⟨left.id, op, right.id⟩, s) ∈ c.results := by
    obtain ⟨before, behind, heq, -⟩ := List.lookup_eq_some_iff.1 hs
    simp [heq]
  obtain ⟨l, hl', r, hr', hlid, hrid, hresult⟩ := h.results _ hmem
  rw [h.unique hl' hl hlid, h.unique hr' hr hrid] at hresult
  exact ⟨result_mem hmem bound, hresult⟩

theorem onSets_comm {α : Type*} (hop : op.isCommutative) (A B : Set α) :
    op.onSets A B = op.onSets B A := by
  cases op with
  | union => exact Set.union_comm A B
  | inter => exact Set.inter_comm A B
  | diff | symmDiff | unknown => cases hop

/-- A found result is right, also under swapped operands. -/
theorem isResult_of_find? (h : IsPass held bound i c) (hl : left ∈ c.known bound)
    (hr : right ∈ c.known bound) {s : VoxelSet} (hs : c.find? left.id op right.id = some s) :
    s ∈ c.known bound ∧ IsResult op left right s := by
  unfold Cache.find? at hs
  split at hs
  · rename_i heq
    cases hs
    exact h.isResult_of_lookup hl hr heq
  · split_ifs at hs with hop
    obtain ⟨hmem, hvoxels, hnodup⟩ := h.isResult_of_lookup hr hl hs
    exact ⟨hmem, hvoxels.trans (onSets_comm hop _ _), fun hln hrn => hnodup hrn hln⟩

theorem mem_known_store {key : OperationKey} {s result : VoxelSet} (bound : Bound) :
    s ∈ { c with results := c.results ++ [(key, result)] }.known bound ↔
      s ∈ c.known bound ∨ s = result := by
  simp only [Cache.known, Cache.sets, List.map_append, List.map_cons, List.map_nil,
    List.mem_append, List.mem_cons, List.not_mem_nil, or_false]
  tauto

/-- A pass goes on with a fresh set for the result of an operation. -/
theorem store {key : OperationKey} {i' : Issuer} {result : VoxelSet} (h : IsPass held bound i c)
    (hl : left ∈ c.known bound) (hr : right ∈ c.known bound) (hleft : left.id = key.left)
    (hright : right.id = key.right) (howns : i'.Owns held (result :: c.sets))
    (hresult : IsResult key.op left right result) :
    IsPass held bound i' { c with results := c.results ++ [(key, result)] } := by
  have hsets : { c with results := c.results ++ [(key, result)] }.sets = c.sets ++ [result] := by
    simp [Cache.sets]
  have hknown : ∀ s, s ∈ { c with results := c.results ++ [(key, result)] }.known bound ↔
      s ∈ c.known bound ∨ s = result := fun s => mem_known_store bound
  refine ⟨h.isHeld, ?_, h.universal, h.null, ?_, ?_⟩
  · rw [hsets]
    exact howns.perm (List.perm_append_singleton result c.sets).symm
  · intro entry hentry
    obtain hentry | hentry := List.mem_append.1 hentry
    · obtain ⟨l, hl, r, hr, hrest⟩ := h.results entry hentry
      exact ⟨l, (hknown l).2 (.inl hl), r, (hknown r).2 (.inl hr), hrest⟩
    · obtain rfl := List.mem_singleton.1 hentry
      exact ⟨left, (hknown left).2 (.inl hl), right, (hknown right).2 (.inl hr), hleft, hright,
        hresult⟩
  · intro hbound s hs
    rw [hsets, List.mem_append, List.mem_singleton] at hs
    obtain hs | rfl := hs
    · exact h.nodup hbound s hs
    · exact hresult.nodup (h.nodup_of_known hbound hl) (h.nodup_of_known hbound hr)

end IsPass

/-! ## Operations -/

namespace Evaluation

variable {held : Set String} {bound : Bound} {i : Issuer} {c : Cache} {left right : VoxelSet}
  {op : Operator}

structure AreResult (op : Operator) (left right : VoxelSet) (voxels : List Voxel) : Prop where
  mem : ∀ v, v ∈ voxels ↔ v ∈ op.onSets left.voxels right.voxels
  nodup : left.absoluteFill.Nodup → right.absoluteFill.Nodup → voxels.Nodup

/-- The three parts of two sets give the voxels of every operation. -/
theorem exists_combineVoxels (hop : op.IsSetOperation) (hl : left.IsSound) (hr : right.IsSound) :
    ∃ voxels, combineVoxels left right op = .ok voxels ∧ AreResult op left right voxels := by
  have hleft : left.partition right (left.overlapRegion right) = _ :=
    VoxelSet.partition_eq hl hr fun v => VoxelSet.contains_overlapRegion hl hr
  have hright : right.partition left (left.overlapRegion right) = _ :=
    VoxelSet.partition_eq hr hl fun v hvr hvl => VoxelSet.contains_overlapRegion hl hr hvl hvr
  rw [combineVoxels]
  simp only [hleft, hright, except_ok_bind]
  cases op with
  | union =>
    refine ⟨_, rfl, fun v => ?_, fun hln hrn => ?_⟩
    · simp only [List.mem_append, List.mem_filter, decide_eq_true_eq, Operator.onSets,
        Set.mem_union, VoxelSet.mem_voxels]
      tauto
    · refine ((hln.filter _).append (hrn.filter _) fun v hv hv' => ?_).append (hln.filter _)
        fun v hv hv' => ?_
      · simp only [List.mem_filter, decide_eq_true_eq] at hv hv'
        exact hv.2 hv'.1
      · simp only [List.mem_append, List.mem_filter, decide_eq_true_eq] at hv hv'
        tauto
  | inter =>
    refine ⟨_, rfl, fun v => ?_, fun hln _ => hln.filter _⟩
    simp [Operator.onSets]
  | diff =>
    refine ⟨_, rfl, fun v => ?_, fun hln _ => hln.filter _⟩
    simp [Operator.onSets]
  | symmDiff =>
    refine ⟨_, rfl, fun v => ?_, fun hln hrn => ?_⟩
    · simp only [List.mem_append, List.mem_filter, decide_eq_true_eq, Operator.onSets,
        Set.mem_union, Set.mem_sdiff, VoxelSet.mem_voxels]
    · refine (hln.filter _).append (hrn.filter _) fun v hv hv' => ?_
      simp only [List.mem_filter, decide_eq_true_eq] at hv hv'
      exact hv.2 hv'.1
  | unknown => exact hop.elim

/-- A set with itself needs no search. -/
theorem exists_operate (hop : op.IsSetOperation) (hl : left.IsSound) (hr : right.IsSound)
    (hunique : left.id = right.id → left = right) :
    ∃ voxels, operate left op right = .ok voxels ∧ AreResult op left right voxels := by
  unfold operate
  split_ifs with hid hcomm
  · obtain rfl := hunique hid
    refine ⟨_, VoxelSet.absolute_eq_ok.2 ⟨hl.isLive, rfl⟩, fun v => ?_, fun h _ => h⟩
    cases op with
    | union | inter => simp [Operator.onSets]
    | diff | symmDiff | unknown => cases hcomm
  · obtain rfl := hunique hid
    refine ⟨[], rfl, fun v => ?_, fun _ _ => .nil⟩
    cases op with
    | union | inter => exact absurd rfl hcomm
    | diff | symmDiff => simp [Operator.onSets]
    | unknown => exact hop.elim
  · exact exists_combineVoxels hop hl hr

/-- What a step of the evaluation ends with: a set at hand in a pass that goes on, with all sets
that were at hand before. -/
structure Ends (held : Set String) (bound : Bound) (c : Cache) (A : Set Voxel) (s : VoxelSet)
    (i' : Issuer) (c' : Cache) : Prop where
  isPass : IsPass held bound i' c'
  grows : ∀ t ∈ c.known bound, t ∈ c'.known bound
  mem : s ∈ c'.known bound
  voxels : s.voxels = A

/-- The voxels of an operation are in range if those of the operands are. -/
theorem AreResult.inRange {voxels : List Voxel} (h : AreResult op left right voxels)
    (hl : left.IsSound) (hr : right.IsSound) : ∀ v ∈ voxels, v.InRange := by
  intro v hv
  have hmem : v ∈ left.voxels ∪ right.voxels :=
    op.onSets_subset Set.subset_union_left Set.subset_union_right ((h.mem v).1 hv)
  exact hmem.elim (hl.inRange v) (hr.inRange v)

/-- Keeping a result makes a fresh set of its voxels. -/
theorem exists_store (key : OperationKey) {voxels : List Voxel} (h : IsPass held bound i c)
    (hl : left ∈ c.known bound) (hr : right ∈ c.known bound)
    (hleft : left.id = key.left) (hright : right.id = key.right)
    (hresult : AreResult key.op left right voxels) :
    ∃ s i' c', store key voxels (i, c) = .ok s (i', c') ∧
      Ends held bound c (key.op.onSets left.voxels right.voxels) s i' c' := by
  have hrange := hresult.inRange (h.isSound hl) (h.isSound hr)
  obtain ⟨s, i', hcreate, horigin, hfill, -, howns⟩ := h.owns.exists_create .zero
    fun v hv => (Voxel.add_zero v).symm ▸ hrange v hv
  have habsolute : s.absoluteFill = voxels := (VoxelSet.absoluteFill_of_zero horigin).trans hfill
  have hvoxels : s.voxels = key.op.onSets left.voxels right.voxels :=
    Set.ext fun v => by rw [VoxelSet.mem_voxels, habsolute, hresult.mem v]
  have hstore : store key voxels (i, c) =
      .ok s (i', { c with results := c.results ++ [(key, s)] }) := by
    simp only [store, Edit.bind_eq_ok, Edit.onFirst_eq_ok, Edit.onSecond_eq_ok, Edit.modify_eq_ok,
      Edit.pure_eq_ok]
    exact ⟨s, (i', c), ⟨hcreate, rfl⟩, (), (i', { c with results := _ }), ⟨rfl, rfl⟩, rfl, rfl⟩
  have hmem : ∀ t, t ∈ c.known bound ∨ t = s → t ∈ ({ c with results :=
      c.results ++ [(key, s)] } : Cache).known bound := fun t => (IsPass.mem_known_store bound).2
  refine ⟨s, i', _, hstore, ?_, fun t ht => hmem t (.inl ht), hmem s (.inr rfl), hvoxels⟩
  exact h.store hl hr hleft hright howns ⟨hvoxels, habsolute ▸ hresult.nodup⟩

/-- Applying an operation gives a set of its value. -/
theorem exists_apply (h : IsPass held bound i c) (hop : op.IsSetOperation)
    (hl : left ∈ c.known bound) (hr : right ∈ c.known bound) :
    ∃ s i' c', apply left op right (i, c) = .ok s (i', c') ∧
      Ends held bound c (op.onSets left.voxels right.voxels) s i' c' := by
  simp only [apply, Edit.bind_eq_ok, Edit.get_eq_ok]
  cases hfind : c.find? left.id op right.id with
  | some s =>
    obtain ⟨hmem, hresult⟩ := h.isResult_of_find? hl hr hfind
    exact ⟨s, i, c, ⟨_, _, ⟨rfl, rfl⟩, by simp [hfind]⟩, h, fun _ ht => ht, hmem, hresult.voxels⟩
  | none =>
    obtain ⟨voxels, hvoxels, hresult⟩ := exists_operate hop (h.isSound hl)
      (h.isSound hr) (h.unique hl hr)
    obtain ⟨s, i', c', hstore, hrest⟩ := exists_store ⟨left.id, op, right.id⟩ h hl hr rfl rfl
      hresult
    refine ⟨s, i', c', ⟨_, _, ⟨rfl, rfl⟩, ?_⟩, hrest⟩
    simp only [hfind, Edit.bind_eq_ok, Edit.ofExcept_eq_ok]
    exact ⟨voxels, _, ⟨hvoxels, rfl⟩, hstore⟩

/-! ## Trees in a pass -/

/-- In every pass, the edit gives a set of `A` and the pass goes on. -/
def Yields (held : Set String) (bound : Bound) (edit : Edit (Issuer × Cache) VoxelSet)
    (A : Set Voxel) : Prop :=
  ∀ i c, IsPass held bound i c →
    ∃ s i' c', edit (i, c) = .ok s (i', c') ∧ Ends held bound c A s i' c'

theorem toList_eq_singleton {s : String} {x : Char} :
    s.toList = [x] ↔ s = String.singleton x := by
  rw [← String.toList_inj, String.toList_singleton]

/-- A name or constant gives its set. -/
theorem yields_lookUp {s : String} (h : s = "Ω" ∨ s = "∅" ∨ (bound.lookup s).isSome) :
    ∃ A, (Datum.text s).Evaluates bound.union bound.value? A ∧
      Yields held bound (lookUp bound (.text s)) A := by
  have hu : s.toList = [Equation.Symbol.universal] ↔ s = "Ω" := toList_eq_singleton
  have hn : s.toList = [Equation.Symbol.null] ↔ s = "∅" := toList_eq_singleton
  by_cases hsu : s = "Ω"
  · refine ⟨_, hsu ▸ .universal, fun i c hc => ⟨c.universal, i, c, ?_, hc, fun _ ht => ht,
      IsPass.universal_mem c bound, hc.universal⟩⟩
    simp only [lookUp, Edit.get_bind, if_pos (hu.2 hsu), Edit.pure_eq_ok, and_self]
  by_cases hsn : s = "∅"
  · refine ⟨_, hsn ▸ .null, fun i c hc => ⟨c.null, i, c, ?_, hc, fun _ ht => ht,
      IsPass.null_mem c bound, hc.null⟩⟩
    simp only [lookUp, Edit.get_bind, if_neg (hsu ∘ hu.1), if_pos (hn.2 hsn), Edit.pure_eq_ok,
      and_self]
  · obtain ⟨t, ht⟩ := Option.isSome_iff_exists.1 ((h.resolve_left hsu).resolve_left hsn)
    have hvalue : bound.value? s = some t.voxels := by rw [Bound.value?, ht, Option.map_some]
    refine ⟨_, .name hsu hsn hvalue, fun i c hc => ⟨t, i, c, ?_, hc, fun _ ht => ht,
      List.mem_append_right _ (Bound.mem_sets_of_lookup ht), rfl⟩⟩
    simp only [lookUp, Edit.get_bind, if_neg (hsu ∘ hu.1), if_neg (hsn ∘ hn.1), ht,
      Edit.pure_eq_ok, and_self]

/-- Two operands and an operator between them give the set of the operation. -/
theorem Yields.binary {l r : Datum} {sign : String} {A B : Set Voxel} (level : Datum)
    (hsign : Operator.ofSign? sign.toList = some op) (hop : op.IsSetOperation)
    (hl : Yields held bound (resolve bound l) A) (hr : Yields held bound (resolve bound r) B) :
    Yields held bound (solve bound level [l, .text sign, r]) (op.onSets A B) := by
  intro i c hc
  obtain ⟨left, i₁, c₁, hleft, hends₁⟩ := hl i c hc
  obtain ⟨right, i₂, c₂, hright, hends₂⟩ := hr i₁ c₁ hends₁.isPass
  obtain ⟨s, i₃, c₃, happly, hends₃⟩ :=
    exists_apply hends₂.isPass hop (hends₂.grows left hends₁.mem) hends₂.mem
  have hoperation : operation (.text sign) = .ok op := by simp [operation, hsign, pure, Except.pure]
  refine ⟨s, i₃, c₃, ?_, hends₃.isPass, fun t ht => ?_, hends₃.mem, ?_⟩
  · simp only [solve, Edit.bind_eq_ok, Edit.ofExcept_eq_ok]
    exact ⟨left, _, hleft, op, _, ⟨hoperation, rfl⟩, right, _, hright, happly⟩
  · exact hends₃.grows t (hends₂.grows t (hends₁.grows t ht))
  · rw [hends₃.voxels, hends₁.voxels, hends₂.voxels]

theorem resolve_text (bound : Bound) (name : String) :
    resolve bound (.text name) = lookUp bound (.text name) := by
  simp only [resolve]

/-- Every tree whose names are bound gives a set of its value. -/
theorem yields_resolve {d : Datum} (h : d.IsTree fun s => (bound.lookup s).isSome) :
    ∃ A, d.Evaluates bound.union bound.value? A ∧ Yields held bound (resolve bound d) A := by
  induction h with
  | leaf hs =>
    rw [resolve_text]
    exact yields_lookUp hs
  | lone _ ih =>
    obtain ⟨A, hA, hyields⟩ := ih
    exact ⟨A, .lone hA, by rwa [resolve, solve]⟩
  | binary hsign _ _ ihl ihr =>
    obtain ⟨A, hA, hl⟩ := ihl
    obtain ⟨B, hB, hr⟩ := ihr
    have hop := (Operator.sign_of_ofSign? hsign).2
    refine ⟨_, .binary hsign hA hB, ?_⟩
    rw [resolve]
    exact .binary _ hsign hop hl hr

end Evaluation

end VoxelAlgebra
