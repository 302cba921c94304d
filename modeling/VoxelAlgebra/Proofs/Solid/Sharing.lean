import VoxelAlgebra.Proofs.Expression
import VoxelAlgebra.Proofs.Solid.Evaluation

/-!
# Shared results

A pass computes every operation once. Its results are kept under the identifiers of the operands,
and a fresh set has an identifier that no set at hand has, so two operands have one identifier
exactly if they say the same. The look-up of a commutative operation tries both orders, therefore no
two kept results are those of the same operation.

## Main definitions

* `OperationKey.Agrees`, `Cache.IsOnce.find?_eq_some_iff` — the keys under which a result is
  found.
* `Bound.Carries` — named sets from which their objects can be told.
* `Cache.Finds` — the set that a cache has for an expression.
* `Memoizes` — what holds between the steps of a pass.
* `Evaluation.Meets` — the sets that a pass comes by at the parts of a tree.
* `Evaluation.Shares`, `Evaluation.shares_of_resolve` — a pass has one result for each class of same
  operations.
-/

namespace VoxelAlgebra

open Equation (Operator)

/-! ## Keys -/

namespace OperationKey

variable {a b c : OperationKey}

/-- Keys of one operation. The operands of a commutative one may be swapped. -/
def Agrees (a b : OperationKey) : Prop :=
  a = b ∨ b.op.isCommutative ∧ a = ⟨b.right, b.op, b.left⟩

theorem Agrees.symm (h : a.Agrees b) : b.Agrees a := by
  obtain rfl | ⟨hop, rfl⟩ := h
  · exact .inl rfl
  · exact .inr ⟨hop, rfl⟩

theorem Agrees.trans (h : a.Agrees b) (h' : b.Agrees c) : a.Agrees c := by
  obtain rfl | ⟨hop, rfl⟩ := h
  · exact h'
  · obtain rfl | ⟨-, rfl⟩ := h'
    · exact .inr ⟨hop, rfl⟩
    · exact .inl rfl

end OperationKey

namespace Cache

variable {c c' : Cache} {s t : VoxelSet} {key key' : OperationKey} {left right : String}
  {op : Operator}

def IsOnce (c : Cache) : Prop := c.results.Pairwise fun a b => ¬a.1.Agrees b.1

theorem IsOnce.eq_of_agrees (h : c.IsOnce) (hs : (key, s) ∈ c.results) (ht : (key', t) ∈ c.results)
    (hkey : key.Agrees key') : s = t := by
  by_contra hne
  have hsymm : Std.Symm fun a b : OperationKey × VoxelSet => ¬a.1.Agrees b.1 :=
    ⟨fun _ _ hab hba => hab hba.symm⟩
  exact List.Pairwise.forall h hs ht (fun heq => hne (congrArg Prod.snd heq)) hkey

theorem IsOnce.lookup_eq_some_iff (h : c.IsOnce) :
    c.results.lookup key = some s ↔ (key, s) ∈ c.results := by
  constructor
  · intro hs
    obtain ⟨before, behind, heq, -⟩ := List.lookup_eq_some_iff.1 hs
    simp [heq]
  · intro hs
    cases hlookup : c.results.lookup key with
    | none => simpa using List.lookup_eq_none_iff.1 hlookup _ hs
    | some t =>
      obtain ⟨before, behind, heq, -⟩ := List.lookup_eq_some_iff.1 hlookup
      have ht : (key, t) ∈ c.results := by simp [heq]
      rw [h.eq_of_agrees hs ht (.inl rfl)]

/-- A result is found under every key of its operation. -/
theorem IsOnce.find?_eq_some_iff (h : c.IsOnce) : c.find? left op right = some s ↔
    ∃ key, (key, s) ∈ c.results ∧ key.Agrees ⟨left, op, right⟩ := by
  constructor
  · intro hs
    unfold find? at hs
    split at hs
    · cases hs
      exact ⟨_, h.lookup_eq_some_iff.1 ‹_›, .inl rfl⟩
    · split_ifs at hs with hop
      exact ⟨_, h.lookup_eq_some_iff.1 hs, .inr ⟨hop, rfl⟩⟩
  · rintro ⟨key, hs, hkey⟩
    unfold find?
    split
    · rename_i t ht
      rw [h.eq_of_agrees hs (h.lookup_eq_some_iff.1 ht) hkey]
    · rename_i hnone
      obtain rfl | ⟨hop, rfl⟩ := hkey
      · rw [h.lookup_eq_some_iff.2 hs] at hnone
        cases hnone
      · rw [if_pos hop, h.lookup_eq_some_iff.2 hs]

structure Continues (c c' : Cache) : Prop where
  universal : c'.universal = c.universal
  null : c'.null = c.null
  results : c.results ⊆ c'.results

theorem Continues.refl (c : Cache) : c.Continues c := ⟨rfl, rfl, fun _ h => h⟩

theorem Continues.trans {c'' : Cache} (h : c.Continues c') (h' : c'.Continues c'') :
    c.Continues c'' :=
  ⟨h'.universal.trans h.universal, h'.null.trans h.null, fun _ hs => h'.results (h.results hs)⟩

theorem continues_store (c : Cache) (key : OperationKey) (s : VoxelSet) :
    c.Continues { c with results := c.results ++ [(key, s)] } :=
  ⟨rfl, rfl, List.subset_append_left _ _⟩

end Cache

/-! ## Objects and their sets -/

section

variable {κ : Type} {ν : String → Option κ} {bound : Bound} {i i' : Issuer} {c c' : Cache}
  {s t : VoxelSet} {a b : Expression κ} {d e : Datum}

/-- Names that stand for objects are bound to the sets of these: one set for every object, and
different identifiers for different objects. -/
structure Bound.Carries (ν : String → Option κ) (bound : Bound) : Prop where
  unique : ∀ {m n k s t}, ν m = some k → ν n = some k → bound.lookup m = some s →
    bound.lookup n = some t → s = t
  injective : ∀ {m n k l s t}, ν m = some k → ν n = some l → bound.lookup m = some s →
    bound.lookup n = some t → s.id = t.id → k = l

/-- The set that a cache has for an expression. -/
def Cache.Finds (ν : String → Option κ) (bound : Bound) (c : Cache) :
    Expression κ → VoxelSet → Prop
  | .universal, s => c.universal = s
  | .null, s => c.null = s
  | .object k, s => ∃ name, ν name = some k ∧ bound.lookup name = some s
  | .operation a op b, s =>
    ∃ l r, c.Finds ν bound a l ∧ c.Finds ν bound b r ∧ c.find? l.id op r.id = some s

/-- What holds between the steps of a pass: all sets at hand have identifiers in use, those of the
cache are different from all others, and no operation was computed twice. -/
structure Memoizes (ν : String → Option κ) (bound : Bound) (i : Issuer) (c : Cache) : Prop where
  carries : bound.Carries ν
  inUse : ∀ s ∈ c.known bound, s.id ∈ i.inUse
  nodup : (c.sets.map VoxelSet.id).Nodup
  apart : ∀ s ∈ c.sets, ∀ t ∈ bound.sets, s.id ≠ t.id
  once : c.IsOnce

namespace Memoizes

variable {key key' : OperationKey}

/-- Where a pass goes on, what was found is found still. -/
theorem finds_mono (h' : Memoizes ν bound i' c') (h : Memoizes ν bound i c)
    (hcontinues : c.Continues c') (hs : c.Finds ν bound a s) : c'.Finds ν bound a s := by
  induction a generalizing s with
  | universal => exact hcontinues.universal.trans hs
  | null => exact hcontinues.null.trans hs
  | object => exact hs
  | operation a op b iha ihb =>
    obtain ⟨l, r, hl, hr, hs⟩ := hs
    obtain ⟨key, hmem, hkey⟩ := h.once.find?_eq_some_iff.1 hs
    exact ⟨l, r, iha hl, ihb hr, h'.once.find?_eq_some_iff.2 ⟨key, hcontinues.results hmem, hkey⟩⟩

/-- Expressions that say the same have the same set. -/
theorem eq_of_same (h : Memoizes ν bound i c) (hab : a.Same b) (hs : c.Finds ν bound a s)
    (ht : c.Finds ν bound b t) : s = t := by
  induction hab generalizing s t with
  | universal | null => exact hs.symm.trans ht
  | object k =>
    obtain ⟨m, hm, hs⟩ := hs
    obtain ⟨n, hn, ht⟩ := ht
    exact h.carries.unique hm hn hs ht
  | operation _ _ ihl ihr =>
    obtain ⟨l, r, hl, hr, hs⟩ := hs
    obtain ⟨l', r', hl', hr', ht⟩ := ht
    obtain rfl := ihl hl hl'
    obtain rfl := ihr hr hr'
    exact Option.some.inj (hs.symm.trans ht)
  | swapped hop _ _ ihl ihr =>
    obtain ⟨l, r, hl, hr, hs⟩ := hs
    obtain ⟨l', r', hl', hr', ht⟩ := ht
    obtain rfl := ihl hl hr'
    obtain rfl := ihr hr hl'
    obtain ⟨key, hmem, hkey⟩ := h.once.find?_eq_some_iff.1 hs
    obtain ⟨key', hmem', hkey'⟩ := h.once.find?_eq_some_iff.1 ht
    exact h.once.eq_of_agrees hmem hmem' (hkey.trans (.trans (.inr ⟨hop, rfl⟩) hkey'.symm))

theorem mem_sets_of_result (hs : (key, s) ∈ c.results) : s ∈ c.sets :=
  List.mem_cons_of_mem _ (List.mem_cons_of_mem _ (List.mem_map_of_mem (f := Prod.snd) hs))

/-- Results have different identifiers. -/
theorem nodup_results (h : Memoizes ν bound i c) :
    (c.results.map fun entry => entry.2.id).Nodup := by
  have hsub : (c.results.map fun entry => entry.2.id).Sublist (c.sets.map VoxelSet.id) := by
    simp [Cache.sets, Function.comp_def]
  exact h.nodup.sublist hsub

theorem universal_ne_null (h : Memoizes ν bound i c) : c.universal.id ≠ c.null.id := by
  have hnodup := h.nodup
  simp only [Cache.sets, List.map_cons, List.nodup_cons, List.mem_cons, not_or] at hnodup
  exact hnodup.1.1

/-- No result is one of the constants. -/
theorem result_ne (h : Memoizes ν bound i c) (hs : (key, s) ∈ c.results) :
    c.universal.id ≠ s.id ∧ c.null.id ≠ s.id := by
  have hmem : s.id ∈ (c.results.map Prod.snd).map VoxelSet.id :=
    List.mem_map_of_mem (List.mem_map_of_mem (f := Prod.snd) hs)
  have hnodup := h.nodup
  simp only [Cache.sets, List.map_cons, List.nodup_cons, List.mem_cons, not_or] at hnodup
  exact ⟨fun hid => hnodup.1.2 (hid ▸ hmem), fun hid => hnodup.2.1 (hid ▸ hmem)⟩

/-- No set of the cache is that of an object. -/
theorem object_ne {k : κ} (h : Memoizes ν bound i c) (hs : c.Finds ν bound (.object k) s)
    (ht : t ∈ c.sets) : t.id ≠ s.id := by
  obtain ⟨name, -, hs⟩ := hs
  exact h.apart t ht s (Bound.mem_sets_of_lookup hs)

theorem exists_result {op : Operator} (h : Memoizes ν bound i c)
    (hs : c.Finds ν bound (.operation a op b) s) : ∃ key, (key, s) ∈ c.results := by
  obtain ⟨l, r, -, -, hs⟩ := hs
  obtain ⟨key, hmem, -⟩ := h.once.find?_eq_some_iff.1 hs
  exact ⟨key, hmem⟩

/-- Expressions with one identifier say the same. -/
theorem same_of_id (h : Memoizes ν bound i c) (hs : c.Finds ν bound a s)
    (ht : c.Finds ν bound b t) (hid : s.id = t.id) : a.Same b := by
  have huniversal : c.universal ∈ c.sets := List.mem_cons_self
  have hnull : c.null ∈ c.sets := List.mem_cons_of_mem _ List.mem_cons_self
  induction a generalizing b s t with
  | universal =>
    obtain rfl := hs
    cases b with
    | universal => exact .universal
    | null => exact absurd (hid.trans (congrArg VoxelSet.id ht.symm)) h.universal_ne_null
    | object => exact absurd hid (h.object_ne ht huniversal)
    | operation =>
      obtain ⟨key, hmem⟩ := h.exists_result ht
      exact absurd hid (h.result_ne hmem).1
  | null =>
    obtain rfl := hs
    cases b with
    | universal => exact absurd ((congrArg VoxelSet.id ht).trans hid.symm) h.universal_ne_null
    | null => exact .null
    | object => exact absurd hid (h.object_ne ht hnull)
    | operation =>
      obtain ⟨key, hmem⟩ := h.exists_result ht
      exact absurd hid (h.result_ne hmem).2
  | object k =>
    cases b with
    | universal =>
      exact absurd ((congrArg VoxelSet.id ht).trans hid.symm) (h.object_ne hs huniversal)
    | null => exact absurd ((congrArg VoxelSet.id ht).trans hid.symm) (h.object_ne hs hnull)
    | object l =>
      obtain ⟨m, hm, hs⟩ := hs
      obtain ⟨n, hn, ht⟩ := ht
      exact h.carries.injective hm hn hs ht hid ▸ .object k
    | operation =>
      obtain ⟨key, hmem⟩ := h.exists_result ht
      exact absurd hid.symm (h.object_ne hs (mem_sets_of_result hmem))
  | operation a op a' iha iha' =>
    obtain ⟨key, hmem⟩ := h.exists_result hs
    cases b with
    | universal => exact absurd ((congrArg VoxelSet.id ht).trans hid.symm) (h.result_ne hmem).1
    | null => exact absurd ((congrArg VoxelSet.id ht).trans hid.symm) (h.result_ne hmem).2
    | object => exact absurd hid (h.object_ne ht (mem_sets_of_result hmem))
    | operation b op' b' =>
      obtain ⟨l, r, hl, hr, hs⟩ := hs
      obtain ⟨l', r', hl', hr', ht⟩ := ht
      obtain ⟨key, hmem, hkey⟩ := h.once.find?_eq_some_iff.1 hs
      obtain ⟨key', hmem', hkey'⟩ := h.once.find?_eq_some_iff.1 ht
      cases List.inj_on_of_nodup_map h.nodup_results hmem hmem' hid
      obtain heq | ⟨hop, heq⟩ := hkey.symm.trans hkey'
      · obtain ⟨hl'', rfl, hr''⟩ := OperationKey.mk.inj heq
        exact .operation (iha hl hl' hl'') (iha' hr hr' hr'')
      · obtain ⟨hl'', rfl, hr''⟩ := OperationKey.mk.inj heq
        exact .swapped hop (iha hl hr' hl'') (iha' hr hl' hr'')

/-- A pass goes on with a fresh set under a key that no result has. -/
theorem store (key : OperationKey) (h : Memoizes ν bound i c) (hissues : i.Issues s.id i')
    (hnone : c.find? key.left key.op key.right = none) :
    Memoizes ν bound i' { c with results := c.results ++ [(key, s)] } := by
  have hfresh : ∀ t ∈ c.known bound, t.id ≠ s.id := fun t ht hid =>
    hissues.fresh (hid ▸ h.inUse t ht)
  have hsets : { c with results := c.results ++ [(key, s)] }.sets = c.sets ++ [s] := by
    simp [Cache.sets]
  refine ⟨h.carries, fun t ht => ?_, ?_, ?_, ?_⟩
  · rw [hissues.inUse, List.mem_append, List.mem_singleton]
    exact ((IsPass.mem_known_store bound).1 ht).imp (h.inUse t) (congrArg VoxelSet.id)
  · rw [hsets, List.map_append, List.nodup_append]
    refine ⟨h.nodup, by simp, ?_⟩
    simpa using fun t ht => hfresh t (List.mem_append_left _ ht)
  · rw [hsets, List.forall_mem_append, List.forall_mem_singleton]
    exact ⟨h.apart, fun t ht => (hfresh t (List.mem_append_right _ ht)).symm⟩
  · refine List.pairwise_append.2 ⟨h.once, List.pairwise_singleton _ _, ?_⟩
    rintro ⟨key', t⟩ ht _ hnew hkey
    obtain rfl := List.mem_singleton.1 hnew
    rw [h.once.find?_eq_some_iff.2 ⟨key', ht, hkey⟩] at hnone
    cases hnone

end Memoizes

/-! ## Trees -/

theorem Datum.IsTree.exists_reads (h : d.IsTree fun s => (ν s).isSome) : ∃ a, d.Reads ν a := by
  induction h with
  | @leaf s hs =>
    by_cases hu : s = "Ω"
    · exact ⟨.universal, hu ▸ .universal⟩
    by_cases hn : s = "∅"
    · exact ⟨.null, hn ▸ .null⟩
    obtain ⟨k, hk⟩ := Option.isSome_iff_exists.1 ((hs.resolve_left hu).resolve_left hn)
    exact ⟨_, .name hu hn hk⟩
  | lone _ ih =>
    obtain ⟨a, ha⟩ := ih
    exact ⟨a, .lone ha⟩
  | binary hsign _ _ ihl ihr =>
    obtain ⟨a, ha⟩ := ihl
    obtain ⟨b, hb⟩ := ihr
    exact ⟨_, .binary hsign ha hb⟩

namespace Evaluation

variable {p p' : Issuer × Cache}

/-- What a pass ends with that has evaluated an expression: it has a set for it, and every new
result is that of one of its operations. -/
structure Resolves (ν : String → Option κ) (bound : Bound) (c : Cache) (a : Expression κ)
    (s : VoxelSet) (i' : Issuer) (c' : Cache) : Prop where
  memoizes : Memoizes ν bound i' c'
  continues : c.Continues c'
  finds : c'.Finds ν bound a s
  covered : ∀ entry ∈ c'.results, entry ∈ c.results ∨
    ∃ b ∈ a.operations, c'.Finds ν bound b entry.2

theorem lookUp_eq_ok {name : String} : lookUp bound (.text name) p = .ok s p' ↔ p = p' ∧
    (if name = "Ω" then p.2.universal = s else if name = "∅" then p.2.null = s
      else bound.lookup name = some s) := by
  have hu : name.toList = [Equation.Symbol.universal] ↔ name = "Ω" := toList_eq_singleton
  have hn : name.toList = [Equation.Symbol.null] ↔ name = "∅" := toList_eq_singleton
  simp only [lookUp, Edit.get_bind, hu, hn]
  split_ifs
  · simp [and_comm]
  · simp [and_comm]
  · cases bound.lookup name <;> simp [and_comm]

theorem resolve_binary_eq_ok {l r : Datum} {sign : String} {op : Operator}
    (hsign : Operator.ofSign? sign.toList = some op) :
    resolve bound (.list [l, .text sign, r]) p = .ok s p' ↔ ∃ left p₁ right p₂,
      resolve bound l p = .ok left p₁ ∧ resolve bound r p₁ = .ok right p₂ ∧
      apply left op right p₂ = .ok s p' := by
  simp only [resolve, solve, Edit.bind_eq_ok, Edit.ofExcept_eq_ok, operation, hsign]
  constructor
  · rintro ⟨left, p₁, hl, _, _, ⟨hop, rfl⟩, right, p₂, hr, happly⟩
    cases hop
    exact ⟨left, p₁, right, p₂, hl, hr, happly⟩
  · rintro ⟨left, p₁, right, p₂, hl, hr, happly⟩
    exact ⟨left, p₁, hl, op, p₁, ⟨rfl, rfl⟩, right, p₂, hr, happly⟩

/-- A result is found in the cache or added to it. -/
theorem apply_eq_ok {left right : VoxelSet} {op : Operator}
    (h : apply left op right p = .ok s p') :
    p'.1 = p.1 ∧ p'.2 = p.2 ∧ p.2.find? left.id op right.id = some s ∨
      p.2.find? left.id op right.id = none ∧ p.1.Issues s.id p'.1 ∧
        p'.2 = { p.2 with results := p.2.results ++ [(⟨left.id, op, right.id⟩, s)] } := by
  simp only [apply, Edit.get_bind] at h
  cases hfind : p.2.find? left.id op right.id with
  | some t =>
    simp only [hfind, Edit.pure_eq_ok] at h
    obtain ⟨rfl, rfl⟩ := h
    exact .inl ⟨rfl, rfl, rfl⟩
  | none =>
    simp only [hfind, store, Edit.bind_eq_ok, Edit.ofExcept_eq_ok, Edit.onFirst_eq_ok,
      Edit.onSecond_eq_ok, Edit.modify_eq_ok, Edit.pure_eq_ok] at h
    obtain ⟨voxels, _, ⟨-, rfl⟩, t, ⟨_, _⟩, ⟨hcreate, rfl⟩, _, ⟨_, _⟩, ⟨rfl, rfl⟩, rfl, rfl⟩ := h
    exact .inr ⟨rfl, (VoxelSet.create_eq_ok hcreate).1, rfl⟩

theorem continues_of_apply {left right : VoxelSet} {op : Operator}
    (hrun : apply left op right p = .ok s p') : p.2.Continues p'.2 := by
  obtain ⟨-, hend, -⟩ | ⟨-, -, hend⟩ := apply_eq_ok hrun
  · exact hend ▸ .refl _
  · exact hend ▸ Cache.continues_store _ _ _

/-- A pass that evaluates an operation has one result for it, computed now or before. -/
theorem memoizes_of_apply {a b : Expression κ} {left right : VoxelSet} {op : Operator}
    (h : Memoizes ν bound i c) (hl : c.Finds ν bound a left) (hr : c.Finds ν bound b right)
    (hrun : apply left op right (i, c) = .ok s (i', c')) :
    Memoizes ν bound i' c' ∧ c'.Finds ν bound (.operation a op b) s ∧
      ∀ entry ∈ c'.results, entry ∈ c.results ∨ entry.2 = s := by
  have hcontinues := continues_of_apply hrun
  obtain ⟨rfl, rfl, hfind⟩ | ⟨hnone, hissues, rfl⟩ := apply_eq_ok hrun
  · exact ⟨h, ⟨left, right, hl, hr, hfind⟩, fun _ => .inl⟩
  · have hstore := h.store ⟨left.id, op, right.id⟩ hissues hnone
    refine ⟨hstore, ⟨left, right, hstore.finds_mono h hcontinues hl,
      hstore.finds_mono h hcontinues hr, ?_⟩, fun entry hentry => ?_⟩
    · exact hstore.once.find?_eq_some_iff.2
        ⟨_, List.mem_append_right _ List.mem_cons_self, .inl rfl⟩
    · exact (List.mem_append.1 hentry).imp_right fun hnew =>
        congrArg Prod.snd (List.mem_singleton.1 hnew)

/-- Evaluating a tree gives the set of its expression. -/
theorem resolves_of_resolve (hd : d.Reads ν a) (h : Memoizes ν bound i c)
    (hrun : resolve bound d (i, c) = .ok s (i', c')) : Resolves ν bound c a s i' c' := by
  induction hd generalizing i c s i' c' with
  | universal | null =>
    rw [resolve_text, lookUp_eq_ok] at hrun
    obtain ⟨hend, hs⟩ := hrun
    cases hend
    exact ⟨h, .refl c, hs, fun _ => .inl⟩
  | name hu hn hk =>
    rw [resolve_text, lookUp_eq_ok, if_neg hu, if_neg hn] at hrun
    obtain ⟨hend, hs⟩ := hrun
    cases hend
    exact ⟨h, .refl c, ⟨_, hk, hs⟩, fun _ => .inl⟩
  | lone _ ih =>
    rw [resolve, solve] at hrun
    exact ih h hrun
  | binary hsign _ _ ihl ihr =>
    obtain ⟨left, ⟨i₁, c₁⟩, right, ⟨i₂, c₂⟩, hl, hr, happly⟩ := (resolve_binary_eq_ok hsign).1 hrun
    have h₁ := ihl h hl
    have h₂ := ihr h₁.memoizes hr
    have hleft := h₂.memoizes.finds_mono h₁.memoizes h₂.continues h₁.finds
    have hcontinues := continues_of_apply happly
    obtain ⟨h₃, hs, hcovered⟩ := memoizes_of_apply h₂.memoizes hleft h₂.finds happly
    refine ⟨h₃, (h₁.continues.trans h₂.continues).trans hcontinues, hs, fun entry hentry => ?_⟩
    -- an entry is that of this operation, of one on the right, of one on the left, or an old one
    obtain hentry | hnew := hcovered entry hentry
    · obtain hentry | ⟨b, hb, hfinds⟩ := h₂.covered entry hentry
      · obtain hentry | ⟨b, hb, hfinds⟩ := h₁.covered entry hentry
        · exact .inl hentry
        · exact .inr ⟨b, List.mem_cons_of_mem _ (List.mem_append_left _ hb),
            h₃.finds_mono h₁.memoizes (h₂.continues.trans hcontinues) hfinds⟩
      · exact .inr ⟨b, List.mem_cons_of_mem _ (List.mem_append_right _ hb),
          h₃.finds_mono h₂.memoizes hcontinues hfinds⟩
    · exact .inr ⟨_, List.mem_cons_self, hnew ▸ hs⟩

/-! ## Parts of a tree -/

/-- A pass that evaluates a tree from the state `p` comes by the set `s` for the part `e`. -/
inductive Meets (bound : Bound) (e : Datum) (s : VoxelSet) : Datum → Issuer × Cache → Prop
  | self {p p' : Issuer × Cache} : resolve bound e p = .ok s p' → Meets bound e s e p
  | lone {d : Datum} {p : Issuer × Cache} : Meets bound e s d p → Meets bound e s (.list [d]) p
  | left {l token r : Datum} {p : Issuer × Cache} :
    Meets bound e s l p → Meets bound e s (.list [l, token, r]) p
  | right {l token r : Datum} {t : VoxelSet} {p p' : Issuer × Cache} :
    resolve bound l p = .ok t p' → Meets bound e s r p' → Meets bound e s (.list [l, token, r]) p

/-- A successful pass comes by every part of its tree, and every part says something. -/
theorem exists_meets (hd : d.Reads ν a) (hrun : resolve bound d p = .ok t p')
    (he : e.IsPart d) : ∃ b s, e.Reads ν b ∧ Meets bound e s d p := by
  induction he generalizing a t p p' with
  | self => exact ⟨a, t, hd, .self hrun⟩
  | lone _ ih =>
    cases hd with
    | lone hd =>
      rw [resolve, solve] at hrun
      obtain ⟨b, s, hb, hmeets⟩ := ih hd hrun
      exact ⟨b, s, hb, .lone hmeets⟩
  | left _ ih =>
    cases hd with
    | binary hsign hl hr =>
      obtain ⟨_, _, _, _, hrun, -⟩ := (resolve_binary_eq_ok hsign).1 hrun
      obtain ⟨b, s, hb, hmeets⟩ := ih hl hrun
      exact ⟨b, s, hb, .left hmeets⟩
  | right _ ih =>
    cases hd with
    | binary hsign hl hr =>
      obtain ⟨_, _, _, _, hleft, hrun, -⟩ := (resolve_binary_eq_ok hsign).1 hrun
      obtain ⟨b, s, hb, hmeets⟩ := ih hr hrun
      exact ⟨b, s, hb, .right hleft hmeets⟩

/-- What a pass comes by is found at its end. -/
theorem finds_of_meets (hd : d.Reads ν a) (h : Memoizes ν bound p.1 p.2)
    (hrun : resolve bound d p = .ok t p') (he : e.Reads ν b) (hmeets : Meets bound e s d p) :
    p'.2.Finds ν bound b s := by
  induction hmeets generalizing a t p' with
  | self hrun' =>
    rw [hrun] at hrun'
    cases hrun'
    exact (resolves_of_resolve he h hrun).finds
  | lone _ ih =>
    cases hd with
    | lone hd =>
      rw [resolve, solve] at hrun
      exact ih hd h hrun
  | left _ ih =>
    cases hd with
    | binary hsign hl hr =>
      have h' := resolves_of_resolve (.binary hsign hl hr) h hrun
      obtain ⟨_, p₁, _, p₂, hleft, hright, happly⟩ := (resolve_binary_eq_ok hsign).1 hrun
      have h₁ := resolves_of_resolve hl h hleft
      have h₂ := resolves_of_resolve hr h₁.memoizes hright
      exact h'.memoizes.finds_mono h₁.memoizes (h₂.continues.trans (continues_of_apply happly))
        (ih hl h hleft)
  | right hleft' _ ih =>
    cases hd with
    | binary hsign hl hr =>
      have h' := resolves_of_resolve (.binary hsign hl hr) h hrun
      obtain ⟨_, p₁, _, p₂, hleft, hright, happly⟩ := (resolve_binary_eq_ok hsign).1 hrun
      rw [hleft'] at hleft
      cases hleft
      have h₁ := resolves_of_resolve hl h hleft'
      have h₂ := resolves_of_resolve hr h₁.memoizes hright
      exact h'.memoizes.finds_mono h₂.memoizes (continues_of_apply happly)
        (ih hr h₁.memoizes hright)

/-- Same operations are computed once: besides the universal and the null set, the cache has one set
for each class of same operations, and parts of the tree have one set exactly if they say the
same. -/
structure Shares (ν : String → Option κ) (bound : Bound) (d : Datum) (a : Expression κ)
    (p : Issuer × Cache) (c : Cache) : Prop where
  length : c.sets.length = 2 + a.classes.ncard
  nodup : (c.sets.map VoxelSet.id).Nodup
  meets : ∀ e, e.IsPart d → ∃ b s, e.Reads ν b ∧ Meets bound e s d p
  mem : ∀ {e s l op r}, e.Reads ν (.operation l op r) → Meets bound e s d p →
    s ∈ c.results.map Prod.snd
  eq_of_same : ∀ {e e' s s' b b'}, e.Reads ν b → e'.Reads ν b' → Meets bound e s d p →
    Meets bound e' s' d p → b.Same b' → s = s'
  same_of_id : ∀ {e e' s s' b b'}, e.Reads ν b → e'.Reads ν b' → Meets bound e s d p →
    Meets bound e' s' d p → s.id = s'.id → b.Same b'

/-- What a cache finds of an operation it finds of the operations in it. -/
theorem exists_finds_of_mem (hs : c.Finds ν bound a s) (hb : b ∈ a.operations) :
    ∃ t, c.Finds ν bound b t := by
  induction a generalizing s with
  | universal | null | object => cases hb
  | operation l op r ihl ihr =>
    obtain rfl | hb := List.mem_cons.1 hb
    · exact ⟨s, hs⟩
    obtain ⟨left, right, hl, hr, -⟩ := hs
    exact (List.mem_append.1 hb).elim (ihl hl) (ihr hr)

/-- There are as many results as classes of operations. -/
theorem length_results (h : Resolves ν bound c a s i' c') (hempty : c.results = []) :
    c'.results.length = a.classes.ncard := by
  have hof : ∀ entry ∈ c'.results, ∃ b, b ∈ a.operations ∧ c'.Finds ν bound b entry.2 :=
    fun entry hentry => (h.covered entry hentry).resolve_left (hempty ▸ List.not_mem_nil)
  choose f hmem hfinds using hof
  classical
  have hcard : {entry | entry ∈ c'.results}.ncard = c'.results.length := by
    rw [← List.coe_toFinset, Set.ncard_coe_finset,
      List.toFinset_card_of_nodup h.memoizes.nodup_results.of_map]
  rw [← hcard]
  refine Set.ncard_congr (fun entry hentry => ⟦f entry hentry⟧)
    (fun entry hentry => ⟨_, hmem entry hentry, rfl⟩) (fun entry entry' hs ht heq => ?_) ?_
  · have hsame := h.memoizes.eq_of_same (Expression.mk_eq_mk_iff.1 heq) (hfinds entry hs)
      (hfinds entry' ht)
    exact List.inj_on_of_nodup_map h.memoizes.nodup_results hs ht (congrArg VoxelSet.id hsame)
  · rintro _ ⟨b, hb, rfl⟩
    obtain ⟨t, ht⟩ := exists_finds_of_mem h.finds hb
    obtain ⟨l, op, r, rfl⟩ := Expression.exists_operation_of_mem hb
    obtain ⟨key, hentry⟩ := h.memoizes.exists_result ht
    exact ⟨(key, t), hentry,
      Expression.mk_eq_mk_iff.2 (h.memoizes.same_of_id (hfinds _ hentry) ht rfl)⟩

theorem shares_of_resolve (hd : d.Reads ν a) (h : Memoizes ν bound p.1 p.2)
    (hempty : p.2.results = []) (hrun : resolve bound d p = .ok s p') :
    Shares ν bound d a p p'.2 := by
  have h' := resolves_of_resolve hd h hrun
  refine ⟨?_, h'.memoizes.nodup, fun e => exists_meets hd hrun, fun he hmeets => ?_,
    fun he he' hmeets hmeets' hsame => ?_, fun he he' hmeets hmeets' hid => ?_⟩
  · rw [← length_results h' hempty, Cache.sets, List.length_cons, List.length_cons,
      List.length_map]
    omega
  · obtain ⟨key, hmem⟩ := h'.memoizes.exists_result (finds_of_meets hd h hrun he hmeets)
    exact List.mem_map_of_mem (f := Prod.snd) hmem
  · exact h'.memoizes.eq_of_same hsame (finds_of_meets hd h hrun he hmeets)
      (finds_of_meets hd h hrun he' hmeets')
  · exact h'.memoizes.same_of_id (finds_of_meets hd h hrun he hmeets)
      (finds_of_meets hd h hrun he' hmeets') hid

end Evaluation

/-! ## Composites -/

theorem Bound.isLive_of_universe {voxels : List Voxel} (h : bound.universe = .ok voxels) :
    ∀ s ∈ bound.sets, s.isDeleted = false := by
  obtain ⟨lists, hlists, -⟩ := except_bind_eq_ok.1 h
  simp only [except_mapM_eq_ok, VoxelSet.absolute_eq_ok, List.forall₂_and_left] at hlists
  exact List.forall_mem_map.2 hlists.1

namespace Composite

variable {x x' : Composite} {u : Unit}

theorem inUse_of_releaseSets {sets : List VoxelSet} (h : releaseSets sets i = .ok u i')
    {id : String} (hid : id ∈ i.inUse) (hsets : ∀ s ∈ sets, s.id ≠ id) : id ∈ i'.inUse := by
  induction sets generalizing i with
  | nil =>
    obtain ⟨-, rfl⟩ := Edit.pure_eq_ok.1 h
    exact hid
  | cons s rest ih =>
    obtain ⟨hs, hrest⟩ := List.forall_mem_cons.1 hsets
    simp only [releaseSets, VoxelSet.release, Edit.bind_eq_ok, Edit.ofExcept_eq_ok,
      Edit.pure_eq_ok] at h
    obtain ⟨_, _, ⟨_, _, ⟨-, rfl⟩, _, i₁, hrelease, -, rfl⟩, h⟩ := h
    refine ih h ?_ hrest
    rw [Issuer.inUse_of_release hrelease]
    simpa [hs.symm] using hid

/-- How a pass begins: the cache is released, and fresh identifiers are issued for the universal and
the null set of live sets. -/
theorem beginCache_eq_ok (h : beginCache bound (i, x) = .ok c (i', x')) :
    x' = { x with cache := some c } ∧ c.results = [] ∧ x.base.isDeleted = false ∧
      (∀ s ∈ bound.sets, s.isDeleted = false) ∧
      ∃ i₁ i₂, releaseSets x.cacheSets i = .ok () i₁ ∧
        Issuer.Issues i₁ c.universal.id i₂ ∧ Issuer.Issues i₂ c.null.id i' := by
  simp only [beginCache, releaseCache, Edit.bind_eq_ok, Edit.get_bind, Edit.ofExcept_eq_ok,
    Edit.onFirst_eq_ok, Edit.onSecond_eq_ok, Edit.modify_eq_ok, Edit.pure_eq_ok] at h
  obtain ⟨_, _, ⟨hlive, rfl⟩, _, ⟨i₁, _⟩, ⟨_, ⟨_, _⟩, ⟨hrelease, rfl⟩, rfl, rfl⟩, voxels, _,
    ⟨huniverse, rfl⟩, universal, ⟨i₂, _⟩, ⟨hcreate, rfl⟩, null, ⟨i₃, _⟩, ⟨hcreate', rfl⟩, _,
    ⟨_, _⟩, ⟨rfl, rfl⟩, rfl, hend⟩ := h
  cases hend
  exact ⟨rfl, rfl, VoxelSet.checkAlive_eq_ok.1 hlive, Bound.isLive_of_universe huniverse, _, i₂,
    hrelease, (VoxelSet.create_eq_ok hcreate).1, (VoxelSet.create_eq_ok hcreate').1⟩

/-- A pass begins with no results, if the objects can be told from the named sets and these are not
part of the composite. -/
theorem memoizes_of_beginCache (h : beginCache bound (i, x) = .ok c (i', x'))
    (hcarries : bound.Carries ν) (hinUse : ∀ s ∈ bound.sets, s.id ∈ i.inUse)
    (hapart : ∀ s ∈ x.cacheSets, ∀ t ∈ bound.sets, s.id ≠ t.id) : Memoizes ν bound i' c := by
  obtain ⟨-, hempty, -, -, i₁, i₂, hrelease, huniversal, hnull⟩ := beginCache_eq_ok h
  have hsets : c.sets = [c.universal, c.null] := by simp [Cache.sets, hempty]
  have hinUse₁ : ∀ s ∈ bound.sets, s.id ∈ i₁.inUse := fun s hs =>
    inUse_of_releaseSets hrelease (hinUse s hs) fun t ht => hapart t ht s hs
  have hinUse₂ : ∀ s ∈ bound.sets, s.id ∈ i₂.inUse := fun s hs => by
    rw [huniversal.inUse]
    exact List.mem_append_left _ (hinUse₁ s hs)
  have hfresh : c.universal.id ∈ i₂.inUse := by simp [huniversal.inUse]
  refine ⟨hcarries, fun s hs => ?_, ?_, fun s hs t ht hid => ?_, ?_⟩
  · rw [Cache.known, hsets] at hs
    rw [hnull.inUse, List.mem_append, List.mem_singleton]
    obtain rfl | rfl | hs : s = c.universal ∨ s = c.null ∨ s ∈ bound.sets := by simpa using hs
    · exact .inl hfresh
    · exact .inr rfl
    · exact .inl (hinUse₂ s hs)
  · rw [hsets]
    simpa using fun hid : c.universal.id = c.null.id => hnull.fresh (hid ▸ hfresh)
  · rw [hsets] at hs
    obtain rfl | rfl : s = c.universal ∨ s = c.null := by simpa using hs
    · exact huniversal.fresh (hid ▸ hinUse₁ t ht)
    · exact hnull.fresh (hid ▸ hinUse₂ t ht)
  · rw [Cache.IsOnce, hempty]
    exact .nil

/-- An interpretation is one pass over the tree of the equation. -/
theorem interpret_eq_ok (h : interpret bound (i, x) = .ok u (i', x')) :
    ∃ c₀ i₀ s c, beginCache bound (i, x) = .ok c₀ (i₀, { x with cache := some c₀ }) ∧
      Evaluation.evaluate bound x.equation.tree (i₀, c₀) = .ok s (i', c) ∧ x'.cache = some c := by
  simp only [interpret, onCache, onBase, Edit.bind_eq_ok, Edit.get_bind, Edit.onPart_eq_ok,
    Edit.onSecond_eq_ok, Edit.ofExcept_eq_ok] at h
  obtain ⟨c₀, ⟨i₀, x₀⟩, hbegin, s, _, ⟨⟨i₁, c⟩, hevaluate, rfl⟩, voxels, _, ⟨-, rfl⟩,
    ⟨base, hset, rfl⟩, rfl⟩ := h
  obtain ⟨rfl, -⟩ := beginCache_eq_ok hbegin
  exact ⟨c₀, i₀, s, c, hbegin, hevaluate, rfl⟩

end Composite
end
end VoxelAlgebra
