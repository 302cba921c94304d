import VoxelAlgebra.Proofs.Edit

/-!
# Outcomes of edits

A failed edit leaves a state behind, so what it did before the failure counts as well. An outcome is
described by two conditions: one on the result and the state of a success, one on the fault and the
state of a failure. A sequence of edits passes the condition of a success on from step to step, and
the condition of a failure holds wherever it stops.

## Main definitions

* `Edit.EndsIn` — what holds after an edit, whether it succeeds or fails.
* `Edit.endsIn_bind` and its siblings — the outcome of an edit from those of its parts.
* `Edit.Keeps` — a condition on states that holds after an edit if it does before.
* `Edit.FailsOnlyWith` — the faults that an edit can end with from any state.
-/

namespace VoxelAlgebra

/-- A sequence fails where its first computation does, or where the second one does with its
result. -/
theorem except_bind_eq_error {ε α β : Type} {x : Except ε α} {f : α → Except ε β} {e : ε} :
    x >>= f = .error e ↔ x = .error e ∨ ∃ a, x = .ok a ∧ f a = .error e := by
  cases x <;> simp [bind, Except.bind]

theorem except_bind_pure_eq_error {ε α β : Type} {x : Except ε α} {f : α → β} {e : ε} :
    (x >>= fun a => pure (f a)) = .error e ↔ x = .error e := by
  cases x <;> simp [bind, Except.bind, pure, Except.pure]

/-- A computation on every element fails where it does on one of them. -/
theorem except_exists_of_mapM_eq_error {ε α β : Type} {f : α → Except ε β} {l : List α} {e : ε}
    (h : l.mapM f = .error e) : ∃ a ∈ l, f a = .error e := by
  induction l with
  | nil => cases h
  | cons a l ih =>
    rw [List.mapM_cons, except_bind_eq_error] at h
    obtain h | ⟨b, -, h⟩ := h
    · exact ⟨a, List.mem_cons_self, h⟩
    obtain h | ⟨bs, -, h⟩ := except_bind_eq_error.1 h
    · exact (ih h).imp fun d hd => ⟨List.mem_cons_of_mem a hd.1, hd.2⟩
    · cases h

namespace Edit

variable {σ τ α β : Type} {s t : σ} {Q Q' : α → σ → Prop} {E E' : Fault → σ → Prop}
  {F : Fault → Prop}

/-- From `s` an edit succeeds with a result and a state that satisfy `Q`, or it fails with a fault
and a state that satisfy `E`. -/
def EndsIn (edit : Edit σ α) (s : σ) (Q : α → σ → Prop) (E : Fault → σ → Prop) : Prop :=
  match edit s with
  | .ok a t => Q a t
  | .error e t => E e t

namespace EndsIn

variable {edit : Edit σ α}

theorem of_ok {a : α} (h : edit.EndsIn s Q E) (hrun : edit s = .ok a t) : Q a t := by
  rwa [EndsIn, hrun] at h

theorem of_error {e : Fault} (h : edit.EndsIn s Q E) (hrun : edit s = .error e t) : E e t := by
  rwa [EndsIn, hrun] at h

theorem imp (h : edit.EndsIn s Q E) (hQ : ∀ a t, Q a t → Q' a t) (hE : ∀ e t, E e t → E' e t) :
    edit.EndsIn s Q' E' := by
  unfold EndsIn at h ⊢
  split at h
  · exact hQ _ _ h
  · exact hE _ _ h

theorem and (h : edit.EndsIn s Q E) (h' : edit.EndsIn s Q' E') :
    edit.EndsIn s (fun a t => Q a t ∧ Q' a t) fun e t => E e t ∧ E' e t := by
  unfold EndsIn at *
  cases hrun : edit s <;> rw [hrun] at h h' <;> exact ⟨h, h'⟩

/-- An edit that cannot fail succeeds. -/
theorem exists_ok (h : edit.EndsIn s Q fun _ _ => False) : ∃ a t, edit s = .ok a t ∧ Q a t := by
  cases hrun : edit s with
  | ok a t => exact ⟨a, t, rfl, h.of_ok hrun⟩
  | error e t => exact (h.of_error hrun).elim

/-- A condition on both states holds of the state that is left. -/
theorem outcome {P : σ → Prop} (h : edit.EndsIn s (fun _ => P) fun _ => P) :
    P (edit.outcome s).2 := by
  unfold EndsIn at h
  unfold Edit.outcome
  cases hrun : edit s <;> rw [hrun] at h <;> exact h

end EndsIn

theorem endsIn_iff {edit : Edit σ α} : edit.EndsIn s Q E ↔
    (∀ a t, edit s = .ok a t → Q a t) ∧ ∀ e t, edit s = .error e t → E e t := by
  refine ⟨fun h => ⟨fun a t => h.of_ok, fun e t => h.of_error⟩, fun ⟨hok, herror⟩ => ?_⟩
  unfold EndsIn
  split
  · exact hok _ _ ‹_›
  · exact herror _ _ ‹_›

theorem endsIn_congr {edit edit' : Edit σ α} (h : edit s = edit' s) :
    edit.EndsIn s Q E ↔ edit'.EndsIn s Q E := by
  rw [EndsIn, EndsIn, h]

theorem endsIn_of_eq_ok {edit : Edit σ α} {a : α} (hrun : edit s = .ok a t) (h : Q a t) :
    edit.EndsIn s Q E := by
  rwa [EndsIn, hrun]

theorem endsIn_of_forall {edit : Edit σ α} (hQ : ∀ a t, Q a t) (hE : ∀ e t, E e t) :
    edit.EndsIn s Q E :=
  endsIn_iff.2 ⟨fun a t _ => hQ a t, fun e t _ => hE e t⟩

/-! ## Steps -/

@[simp] theorem endsIn_pure {a : α} : (pure a : Edit σ α).EndsIn s Q E ↔ Q a s := Iff.rfl

@[simp] theorem endsIn_throw {e : Fault} : (throw e : Edit σ α).EndsIn s Q E ↔ E e s := Iff.rfl

@[simp] theorem endsIn_modify {f : σ → σ} {Q : PUnit → σ → Prop} :
    (modify f : Edit σ PUnit).EndsIn s Q E ↔ Q ⟨⟩ (f s) := Iff.rfl

@[simp] theorem endsIn_set {Q : PUnit → σ → Prop} :
    (set t : Edit σ PUnit).EndsIn s Q E ↔ Q ⟨⟩ t := Iff.rfl

@[simp] theorem endsIn_get {Q : σ → σ → Prop} : (get : Edit σ σ).EndsIn s Q E ↔ Q s s := Iff.rfl

/-- A sequence goes on from wherever its first edit succeeds. -/
@[simp] theorem endsIn_bind {x : Edit σ α} {f : α → Edit σ β} {Q : β → σ → Prop} :
    (x >>= f).EndsIn s Q E ↔ x.EndsIn s (fun a t => (f a).EndsIn t Q E) E := by
  cases h : x s <;> simp [EndsIn, bind, EStateM.bind, h]

@[simp] theorem endsIn_ofExcept {x : Except Fault α} : (ofExcept x).EndsIn s Q E ↔
    (∀ a, x = .ok a → Q a s) ∧ ∀ e, x = .error e → E e s := by
  cases x <;> simp [ofExcept]

theorem endsIn_ofExcept_ok {a : α} : (ofExcept (.ok a)).EndsIn s Q E ↔ Q a s := Iff.rfl

/-! ## Parts of the state -/

@[simp] theorem endsIn_onPart {read : σ → τ} {write : τ → σ → σ} {edit : Edit τ α} :
    (onPart read write edit).EndsIn s Q E ↔
      edit.EndsIn (read s) (fun a t => Q a (write t s)) fun e t => E e (write t s) := by
  cases h : edit (read s) <;> simp [EndsIn, onPart, h]

@[simp] theorem endsIn_onFirst {edit : Edit σ α} {p : σ × τ} {Q : α → σ × τ → Prop}
    {E : Fault → σ × τ → Prop} : (onFirst edit).EndsIn p Q E ↔
      edit.EndsIn p.1 (fun a s => Q a (s, p.2)) fun e s => E e (s, p.2) :=
  endsIn_onPart

@[simp] theorem endsIn_onSecond {edit : Edit τ α} {p : σ × τ} {Q : α → σ × τ → Prop}
    {E : Fault → σ × τ → Prop} : (onSecond edit).EndsIn p Q E ↔
      edit.EndsIn p.2 (fun a t => Q a (p.1, t)) fun e t => E e (p.1, t) :=
  endsIn_onPart

@[simp] theorem endsIn_withSecond {t : τ} {edit : Edit (σ × τ) α} {Q : α × τ → σ → Prop} :
    (withSecond t edit).EndsIn s Q E ↔
      edit.EndsIn (s, t) (fun a p => Q (a, p.2) p.1) fun e p => E e p.1 := by
  cases h : edit (s, t) <;> simp [EndsIn, withSecond, h]

/-- Reading for every element of a list leaves the state, also where it fails. -/
theorem endsIn_mapM_of_read {f : α → Edit σ β} {l : List α}
    (hf : ∀ a, (f a).EndsIn s (fun _ t => t = s) fun _ t => t = s) :
    (l.mapM f).EndsIn s (fun _ t => t = s) fun _ t => t = s := by
  induction l with
  | nil => rfl
  | cons a l ih =>
    simp only [List.mapM_cons, endsIn_bind, endsIn_pure]
    refine (hf a).imp (fun _ t ht => ?_) fun _ _ ht => ht
    subst ht
    exact ih.imp (fun _ _ ht => ht) fun _ _ ht => ht

/-! ## Conditions that edits keep -/

/-- However the edit ends, it leaves a state that satisfies `P` if it starts in one. -/
def Keeps (P : σ → Prop) (edit : Edit σ α) : Prop :=
  ∀ s, P s → edit.EndsIn s (fun _ => P) fun _ => P

namespace Keeps

variable {P : σ → Prop}

theorem pure (a : α) : Keeps P (pure a : Edit σ α) := fun _ hs => hs

theorem throw (e : Fault) : Keeps P (throw e : Edit σ α) := fun _ hs => hs

theorem ofExcept (x : Except Fault α) : Keeps P (Edit.ofExcept x : Edit σ α) := fun _ hs =>
  endsIn_ofExcept.2 ⟨fun _ _ => hs, fun _ _ => hs⟩

theorem bind {x : Edit σ α} {f : α → Edit σ β} (hx : Keeps P x) (hf : ∀ a, Keeps P (f a)) :
    Keeps P (x >>= f) := fun s hs =>
  endsIn_bind.2 ((hx s hs).imp (fun a t ht => hf a t ht) fun _ _ ht => ht)

theorem mapM {f : α → Edit σ β} (hf : ∀ a, Keeps P (f a)) (l : List α) : Keeps P (l.mapM f) := by
  induction l with
  | nil => exact .pure []
  | cons a l ih =>
    rw [List.mapM_cons]
    exact (hf a).bind fun _ => ih.bind fun _ => .pure _

end Keeps

/-! ## Faults -/

def FailsOnlyWith (F : Fault → Prop) (edit : Edit σ α) : Prop :=
  ∀ s, edit.EndsIn s (fun _ _ => True) fun e _ => F e

namespace FailsOnlyWith

theorem pure {a : α} : FailsOnlyWith F (pure a : Edit σ α) := fun _ => trivial

theorem throw {e : Fault} (h : F e) : FailsOnlyWith F (throw e : Edit σ α) := fun _ => h

theorem modify {f : σ → σ} : FailsOnlyWith F (modify f : Edit σ PUnit) := fun _ => trivial

theorem set : FailsOnlyWith F (set t : Edit σ PUnit) := fun _ => trivial

theorem ofExcept {x : Except Fault α} (h : ∀ e, x = .error e → F e) :
    FailsOnlyWith F (ofExcept x : Edit σ α) := fun _ =>
  endsIn_ofExcept.2 ⟨fun _ _ => trivial, h⟩

theorem bind {x : Edit σ α} {f : α → Edit σ β} (hx : x.FailsOnlyWith F)
    (hf : ∀ a, (f a).FailsOnlyWith F) : (x >>= f).FailsOnlyWith F := fun s =>
  endsIn_bind.2 ((hx s).imp (fun a t _ => hf a t) fun _ _ h => h)

theorem get_bind {f : σ → Edit σ α} (hf : ∀ s, (f s).FailsOnlyWith F) :
    (get >>= f).FailsOnlyWith F := fun s => hf s s

theorem ofExcept_bind {x : Except Fault α} {f : α → Edit σ β} (hx : ∀ e, x = .error e → F e)
    (hf : ∀ a, x = .ok a → (f a).FailsOnlyWith F) : (Edit.ofExcept x >>= f).FailsOnlyWith F :=
  fun s => endsIn_bind.2 (endsIn_ofExcept.2 ⟨fun a ha => hf a ha s, hx⟩)

theorem onPart {read : σ → τ} {write : τ → σ → σ} {edit : Edit τ α} (h : edit.FailsOnlyWith F) :
    (Edit.onPart read write edit).FailsOnlyWith F := fun s => endsIn_onPart.2 (h (read s))

end FailsOnlyWith

end Edit
end VoxelAlgebra
