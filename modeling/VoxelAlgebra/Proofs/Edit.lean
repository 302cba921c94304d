import Mathlib.Data.List.Forall2
import VoxelAlgebra.Edit

/-!
# Runs of edits

A run of an edit that succeeds is taken apart step by step: a sequence of two edits succeeds if the
first does and the second does from there, and an edit of a part leaves the other parts alone.

## Main definitions

* `Edit.bind_eq_ok` and its siblings — what a successful run says about the runs of its parts.
-/

namespace VoxelAlgebra

/-- A sequence succeeds if its first computation does and the second one does with its result. -/
theorem except_bind_eq_ok {ε α β : Type} {x : Except ε α} {f : α → Except ε β} {b : β} :
    x >>= f = .ok b ↔ ∃ a, x = .ok a ∧ f a = .ok b := by
  cases x with
  | error e => exact ⟨nofun, fun ⟨_, h, _⟩ => nomatch h⟩
  | ok a => exact ⟨fun h => ⟨a, rfl, h⟩, fun ⟨_, h, hf⟩ => by cases h; exact hf⟩

@[simp] theorem except_ok_bind {ε α β : Type} (a : α) (f : α → Except ε β) :
    (Except.ok a >>= f) = f a :=
  rfl

/-- What is related to an element of the second of two lists that are related one by one. -/
theorem exists_mem_of_forall₂ {α β : Type} {R : α → β → Prop} {as : List α} {bs : List β}
    (h : List.Forall₂ R as bs) {b : β} (hb : b ∈ bs) : ∃ a ∈ as, R a b := by
  induction h with
  | nil => cases hb
  | cons hab _ ih =>
    obtain rfl | hb := List.mem_cons.1 hb
    · exact ⟨_, List.mem_cons_self, hab⟩
    · obtain ⟨a, ha, hab⟩ := ih hb
      exact ⟨a, List.mem_cons_of_mem _ ha, hab⟩

/-- Two lists that are related one by one to a third are related to each other. -/
theorem forall₂_of_common {α β γ : Type} {R : α → β → Prop} {S : α → γ → Prop} {T : β → γ → Prop}
    (hT : ∀ a b c, R a b → S a c → T b c) {as : List α} {bs : List β} {cs : List γ}
    (hR : List.Forall₂ R as bs) (hS : List.Forall₂ S as cs) : List.Forall₂ T bs cs := by
  induction hR generalizing cs with
  | nil =>
    cases hS
    exact .nil
  | cons hab _ ih =>
    cases hS with
    | cons hac hS => exact .cons (hT _ _ _ hab hac) (ih hS)

/-- A computation on every element succeeds if it does on each, and gives the results in order. -/
theorem except_mapM_eq_ok {ε α β : Type} {f : α → Except ε β} {l : List α} {bs : List β} :
    l.mapM f = .ok bs ↔ List.Forall₂ (fun a b => f a = .ok b) l bs := by
  induction l generalizing bs with
  | nil => cases bs <;> simp [pure, Except.pure]
  | cons a l ih =>
    simp only [List.mapM_cons, except_bind_eq_ok, ih]
    constructor
    · rintro ⟨b, hb, bs', hbs', h⟩
      cases h
      exact .cons hb hbs'
    · rintro (_ | ⟨hb, hbs⟩)
      exact ⟨_, hb, _, hbs, rfl⟩

theorem except_exists_mapM {ε α β : Type} {f : α → Except ε β} {l : List α}
    (h : ∀ a ∈ l, ∃ b, f a = .ok b) : ∃ bs, l.mapM f = .ok bs := by
  induction l with
  | nil => exact ⟨[], rfl⟩
  | cons a l ih =>
    obtain ⟨b, hb⟩ := h a List.mem_cons_self
    obtain ⟨bs, hbs⟩ := ih fun d hd => h d (List.mem_cons_of_mem a hd)
    exact ⟨b :: bs, by simp [List.mapM_cons, hb, hbs, bind, Except.bind, pure, Except.pure]⟩

namespace Edit

variable {σ τ α β : Type}

@[simp] theorem pure_eq_ok {a b : α} {s s' : σ} :
    (pure a : Edit σ α) s = .ok b s' ↔ a = b ∧ s = s' := by
  simp [pure, EStateM.pure]

@[simp] theorem get_eq_ok {s t s' : σ} : (get : Edit σ σ) s = .ok t s' ↔ s = t ∧ s = s' := by
  change EStateM.Result.ok s s = .ok t s' ↔ s = t ∧ s = s'
  simp

@[simp] theorem get_bind {f : σ → Edit σ α} {s : σ} : (get >>= f) s = f s s := rfl

@[simp] theorem set_eq_ok {s t s' : σ} {u : PUnit} :
    (set t : Edit σ PUnit) s = .ok u s' ↔ t = s' := by
  change EStateM.Result.ok PUnit.unit t = .ok u s' ↔ t = s'
  simp

@[simp] theorem modify_eq_ok {f : σ → σ} {s s' : σ} {u : PUnit} :
    (modify f : Edit σ PUnit) s = .ok u s' ↔ f s = s' := by
  change EStateM.Result.ok PUnit.unit (f s) = .ok u s' ↔ f s = s'
  simp

@[simp] theorem throw_eq_ok {e : Fault} {a : α} {s s' : σ} :
    (throw e : Edit σ α) s = .ok a s' ↔ False := by
  change EStateM.Result.error e s = .ok a s' ↔ False
  simp

@[simp] theorem ofExcept_eq_ok {x : Except Fault α} {a : α} {s s' : σ} :
    ofExcept x s = .ok a s' ↔ x = .ok a ∧ s = s' := by
  cases x with
  | error e => simp [ofExcept]
  | ok b => simp [ofExcept]

theorem bind_eq_ok {x : Edit σ α} {f : α → Edit σ β} {b : β} {s s'' : σ} :
    (x >>= f) s = .ok b s'' ↔ ∃ a s', x s = .ok a s' ∧ f a s' = .ok b s'' := by
  cases h : x s <;> simp [bind, EStateM.bind, h, and_assoc]

theorem onPart_eq_ok {read : σ → τ} {write : τ → σ → σ} {edit : Edit τ α} {a : α} {s s' : σ} :
    onPart read write edit s = .ok a s' ↔
      ∃ t, edit (read s) = .ok a t ∧ write t s = s' := by
  cases h : edit (read s) <;> simp [onPart, h, and_assoc]

theorem onFirst_eq_ok {edit : Edit σ α} {a : α} {p p' : σ × τ} :
    onFirst edit p = .ok a p' ↔ edit p.1 = .ok a p'.1 ∧ p.2 = p'.2 := by
  rw [onFirst, onPart_eq_ok]
  constructor
  · rintro ⟨t, ht, rfl⟩
    exact ⟨ht, rfl⟩
  · rintro ⟨ht, h⟩
    exact ⟨_, ht, Prod.ext rfl h⟩

theorem onSecond_eq_ok {edit : Edit τ α} {a : α} {p p' : σ × τ} :
    onSecond edit p = .ok a p' ↔ edit p.2 = .ok a p'.2 ∧ p.1 = p'.1 := by
  rw [onSecond, onPart_eq_ok]
  constructor
  · rintro ⟨t, ht, rfl⟩
    exact ⟨ht, rfl⟩
  · rintro ⟨ht, h⟩
    exact ⟨_, ht, Prod.ext h rfl⟩

/-- Reading for every element of a list succeeds if it does for each, and leaves the state. -/
theorem mapM_eq_ok {f : α → Edit σ β} (hf : ∀ a b s s', f a s = .ok b s' → s' = s) {l : List α}
    {bs : List β} {s s' : σ} :
    l.mapM f s = .ok bs s' ↔ s = s' ∧ List.Forall₂ (fun a b => f a s = .ok b s) l bs := by
  induction l generalizing bs with
  | nil =>
    rw [List.mapM_nil, pure_eq_ok, List.forall₂_nil_left_iff]
    exact ⟨fun h => ⟨h.2, h.1.symm⟩, fun h => ⟨h.2.symm, h.1⟩⟩
  | cons a l ih =>
    simp only [List.mapM_cons, bind_eq_ok, pure_eq_ok, List.forall₂_cons_left_iff]
    constructor
    · rintro ⟨b, s₁, hb, bs', s₂, hbs, rfl, rfl⟩
      obtain rfl := hf a b s s₁ hb
      obtain ⟨rfl, hall⟩ := ih.1 hbs
      exact ⟨rfl, b, bs', hb, hall, rfl⟩
    · rintro ⟨rfl, b, bs', hb, hbs, rfl⟩
      exact ⟨b, s, hb, bs', s, ih.2 ⟨rfl, hbs⟩, rfl, rfl⟩

theorem withSecond_eq_ok {t : τ} {edit : Edit (σ × τ) α} {r : α × τ} {s s' : σ} :
    withSecond t edit s = .ok r s' ↔ edit (s, t) = .ok r.1 (s', r.2) := by
  cases h : edit (s, t) with
  | error e p => simp [withSecond, h]
  | ok a p =>
    obtain ⟨r₁, r₂⟩ := r
    obtain ⟨p₁, p₂⟩ := p
    simp [withSecond, h, and_assoc, and_comm (a := p₂ = r₂)]

/-! ## Sequences of edits of a part -/

/-- What comes later in an edit beside a second part begins with the part as it is then. -/
theorem withSecond_bind (t : τ) (x : Edit (σ × τ) α) (f : α → Edit (σ × τ) β) :
    withSecond t (x >>= f) = withSecond t x >>= fun r => withSecond r.2 (f r.1) := by
  funext s
  cases h : x (s, t) <;> simp [withSecond, bind, EStateM.bind, h]

/-- A sequence of edits of a part, where what was put back is found again. -/
theorem onPart_bind {read : σ → τ} {write : τ → σ → σ} (hread : ∀ t s, read (write t s) = t)
    (hwrite : ∀ t t' s, write t' (write t s) = write t' s) (x : Edit τ α) (f : α → Edit τ β) :
    onPart read write (x >>= f) = onPart read write x >>= fun a => onPart read write (f a) := by
  funext s
  cases h : x (read s) <;> simp [onPart, bind, EStateM.bind, h, hread, hwrite]

end Edit
end VoxelAlgebra
