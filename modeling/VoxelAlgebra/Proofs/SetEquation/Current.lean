import VoxelAlgebra.Proofs.Edit.Outcome
import VoxelAlgebra.Proofs.SetEquation

/-!
# Equations that change

The calls on an equation come in any order, and some of them fail. Its tokens and its tree are
worked out late, and they are always those of the text that was given last: a new text drops them, a
call that fails changes nothing, and a call that succeeds works from the text at hand.

## Main definitions

* `SetEquation.Call` — the calls on an equation.
* `SetEquation.Call.Gives` — what a call that succeeds does.
* `SetEquation.IsCurrent` — tokens and tree, where there are any, are those of the text.
* `SetEquation.isCurrent_after` — every equation is current, whatever was called on it.
-/

namespace VoxelAlgebra

namespace SetEquation

variable {e e' : SetEquation}

/-! ## Calls -/

inductive Call where
  | change (text : String)
  | validate
  | generate
  | read

/-- Carries a call out. A reading call answers the tree. -/
def Call.run : Call → Edit SetEquation (Option Datum)
  | change text => do
    set (ofText text)
    return none
  | validate => do
    SetEquation.validate
    return none
  | generate => do
    SetEquation.generate
    return none
  | read => return some (← get).tree

/-- The text that is given last, if it was `text` before the call. -/
def Call.textFrom (text : String) : Call → String
  | change text' => text'
  | _ => text

/-- What a call that succeeds makes of an equation, and what it answers. -/
def Call.Gives (e : SetEquation) (answer : Option Datum) (e' : SetEquation) : Call → Prop
  | change text => answer = none ∧ e' = ofText text
  | validate => answer = none ∧ ∃ tokens, Equation.validate e.text.toList = .ok tokens ∧
      e' = { e with tokens := some tokens }
  | generate => answer = none ∧ ∃ tokens tree, Equation.validate e.text.toList = .ok tokens ∧
      Equation.buildTree tokens = .ok tree ∧ e' = ⟨e.text, some tokens, tree⟩
  | read => answer = some e.tree ∧ e' = e

/-- The equation after some calls, of which any may fail. -/
def after (calls : List Call) (e : SetEquation) : SetEquation :=
  calls.foldl (fun e call => (call.run.outcome e).2) e

/-- Tokens and tree, where there are any, are those of the text. -/
structure IsCurrent (e : SetEquation) : Prop where
  tokens : e.tokens = none ∨
    ∃ tokens, e.tokens = some tokens ∧ Equation.validate e.text.toList = .ok tokens
  tree : e.tree = .list [] ∨
    ∃ tokens, e.tokens = some tokens ∧ Equation.buildTree tokens = .ok e.tree

theorem isCurrent_ofText (text : String) : (ofText text).IsCurrent := ⟨.inl rfl, .inl rfl⟩

/-! ## One call -/

/-- The tokens of the text are stored, or the text is refused and nothing changes. -/
theorem endsIn_validate (e : SetEquation) : validate.EndsIn e
    (fun _ e' => ∃ tokens, Equation.validate e.text.toList = .ok tokens ∧
      e' = { e with tokens := some tokens })
    fun fault e' => e' = e ∧ Equation.validate e.text.toList = .error fault := by
  simp only [validate, Edit.endsIn_bind, Edit.endsIn_get, Edit.endsIn_ofExcept, Edit.endsIn_set,
    true_and]
  constructor
  · intro tokens htokens
    exact ⟨tokens, htokens, rfl⟩
  · intro fault hfault
    exact hfault

/-- Tokens that were stored earlier are those of the text, so it does not matter whether there were
any: the tree is that of the text, or the text is refused and nothing changes. -/
theorem IsCurrent.endsIn_generate (he : e.IsCurrent) : generate.EndsIn e
    (fun _ e' => ∃ tokens tree, Equation.validate e.text.toList = .ok tokens ∧
      Equation.buildTree tokens = .ok tree ∧ e' = ⟨e.text, some tokens, tree⟩)
    fun fault e' => e' = e ∧ Equation.validate e.text.toList = .error fault := by
  -- from the tokens on, only a tree that is not built could fail, and it is built
  have hbuild : ∀ tokens, Equation.validate e.text.toList = .ok tokens →
      ∃ tree, Equation.buildTree tokens = .ok tree := fun tokens htokens =>
    Equation.exists_buildTree_of_validate htokens
  unfold generate
  obtain hnone | ⟨tokens, hsome, htokens⟩ := he.tokens
  · simp only [Edit.endsIn_bind, Edit.endsIn_get, hnone, Option.isNone_none, if_true]
    refine (endsIn_validate e).imp ?_ fun fault e' h => h
    rintro - e' ⟨tokens, htokens, rfl⟩
    obtain ⟨tree, htree⟩ := hbuild tokens htokens
    simp only [Option.getD_some, htree, Edit.endsIn_ofExcept_ok, Edit.endsIn_set]
    exact ⟨tokens, tree, htokens, htree, rfl⟩
  · obtain ⟨tree, htree⟩ := hbuild tokens htokens
    simp only [Edit.endsIn_bind, Edit.endsIn_get, hsome, Option.isNone_some, Bool.false_eq_true,
      if_false, Option.getD_some, htree, Edit.endsIn_ofExcept_ok, Edit.endsIn_set]
    exact ⟨tokens, tree, htokens, htree, rfl⟩

/-- A call on a current equation does its work, or the text is refused and nothing changes. -/
theorem IsCurrent.endsIn_run (he : e.IsCurrent) (call : Call) : call.run.EndsIn e
    (fun answer e' => call.Gives e answer e')
    fun fault e' => e' = e ∧ Equation.validate e.text.toList = .error fault := by
  cases call with
  | change text => exact ⟨rfl, rfl⟩
  | validate =>
    apply Edit.endsIn_bind.2
    exact (endsIn_validate e).imp (fun _ e' h => ⟨rfl, h⟩) fun _ _ h => h
  | generate =>
    apply Edit.endsIn_bind.2
    exact he.endsIn_generate.imp (fun _ e' h => ⟨rfl, h⟩) fun _ _ h => h
  | read => exact ⟨rfl, rfl⟩

/-- A call that succeeds leaves an equation current, with the text that is given last. -/
theorem Call.Gives.isCurrent {call : Call} {answer : Option Datum} (he : e.IsCurrent)
    (hgives : call.Gives e answer e') : e'.IsCurrent ∧ e'.text = call.textFrom e.text := by
  cases call with
  | change text =>
    obtain ⟨-, rfl⟩ := hgives
    exact ⟨isCurrent_ofText text, rfl⟩
  | validate =>
    obtain ⟨-, tokens, htokens, rfl⟩ := hgives
    refine ⟨⟨.inr ⟨tokens, rfl, htokens⟩, ?_⟩, rfl⟩
    -- a tree from before comes from tokens of the same text
    obtain hempty | ⟨tokens', hsome, htree⟩ := he.tree
    · exact .inl hempty
    · obtain hnone | ⟨tokens'', hsome', htokens'⟩ := he.tokens
      · rw [hnone] at hsome
        cases hsome
      · have h : tokens' = tokens := by
          rw [hsome'] at hsome
          rw [htokens'] at htokens
          cases hsome
          cases htokens
          rfl
        exact .inr ⟨tokens, rfl, h ▸ htree⟩
  | generate =>
    obtain ⟨-, tokens, tree, htokens, htree, rfl⟩ := hgives
    exact ⟨⟨.inr ⟨tokens, rfl, htokens⟩, .inr ⟨tokens, rfl, htree⟩⟩, rfl⟩
  | read =>
    obtain ⟨-, rfl⟩ := hgives
    exact ⟨he, rfl⟩

/-- A call leaves an equation current, whether it succeeds or fails. Only a text that is given can
be a new one. -/
theorem IsCurrent.outcome (he : e.IsCurrent) (call : Call) :
    (call.run.outcome e).2.IsCurrent ∧ (call.run.outcome e).2.text = call.textFrom e.text := by
  have hends : call.run.EndsIn e (fun _ e' => e'.IsCurrent ∧ e'.text = call.textFrom e.text)
      fun _ e' => e'.IsCurrent ∧ e'.text = call.textFrom e.text := by
    cases call with
    | change text => exact ⟨isCurrent_ofText text, rfl⟩
    | _ =>
      refine (he.endsIn_run _).imp (fun answer e' hgives => hgives.isCurrent he) ?_
      rintro fault e' ⟨rfl, -⟩
      exact ⟨he, rfl⟩
  exact hends.outcome

/-! ## Every sequence of calls -/

theorem IsCurrent.after (he : e.IsCurrent) (calls : List Call) :
    (after calls e).IsCurrent ∧ (after calls e).text = calls.foldl Call.textFrom e.text := by
  induction calls generalizing e with
  | nil => exact ⟨he, rfl⟩
  | cons call calls ih =>
    obtain ⟨hcurrent, htext⟩ := he.outcome call
    have h := ih hcurrent
    rw [htext] at h
    exact h

/-- Whatever was called on an equation, it has the text that was given last, and its tokens and its
tree are missing or those of that text. From there a call that succeeds works from that text, and a
call that fails changes nothing and means that the text is refused. -/
theorem isCurrent_after (text : String) (calls : List Call) :
    (after calls (ofText text)).text = calls.foldl Call.textFrom text ∧
    (after calls (ofText text)).IsCurrent ∧
    ∀ call : Call,
      (∀ answer e', call.run (after calls (ofText text)) = .ok answer e' →
        call.Gives (after calls (ofText text)) answer e') ∧
      ∀ fault e', call.run (after calls (ofText text)) = .error fault e' →
        e' = after calls (ofText text) ∧
        Equation.validate (calls.foldl Call.textFrom text).toList = .error fault := by
  obtain ⟨hcurrent, htext⟩ := (isCurrent_ofText text).after calls
  refine ⟨htext, hcurrent, fun call => ⟨fun answer e' hrun => ?_, fun fault e' hrun => ?_⟩⟩
  · exact (hcurrent.endsIn_run call).of_ok hrun
  · obtain ⟨hstate, hfault⟩ := (hcurrent.endsIn_run call).of_error hrun
    rw [htext] at hfault
    exact ⟨hstate, hfault⟩

/-- A text that is refused after one that was worked out. -/
example : after [.generate, .change "a-", .generate, .validate] (ofText "a∪b") = ofText "a-" := by
  with_unfolding_all rfl

end SetEquation
end VoxelAlgebra
