import VoxelAlgebra.Proofs.Equation.Neighbours

/-!
# What the checks of an equation decide

Every check either passes, and then its condition holds of the text, or it refuses the text with a
report on the form of the equation that points into the text, and then the condition fails.

## Main definitions

* `Report.PointsInto` — a report on the form of a text, with a column inside it or none.
* `Decides` — a check passes exactly the texts with a property and reports the others.
* `IsWellFormed`, `check_decides` — the property that all checks together decide.
-/

namespace VoxelAlgebra

def Report.IsOnForm : Report → Prop
  | invalidCharacter .. | invalidNegation .. | invalidEnding .. | invalidJunction ..
  | unbalancedGrouping .. => True
  | _ => False

/-- A report on the form of a text that shows the text; its column, if any, is a place in it. -/
def Report.PointsInto (text : List Char) (r : Report) : Prop :=
  r.IsOnForm ∧ r.source = some (String.ofList text) ∧
    ∀ column ∈ r.column, 0 ≤ column ∧ column < text.length

namespace Equation

/-- The check passes if `P` holds, and otherwise gives a report that points into the text. -/
def Decides (text : List Char) (P : Prop) (outcome : Except Fault Unit) : Prop :=
  (P ∧ outcome = .ok ()) ∨ (¬ P ∧ ∃ r : Report, r.PointsInto text ∧ outcome = .error (.report r))

theorem Decides.and_then {text : List Char} {P Q : Prop} {first second : Except Fault Unit}
    (hfirst : Decides text P first) (hsecond : Decides text Q second) :
    Decides text (P ∧ Q) (do first; second) := by
  obtain ⟨hP, rfl⟩ | ⟨hP, r, hr, rfl⟩ := hfirst
  · obtain ⟨hQ, rfl⟩ | ⟨hQ, r, hr, rfl⟩ := hsecond
    · exact .inl ⟨⟨hP, hQ⟩, rfl⟩
    · exact .inr ⟨fun h => hQ h.2, r, hr, rfl⟩
  · exact .inr ⟨fun h => hP h.1, r, hr, rfl⟩

theorem Decides.congr {text : List Char} {P Q : Prop} {outcome : Except Fault Unit}
    (h : Decides text P outcome) (hPQ : P ↔ Q) : Decides text Q outcome :=
  propext hPQ ▸ h

/-- A check that reports the column at which it finds a mistake. -/
theorem Decides.of_column {text : List Char} {found : Option Nat} {outcome : Except Fault Unit}
    (report : Nat → Report) (hnone : found = none → outcome = .ok ())
    (hsome : ∀ column, found = some column → outcome = .error (.report (report column)))
    (hreport : ∀ column, found = some column → (report column).PointsInto text) :
    Decides text (found = none) outcome := by
  cases hfound : found with
  | none => exact .inl ⟨rfl, hnone hfound⟩
  | some column => exact .inr ⟨nofun, _, hreport column hfound, hsome column hfound⟩

theorem pointsInto_of_lt {text : List Char} {r : Report} {column : Nat} (hform : r.IsOnForm)
    (hsource : r.source = some (String.ofList text)) (hcolumn : r.column = some (column : Int))
    (hlt : column < text.length) : r.PointsInto text := by
  refine ⟨hform, hsource, fun n hn => ?_⟩
  rw [hcolumn, Option.mem_some_iff] at hn
  omega

/-! ## The single checks -/

theorem checkCharacters_decides (text : List Char) :
    Decides text (∀ c ∈ text, isEquationChar c) (checkCharacters text) := by
  have h : Decides text (text.findIdx? (!isEquationChar ·) = none) (checkCharacters text) := by
    refine .of_column (fun column => .invalidCharacter
      (String.ofList (text.drop column |>.take 1)) (String.ofList text) column) ?_ ?_ ?_
    · intro h
      simp only [checkCharacters, h]
      rfl
    · intro column h
      simp only [checkCharacters, h]
      rfl
    · intro column h
      exact pointsInto_of_lt trivial rfl rfl (List.findIdx?_eq_some_iff_getElem.1 h).1
  exact h.congr (by simp [List.findIdx?_eq_none_iff])

theorem negatedPair_decides {text : List Char} {b : Char} {outcome : Except Fault Unit}
    (detail : String)
    (hnone : columnOfPair? Symbol.negation b text = none → outcome = .ok ())
    (hsome : ∀ column, columnOfPair? Symbol.negation b text = some column →
      outcome = .error (.report (.invalidNegation detail (String.ofList text) column))) :
    Decides text (columnOfPair? Symbol.negation b text = none) outcome :=
  .of_column (fun column => .invalidNegation detail (String.ofList text) column) hnone hsome
    fun _ h => pointsInto_of_lt trivial rfl rfl (columnOfPair?_lt h)

theorem checkNegatedClosing_decides (text : List Char) :
    Decides text (columnOfPair? Symbol.negation Symbol.closing text = none)
      (checkNegatedClosing text) :=
  negatedPair_decides _ (fun h => by simp only [checkNegatedClosing, h]; rfl)
    fun column h => by simp only [checkNegatedClosing, h]; rfl

theorem checkNegatedOperator_decides (op : Char) (text : List Char) :
    Decides text (columnOfPair? Symbol.negation op text = none) (checkNegatedOperator op text) :=
  negatedPair_decides _ (fun h => by simp only [checkNegatedOperator, h]; rfl)
    fun column h => by simp only [checkNegatedOperator, h]; rfl

theorem checkGrouping_decides (text : List Char) :
    Decides text (Closes 0 text) (checkGrouping text) := by
  have hiff := closes_iff 0 text
  unfold checkGrouping
  cases hstray : strayClosing? 0 text with
  | some column =>
    refine .inr ⟨fun h => ?_, _, ?_, rfl⟩
    · simpa [hstray] using (hiff.1 h).1
    · exact pointsInto_of_lt trivial rfl rfl (strayClosing?_lt hstray)
  | none =>
    by_cases hcount : text.count Symbol.opening = text.count Symbol.closing
    · exact .inl ⟨hiff.2 ⟨hstray, by omega⟩, by simp [hcount]; rfl⟩
    · refine .inr ⟨fun h => hcount (by have := (hiff.1 h).2; omega),
        .unbalancedGrouping (text.count Symbol.opening) (text.count Symbol.closing)
          (String.ofList text) none, ⟨trivial, rfl, nofun⟩, ?_⟩
      simp only [hcount, if_false]
      rfl

theorem checkEnding_decides (text : List Char) :
    Decides text (∀ c ∈ text.getLast?, isEndingChar c) (checkEnding text) := by
  unfold checkEnding
  cases hlast : text.getLast? with
  | none => exact .inl ⟨nofun, rfl⟩
  | some c =>
    have hpos : 0 < text.length := by
      cases text with
      | nil => cases hlast
      | cons => exact Nat.succ_pos _
    by_cases hc : isEndingChar c
    · exact .inl ⟨by simpa using hc, by simp [hc]; rfl⟩
    · refine .inr ⟨by simpa using hc, .invalidEnding (String.singleton c) (String.ofList text),
        ⟨trivial, rfl, fun n hn => ?_⟩, by simp only [hc]; rfl⟩
      simp only [Report.column, Option.mem_some_iff, String.length_ofList] at hn
      omega

theorem checkJunctions_decides (text : List Char) :
    Decides text (Fits none (kinds text)) (checkJunctions text) := by
  have hiff := badJunction?_eq_none_iff none (pieces text)
  rw [map_kind_pieces] at hiff
  unfold checkJunctions
  cases hbad : badJunction? none (pieces text) with
  | none => exact .inl ⟨hiff.1 hbad, rfl⟩
  | some found =>
    obtain ⟨before, p⟩ := found
    refine .inr ⟨fun h => ?_, _, ?_, rfl⟩
    · simpa [hbad] using hiff.2 h
    · exact pointsInto_of_lt trivial rfl rfl (column_lt_of_badJunction? hbad)

/-! ## All checks -/

/-- What all checks together demand of a text. -/
structure IsWellFormed (text : List Char) : Prop where
  characters : ∀ c ∈ text, isEquationChar c
  attachable : text.IsChain Attachable
  closes : Closes 0 text
  ending : ∀ c ∈ text.getLast?, isEndingChar c
  fits : Fits none (kinds text)

theorem check_decides (text : List Char) : Decides text (IsWellFormed text) (check text) := by
  have h := (checkCharacters_decides text).and_then <|
    (checkNegatedClosing_decides text).and_then <| (checkGrouping_decides text).and_then <|
    (checkEnding_decides text).and_then <|
    (checkNegatedOperator_decides Symbol.diff text).and_then <|
    (checkNegatedOperator_decides Symbol.symmDiff text).and_then <| checkJunctions_decides text
  refine h.congr ⟨fun ⟨hc, hn, hg, he, hd, hs, hj⟩ => ?_, fun hw => ?_⟩
  · exact ⟨hc, (isChain_attachable_iff text).2 ⟨hn, hd, hs⟩, hg, he, hj⟩
  · obtain ⟨hn, hd, hs⟩ := (isChain_attachable_iff text).1 hw.attachable
    exact ⟨hw.characters, hn, hw.closes, hw.ending, hd, hs, hw.fits⟩

end Equation
end VoxelAlgebra
