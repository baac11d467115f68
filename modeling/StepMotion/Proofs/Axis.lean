import Mathlib
import StepMotion.Register

/-! The letters of the axes in either case, and what a register holds once a list of values has been
written over it. -/
namespace StepMotion

section Letters

theorem toUpper_eq_iff {letter capital : Char} (h : capital.toUpper = capital) :
    letter.toUpper = capital ↔ letter = capital ∨ letter = capital.toLower := by
  constructor
  · rintro rfl
    by_cases hlower : letter.isLower
    · have hkept : letter.toLower = letter :=
        Char.toLower_eq_of_not_isUpper (Char.not_isUpper_of_isLower hlower)
      exact .inr (by rw [Char.toLower_toUpper_eq_toLower, hkept])
    · exact .inl (Char.toUpper_eq_of_not_isLower hlower).symm
  · rintro (rfl | rfl)
    · exact h
    · rw [Char.toUpper_toLower_eq_toUpper, h]

theorem Axis.ofLetter?_eq_some_iff {letter : Char} {axis : Axis} :
    ofLetter? letter = some axis ↔ letter = axis.letter ∨ letter = axis.letter.toLower := by
  constructor
  · intro h
    have hcapital : axis.letter.toUpper = axis.letter := by cases axis <;> rfl
    exact (toUpper_eq_iff hcapital).mp (letter_of_ofLetter? h).symm
  · rintro (rfl | rfl)
    · exact ofLetter?_letter axis
    · cases axis <;> decide

theorem Axis.ofLetter?_eq_some_and_isUpper {letter : Char} {axis : Axis} :
    ofLetter? letter = some axis ∧ letter.isUpper ↔ letter = axis.letter := by
  rw [ofLetter?_eq_some_iff]
  constructor
  · rintro ⟨rfl | rfl, hupper⟩
    · rfl
    · cases axis <;> contradiction
  · rintro rfl
    exact ⟨.inl rfl, by cases axis <;> decide⟩

/-- No axis has the letter of feedrates. -/
theorem Axis.toUpper_ne_of_ofLetter? {letter : Char} {axis : Axis}
    (h : ofLetter? letter = some axis) : letter.toUpper ≠ 'F' := by
  rw [← letter_of_ofLetter? h]
  cases axis <;> decide

end Letters

namespace Register

variable {α : Type}

theorem get_override (r : Register α) (values : List (Axis × α)) (axis : Axis) :
    r.override values axis =
      ((values.filter fun entry => entry.1 = axis).getLast?.map Prod.snd).getD (r axis) := by
  induction values using List.reverseRecOn with
  | nil => rfl
  | append_singleton rest entry ih =>
    have hlast : r.override (rest ++ [entry]) = (r.override rest).set entry.1 entry.2 :=
      List.foldl_concat ..
    rw [hlast, get_set, List.filter_append]
    by_cases haxis : entry.1 = axis
    · simp [haxis]
    · simp [haxis, Ne.symm haxis, ih]

theorem override_cases (r : Register α) (values : List (Axis × α)) (axis : Axis) :
    r.override values axis = r axis ∨ (axis, r.override values axis) ∈ values := by
  rw [get_override]
  cases hlast : (values.filter fun entry => entry.1 = axis).getLast? with
  | none => exact .inl rfl
  | some entry =>
    have hmem := List.mem_of_getLast? hlast
    rw [List.mem_filter, decide_eq_true_eq] at hmem
    obtain ⟨hmem, rfl⟩ := hmem
    exact .inr hmem

end Register
end StepMotion
