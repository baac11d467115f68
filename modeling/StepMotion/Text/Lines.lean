/-! The lines of a text. Each ends at a line feed; what follows the last line feed is a line if it
has a character. So a text that is cut after a line feed falls into the lines of its two parts. -/
namespace StepMotion.Text

def lines : List Char → List (List Char)
  | [] => []
  | c :: cs =>
    if c = '\n' then [] :: lines cs
    else match lines cs with
      | [] => [[c]]
      | line :: rest => (c :: line) :: rest

theorem lines_cons_ne_nil (c : Char) (cs : List Char) : lines (c :: cs) ≠ [] := by
  rw [lines]
  split
  · simp
  · split <;> simp

theorem lines_append_newline (cs ds : List Char) :
    lines (cs ++ '\n' :: ds) = lines (cs ++ ['\n']) ++ lines ds := by
  induction cs with
  | nil => simp [lines]
  | cons c cs ih =>
    by_cases h : c = '\n'
    · simp [lines, h, ih]
    · obtain ⟨line, rest, hl⟩ : ∃ line rest, lines (cs ++ ['\n']) = line :: rest := by
        cases cs with
        | nil => exact ⟨[], [], by simp [lines]⟩
        | cons d cs => exact List.exists_cons_of_ne_nil (lines_cons_ne_nil d _)
      simp [lines, h, ih, hl]

end StepMotion.Text
