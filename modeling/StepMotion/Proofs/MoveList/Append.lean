import Mathlib
import StepMotion.Proofs.MoveList.Language

/-! Move lists are read line by line. What a line asks for does not depend on the lines before it,
which only count for its number; so a list that is cut at the end of a line is read in its two
parts, and the first line that is wrong decides on the error. -/
namespace StepMotion

namespace Text

/-- Nothing stands behind the last line feed. -/
def EndsLine (cs : List Char) : Prop := cs = [] ∨ ∃ front, cs = front ++ ['\n']

theorem lines_append {cs : List Char} (h : EndsLine cs) (ds : List Char) :
    lines (cs ++ ds) = lines cs ++ lines ds := by
  obtain rfl | ⟨front, rfl⟩ := h
  · rfl
  · rw [List.append_assoc, List.singleton_append, lines_append_newline]

end Text

namespace MoveListError

def line : MoveListError → Nat
  | .invalidWord line _ => line
  | .invalidNumber line _ => line
  | .homeWithMove line => line

/-- The same error on a line that stands further down by a number of lines. -/
def lower (count : Nat) : MoveListError → MoveListError
  | .invalidWord line word => .invalidWord (count + line) word
  | .invalidNumber line word => .invalidNumber (count + line) word
  | .homeWithMove line => .homeWithMove (count + line)

end MoveListError

namespace MoveRequest

def lower (count : Nat) (request : MoveRequest) : MoveRequest :=
  { request with line := count + request.line }

def lowered {α : Type} (count : Nat) (lower : α → α) (answer : Except MoveListError α) :
    Except MoveListError α :=
  (answer.map lower).mapError (·.lower count)

section Lowered

variable {α β : Type} (count : Nat) (lower : α → α)

theorem lowered_bind (lower' : β → β) (first : Except MoveListError α)
    {next next' : α → Except MoveListError β}
    (h : ∀ value, next' (lower value) = lowered count lower' (next value)) :
    lowered count lower first >>= next' = lowered count lower' (first >>= next) := by
  cases first with
  | error error => rfl
  | ok value => exact h value

end Lowered

theorem addWord_lower (count : Nat) (request : MoveRequest) (word : List Char) :
    addWord (request.lower count) word = lowered count (lower count) (addWord request word) := by
  match word with
  | [] => rfl
  | [letter] =>
    simp only [addWord]
    split <;> rfl
  | letter :: first :: rest =>
    simp only [addWord]
    cases number? (first :: rest) with
    | none => rfl
    | some number =>
      dsimp only
      split
      · rfl
      · cases Axis.ofLetter? letter <;> rfl

theorem foldlM_addWord_lower (count : Nat) (request : MoveRequest) (words : List (List Char)) :
    words.foldlM addWord (request.lower count) =
      lowered count (lower count) (words.foldlM addWord request) := by
  induction words generalizing request with
  | nil => rfl
  | cons word rest ih =>
    rw [List.foldlM_cons, List.foldlM_cons, addWord_lower]
    exact lowered_bind count (lower count) (lower count) _ ih

/-- Where a line stands matters only to its number. -/
theorem ofLine?_lower (count number : Nat) (line : List Char) :
    ofLine? (count + number) line =
      lowered count (Option.map (lower count)) (ofLine? number line) := by
  unfold ofLine?
  dsimp only
  split
  · rfl
  · split
    · split <;> rfl
    · have hwords := foldlM_addWord_lower count { line := number } (wordsOfLine line)
      change ((wordsOfLine line).foldlM addWord (lower count { line := number })).map some = _
      rw [hwords]
      cases (wordsOfLine line).foldlM addWord { line := number } <;> rfl

theorem exists_ofLine?_iff {number : Nat} {line : List Char} :
    (∃ request?, ofLine? number line = .ok request?) ↔ WellFormed line := by
  by_cases hblank : BlankLine line
  · exact iff_of_true ⟨none, ofLine?_of_blank hblank⟩ (.blank hblank)
  · rw [← @wellFormed_iff number line hblank]
    constructor
    · rintro ⟨request?, hline⟩
      obtain ⟨request, -, hasks⟩ := asks_of_ofLine? hline hblank
      exact ⟨request, hasks⟩
    · rintro ⟨request, hasks⟩
      exact ⟨some request, ofLine?_of_asks hblank hasks⟩

def lineOf : Except MoveListError MoveRequest → Nat
  | .ok request => request.line
  | .error error => error.line

theorem lineOf_addWord (request : MoveRequest) (word : List Char) :
    lineOf (addWord request word) = request.line := by
  match word with
  | [] => rfl
  | [letter] =>
    simp only [addWord]
    split <;> rfl
  | letter :: first :: rest =>
    simp only [addWord]
    cases number? (first :: rest) with
    | none => rfl
    | some number =>
      dsimp only
      split
      · rfl
      · cases Axis.ofLetter? letter <;> rfl

theorem lineOf_foldlM_addWord (request : MoveRequest) (words : List (List Char)) :
    lineOf (words.foldlM addWord request) = request.line := by
  induction words generalizing request with
  | nil => rfl
  | cons word rest ih =>
    have hword := lineOf_addWord request word
    rw [List.foldlM_cons]
    cases hnext : addWord request word with
    | error error => rwa [hnext] at hword
    | ok next =>
      rw [hnext] at hword
      exact (ih next).trans hword

theorem line_of_ofLine?_eq_error {number : Nat} {line : List Char} {error : MoveListError}
    (h : ofLine? number line = .error error) : error.line = number := by
  unfold ofLine? at h
  dsimp only at h
  split at h
  · contradiction
  · split at h
    · split at h
      · contradiction
      · rw [← Except.error.inj h]
        rfl
    · have hwords := lineOf_foldlM_addWord { line := number } (wordsOfLine line)
      generalize (wordsOfLine line).foldlM addWord { line := number } = answer at h hwords
      cases answer with
      | ok request => contradiction
      | error other =>
        rw [← Except.error.inj h]
        exact hwords

theorem Asks.line {number : Nat} {line : List Char} {request : MoveRequest}
    (h : Asks number line request) : request.line = number := by
  cases h <;> rfl

end MoveRequest

namespace MoveList

open MoveRequest

theorem ofLines_append (first : Nat) (before after : List (List Char)) :
    ofLines first (before ++ after) = do
      let requests ← ofLines first before
      let others ← ofLines (first + before.length) after
      return requests ++ others := by
  induction before generalizing first with
  | nil =>
    change ofLines first after = ofLines first after >>= fun others => pure others
    exact (bind_pure _).symm
  | cons line rest ih =>
    have hplace : first + (line :: rest).length = first + 1 + rest.length := by
      rw [List.length_cons, Nat.add_assoc, Nat.add_comm 1]
    rw [List.cons_append, ofLines, ofLines, ih, hplace]
    cases ofLine? first line with
    | error error => rfl
    | ok request? =>
      cases ofLines (first + 1) rest with
      | error error => rfl
      | ok requests =>
        change (ofLines (first + 1 + rest.length) after >>= _) >>= _ =
          ofLines (first + 1 + rest.length) after >>= _
        cases ofLines (first + 1 + rest.length) after with
        | error error => rfl
        | ok others => exact congrArg Except.ok (List.append_assoc _ _ _).symm

theorem ofLines_lower (count first : Nat) (lines : List (List Char)) :
    ofLines (count + first) lines =
      lowered count (List.map (lower count)) (ofLines first lines) := by
  induction lines generalizing first with
  | nil => rfl
  | cons line rest ih =>
    rw [ofLines, ofLines, ofLine?_lower]
    refine lowered_bind count _ _ _ fun request? => ?_
    rw [Nat.add_assoc, ih]
    refine lowered_bind count _ _ _ fun requests => ?_
    cases request? <;> rfl

theorem parse_append {front : String} (h : Text.EndsLine front.toList) (back : String) :
    parse (front ++ back) = do
      let requests ← parse front
      let others ← lowered (Text.lines front.toList).length
        (List.map (lower (Text.lines front.toList).length)) (parse back)
      return requests ++ others := by
  have hback := ofLines_lower (Text.lines front.toList).length 1 (Text.lines back.toList)
  rw [parse, String.toList_append, Text.lines_append h, ofLines_append, Nat.add_comm 1, hback]
  rfl

theorem map_line_of_asks {entries : List (List Char × Nat)} {requests : List MoveRequest}
    (h : List.Forall₂ (fun entry => Asks entry.2 entry.1) entries requests) :
    requests.map MoveRequest.line = entries.map Prod.snd := by
  induction h with
  | nil => rfl
  | cons hrequest _ ih => rw [List.map_cons, List.map_cons, hrequest.line, ih]

theorem pairwise_line {first : Nat} {lines : List (List Char)} {requests : List MoveRequest}
    (h : ofLines first lines = .ok requests) :
    (requests.map MoveRequest.line).Pairwise (· < ·) := by
  have hsublist : ((fullLines first lines).map Prod.snd).Sublist
      (List.range' first lines.length) := by
    rw [← List.zipIdx_map_snd first lines]
    exact List.filter_sublist.map Prod.snd
  rw [map_line_of_asks (ofLines_eq_ok_iff.mp h)]
  exact List.Pairwise.sublist hsublist List.pairwise_lt_range'

theorem first_of_ofLines_eq_error {first : Nat} {lines : List (List Char)} {error : MoveListError}
    (h : ofLines first lines = .error error) :
    ∃ before line after, lines = before ++ line :: after ∧ (∀ earlier ∈ before, WellFormed earlier) ∧
      ¬ WellFormed line ∧ ofLine? (first + before.length) line = .error error := by
  induction lines generalizing first with
  | nil => contradiction
  | cons line rest ih =>
    rw [ofLines] at h
    cases hline : ofLine? first line with
    | error other =>
      rw [hline] at h
      obtain rfl : other = error := Except.error.inj h
      refine ⟨[], line, rest, rfl, List.forall_mem_nil _, ?_, hline⟩
      rw [← @exists_ofLine?_iff first line, hline]
      rintro ⟨request?, hread⟩
      contradiction
    | ok request? =>
      rw [hline] at h
      cases hrest : ofLines (first + 1) rest with
      | ok requests => rw [hrest] at h; contradiction
      | error other =>
        rw [hrest] at h
        obtain rfl : other = error := Except.error.inj h
        obtain ⟨before, bad, after, rfl, hbefore, hbad, herror⟩ := ih hrest
        refine ⟨line :: before, bad, after, rfl, ?_, hbad, ?_⟩
        · exact List.forall_mem_cons.mpr ⟨exists_ofLine?_iff.mp ⟨request?, hline⟩, hbefore⟩
        · rwa [List.length_cons, Nat.add_comm before.length, ← Nat.add_assoc]

/-- A list that is cut at the end of a line is read in its two parts: an error in the first is that
of the whole, and otherwise the second decides, its lines counting on from those of the first. So
the requests of a list are in the order of their lines, and an error is on the first line that is
wrong. -/
theorem read_line_by_line (front back : String) (h : Text.EndsLine front.toList) :
    let count := (Text.lines front.toList).length
    (∀ error, parse front = .error error → parse (front ++ back) = .error error) ∧
    (∀ requests, parse front = .ok requests →
      (∀ others, parse back = .ok others →
        parse (front ++ back) = .ok (requests ++ others.map (lower count))) ∧
      ∀ error, parse back = .error error → parse (front ++ back) = .error (error.lower count)) ∧
    ∀ text : String,
      (∀ requests, parse text = .ok requests →
        (requests.map MoveRequest.line).Pairwise (· < ·)) ∧
      ∀ error, parse text = .error error → ∃ before line after,
        Text.lines text.toList = before ++ line :: after ∧
        (∀ earlier ∈ before, WellFormed earlier) ∧ ¬ WellFormed line ∧
        ofLine? (before.length + 1) line = .error error ∧ error.line = before.length + 1 := by
  intro count
  have happend := parse_append h back
  refine ⟨fun error hfront => ?_, fun requests hfront => ⟨fun others hback => ?_,
    fun error hback => ?_⟩, fun text => ⟨fun requests => pairwise_line, fun error herror => ?_⟩⟩
  · rw [happend, hfront]
    rfl
  · rw [happend, hfront, hback]
    rfl
  · rw [happend, hfront, hback]
    rfl
  · obtain ⟨before, line, after, hlines, hbefore, hline, hbad⟩ := first_of_ofLines_eq_error herror
    rw [Nat.add_comm] at hbad
    exact ⟨before, line, after, hlines, hbefore, hline, hbad, line_of_ofLine?_eq_error hbad⟩

theorem read_line_by_line_sample :
    Text.EndsLine "# out\nX1 F5\n".toList ∧
    parse "# out\nX1 F5\n" =
      .ok [{ axes := [(.x, 1.0)], feedrate := some 5.0, line := 2 }] ∧
    parse ("# out\nX1 F5\n" ++ "\nR Y2") = .ok [
      { axes := [(.x, 1.0)], feedrate := some 5.0, line := 2 },
      { kind := .rapid, axes := [(.y, 2.0)], line := 4 }] ∧
    parse ("# out\nX1 F5\n" ++ "\nQ2") = .error (.invalidWord 4 "Q2") := by
  have hends : Text.EndsLine "# out\nX1 F5\n".toList := .inr ⟨"# out\nX1 F5".toList, by decide⟩
  have hfront : parse "# out\nX1 F5\n" =
      .ok [{ axes := [(.x, 1.0)], feedrate := some 5.0, line := 2 }] := by decide +kernel
  refine ⟨hends, hfront, ?_, ?_⟩
  · exact ((read_line_by_line _ "\nR Y2" hends).2.1 _ hfront).1
      [{ kind := .rapid, axes := [(.y, 2.0)], line := 2 }] (by decide +kernel)
  · exact ((read_line_by_line _ "\nQ2" hends).2.1 _ hfront).2 (.invalidWord 2 "Q2")
      (by decide +kernel)

end MoveList
end StepMotion
