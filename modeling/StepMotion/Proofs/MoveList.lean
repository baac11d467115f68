import Mathlib
import StepMotion.Proofs.MoveList.Language

/-! What the lines of a move list ask for: the kind and the feedrate of a request are those of the
words on its line, and the requests of a list come from its lines one after the other. -/
namespace StepMotion

theorem getLast?_filterMap_cons {α β : Type} (found? : α → Option β) (head : α) (rest : List α)
    (initial : Option β) : ((head :: rest).filterMap found?).getLast?.or initial =
      (rest.filterMap found?).getLast?.or ((found? head).or initial) := by
  rw [List.filterMap_cons]
  cases found? head with
  | none => rfl
  | some value =>
    rw [List.getLast?_cons]
    cases (rest.filterMap found?).getLast? <;> rfl

namespace MoveRequest

def isRapidWord (word : List Char) : Bool := word.map Char.toUpper = ['R']

def feedOf? : List Char → Option Float
  | letter :: value => if letter.toUpper = 'F' then number? value else none
  | [] => none

def asksRapid (line : List Char) : Bool := (wordsOfLine line).any isRapidWord

def feedsOf (line : List Char) : List Float := (wordsOfLine line).filterMap feedOf?

section Words

theorem Spells.isRapidWord {word : List Char} {phrase : Phrase} (h : Spells word phrase) :
    MoveRequest.isRapidWord word = true ↔ phrase = .rapid := by
  rw [MoveRequest.isRapidWord, decide_eq_true_iff, List.map_eq_singleton_iff]
  constructor
  · rintro ⟨letter, rfl, hletter⟩
    cases h with
    | rapid => rfl
    | feedrate _ hread => rw [read?_nil] at hread; contradiction
    | target _ hread => rw [read?_nil] at hread; contradiction
  · rintro rfl
    obtain ⟨h⟩ := h
    exact ⟨_, rfl, (toUpper_eq_iff rfl).mpr h⟩

theorem Spells.feedOf? {word : List Char} {phrase : Phrase} (h : Spells word phrase) :
    MoveRequest.feedOf? word = phrase.feedrate? := by
  cases h with
  | rapid h => rcases h with rfl | rfl <;> rfl
  | feedrate h hread hfinite =>
    rw [MoveRequest.feedOf?, if_pos ((toUpper_eq_iff rfl).mpr h)]
    exact number?_eq_some_iff.mpr ⟨hread, hfinite⟩
  | target h =>
    exact if_neg (Axis.toUpper_ne_of_ofLetter? (Axis.ofLetter?_eq_some_iff.mpr h))

variable {words : List (List Char)} {phrases : List Phrase}

theorem any_isRapidWord (h : List.Forall₂ Spells words phrases) :
    words.any isRapidWord = true ↔ .rapid ∈ phrases := by
  induction h with
  | nil => simp
  | cons hword _ ih =>
    rw [List.any_cons, Bool.or_eq_true, hword.isRapidWord, ih, List.mem_cons, eq_comm]

theorem filterMap_feedOf? (h : List.Forall₂ Spells words phrases) :
    words.filterMap feedOf? = phrases.filterMap Phrase.feedrate? := by
  induction h with
  | nil => rfl
  | cons hword _ ih => rw [List.filterMap_cons, List.filterMap_cons, hword.feedOf?, ih]

end Words

section Lines

variable {number : Nat} {line : List Char} {request : MoveRequest}

theorem feedsOf_of_none (h : ofLine? number line = .ok none) : feedsOf line = [] := by
  have hblank : BlankLine line := by
    by_contra hfull
    obtain ⟨request, hsome, -⟩ := asks_of_ofLine? h hfull
    contradiction
  rw [feedsOf, wordsOfLine_eq_nil_iff.mpr hblank, List.filterMap_nil]

/-- What a line says of the kind and of the feedrate. -/
structure Reads (number : Nat) (line : List Char) (request : MoveRequest) : Prop where
  sameLine : request.line = number
  rapid : request.kind = .rapid ↔ asksRapid line = true
  home : request.kind = .home → request.feedrate = none
  feedrate : request.feedrate = (feedsOf line).getLast?

theorem Asks.reads (h : Asks number line request) : Reads number line request := by
  cases h with
  | home h hwords =>
    rcases h with rfl | rfl <;>
      exact ⟨rfl, by simp [asksRapid, hwords, isRapidWord], fun _ => rfl,
        by simp [feedsOf, hwords, feedOf?]⟩
  | @move phrases h =>
    have hrapid : asksRapid line = true ↔ .rapid ∈ phrases := any_isRapidWord h
    have hfeeds : feedsOf line = phrases.filterMap Phrase.feedrate? := filterMap_feedOf? h
    refine ⟨rfl, ?_, ?_, by rw [hfeeds]; rfl⟩
    · rw [hrapid, ofPhrases]
      by_cases hmem : .rapid ∈ phrases <;> simp [hmem]
    · rw [ofPhrases]
      by_cases hmem : .rapid ∈ phrases <;> simp [hmem]

theorem reads_of_ofLine? (h : ofLine? number line = .ok (some request)) :
    Reads number line request := by
  have hfull : ¬ BlankLine line := by
    intro hblank
    rw [ofLine?_of_blank hblank] at h
    cases Except.ok.inj h
  obtain ⟨_, hsame, hasks⟩ := asks_of_ofLine? h hfull
  obtain rfl := Option.some.inj hsame
  exact hasks.reads

def told? (request : MoveRequest) : Option Float :=
  if request.kind = .coordinated then request.feedrate else none

/-- A rapid line tells of no feedrate, whatever stands on it. -/
theorem Reads.told? (h : Reads number line request) :
    request.told? = if asksRapid line then none else (feedsOf line).getLast? := by
  unfold MoveRequest.told?
  cases hkind : request.kind with
  | coordinated =>
    have hslow : ¬ asksRapid line = true := by
      rw [← h.rapid, hkind]
      decide
    rw [if_pos rfl, if_neg hslow, h.feedrate]
  | rapid => rw [if_pos (h.rapid.mp hkind)]; rfl
  | home => rw [if_neg (by decide), ← h.feedrate, h.home hkind, ite_self]

end Lines

end MoveRequest

namespace MoveList

open MoveRequest

variable {first : Nat} {lines : List (List Char)} {requests : List MoveRequest}

theorem ofLines_split {done rest : List MoveRequest} {request : MoveRequest}
    (h : ofLines first lines = .ok (done ++ request :: rest)) :
    ∃ before line after, lines = before ++ line :: after ∧ ofLines first before = .ok done ∧
      ofLine? (first + before.length) line = .ok (some request) := by
  induction lines generalizing first done with
  | nil => simp [ofLines] at h
  | cons line others ih =>
    obtain ⟨request?, later, hline, hlater, hsplit⟩ := ofLines_cons_iff.mp h
    -- Either this is the line, or the request is one of the later ones.
    obtain ⟨rfl, hfirst⟩ | ⟨earlier, hdone, hrest⟩ :
        (done = [] ∧ request? = some request) ∨
          ∃ earlier, done = request?.toList ++ earlier ∧ later = earlier ++ request :: rest := by
      cases request? with
      | none => exact .inr ⟨done, rfl, hsplit.symm⟩
      | some head =>
        cases done with
        | nil => exact .inl ⟨rfl, congrArg some (List.cons.inj hsplit).1.symm⟩
        | cons head' earlier =>
          obtain ⟨rfl, hsame⟩ := List.cons.inj hsplit
          exact .inr ⟨earlier, rfl, hsame.symm⟩
    · exact ⟨[], line, others, rfl, rfl, by rwa [hfirst] at hline⟩
    · rw [hrest] at hlater
      obtain ⟨before, found, after, rfl, hbefore, hfound⟩ := ih hlater
      have hplace : first + (line :: before).length = first + 1 + before.length := by
        rw [List.length_cons, Nat.add_assoc, Nat.add_comm 1]
      refine ⟨line :: before, found, after, rfl, ?_, by rwa [hplace]⟩
      rw [ofLines, hline, hbefore, hdone]
      rfl

def feedrateOf? (lines : List (List Char)) : Option Float := (lines.flatMap feedsOf).getLast?

def unhurried (lines : List (List Char)) : List (List Char) :=
  lines.filter fun line => !asksRapid line

theorem feedrateOf?_append (first second : List (List Char)) :
    feedrateOf? (first ++ second) = (feedrateOf? second).or (feedrateOf? first) := by
  rw [feedrateOf?, List.flatMap_append, List.getLast?_append]
  rfl

theorem unhurried_cons (line : List Char) (lines : List (List Char)) :
    unhurried (line :: lines) = unhurried [line] ++ unhurried lines :=
  List.filter_append [line] lines

/-- Without a feedrate on a rapid line, every feedrate stands on a line that is not. -/
theorem feedrateOf?_unhurried (h : ∀ line ∈ lines, asksRapid line = true → feedsOf line = []) :
    feedrateOf? (unhurried lines) = feedrateOf? lines := by
  induction lines with
  | nil => rfl
  | cons line others ih =>
    rw [List.forall_mem_cons] at h
    have hline : feedrateOf? (unhurried [line]) = feedrateOf? [line] := by
      cases hrapid : asksRapid line <;> simp [feedrateOf?, unhurried, hrapid, h.1]
    rw [unhurried_cons, feedrateOf?_append, ih h.2, hline, ← feedrateOf?_append]
    rfl

theorem told?_of_line {number : Nat} {line : List Char} {request? : Option MoveRequest}
    (h : ofLine? number line = .ok request?) :
    request?.bind told? = feedrateOf? (unhurried [line]) := by
  cases request? with
  | none =>
    have hfeeds := feedsOf_of_none h
    cases hrapid : asksRapid line <;> simp [feedrateOf?, unhurried, hrapid, hfeeds]
  | some request =>
    rw [Option.bind_some, (reads_of_ofLine? h).told?]
    cases hrapid : asksRapid line <;> simp [feedrateOf?, unhurried, hrapid]

theorem getLast?_told (h : ofLines first lines = .ok requests) :
    (requests.filterMap told?).getLast? = feedrateOf? (unhurried lines) := by
  induction lines generalizing first requests with
  | nil =>
    obtain rfl := Except.ok.inj h
    rfl
  | cons line others ih =>
    obtain ⟨request?, later, hline, hlater, rfl⟩ := ofLines_cons_iff.mp h
    have hhead : (request?.toList.filterMap told?).getLast? = request?.bind told? := by
      cases request? with
      | none => rfl
      | some request => cases htold : request.told? <;> simp [htold]
    rw [List.filterMap_append, List.getLast?_append, ih hlater, hhead, told?_of_line hline,
      unhurried_cons line others, feedrateOf?_append]

def linesTo (text : String) (number : Nat) : List (List Char) :=
  (Text.lines text.toList).take number

theorem told?_of_parse {text : String} {done rest : List MoveRequest} {request : MoveRequest}
    (h : parse text = .ok (done ++ request :: rest)) :
    request.told?.or (done.filterMap told?).getLast? =
      feedrateOf? (unhurried (linesTo text request.line)) := by
  obtain ⟨before, line, after, hlines, hdone, hrequest⟩ := ofLines_split h
  have hlast : before.length + 1 = request.line := by
    rw [(reads_of_ofLine? hrequest).sameLine, Nat.add_comm]
  have hupTo : linesTo text request.line = before ++ [line] := by
    rw [linesTo, hlines, ← hlast, List.take_length_add_append]
    rfl
  have hsplit : unhurried (before ++ [line]) = unhurried before ++ unhurried [line] :=
    List.filter_append before [line]
  rw [hupTo, hsplit, feedrateOf?_append, ← told?_of_line hrequest, ← getLast?_told hdone]
  rfl

end MoveList
end StepMotion
