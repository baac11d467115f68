import Mathlib
import StepMotion.MoveList
import StepMotion.Proofs.Attempt
import StepMotion.Proofs.Axis
import StepMotion.Proofs.Text.Words

/-! The language of move lists. A line is blank, reports homing or is made of words of three forms,
and says nothing else. A list is read exactly if each of its lines is of this kind, and then there
is one request for each line that is not blank, which holds what its words say. -/
namespace StepMotion

section Sequences

variable {α β : Type} {R : α → β → Prop}

theorem exists_forall₂_iff {xs : List α} :
    (∃ ys, List.Forall₂ R xs ys) ↔ ∀ x ∈ xs, ∃ y, R x y := by
  induction xs with
  | nil => simp
  | cons x rest ih =>
    rw [List.forall_mem_cons, ← ih]
    simp only [List.forall₂_cons_left_iff]
    constructor
    · rintro ⟨_, y, ys, hy, hys, rfl⟩
      exact ⟨⟨y, hy⟩, ys, hys⟩
    · rintro ⟨⟨y, hy⟩, ys, hys⟩
      exact ⟨y :: ys, y, ys, hy, hys, rfl⟩

end Sequences

namespace MoveRequest

section Targets

/-- The last mention of each axis, in the order in which the axes are first mentioned. -/
def lastTargets (mentions : List (Axis × Float)) : List (Axis × Float) :=
  (mentions.map Prod.fst).eraseDups.filterMap fun axis =>
    (mentions.filter fun mention => mention.1 = axis).getLast?

variable {axis : Axis} {value : Float} {axes : List (Axis × Float)}

theorem map_fst_setTarget (axis : Axis) (value : Float) (axes : List (Axis × Float)) :
    (setTarget axis value axes).map Prod.fst =
      if axis ∈ axes.map Prod.fst then axes.map Prod.fst else axes.map Prod.fst ++ [axis] := by
  induction axes with
  | nil => rfl
  | cons entry rest ih =>
    by_cases hsame : entry.1 = axis
    · simp [setTarget, hsame]
    · by_cases hin : axis ∈ rest.map Prod.fst <;> simp_all [setTarget, Ne.symm hsame]

theorem mem_of_mem_setTarget (h : (axes.map Prod.fst).Nodup) {entry : Axis × Float}
    (hentry : entry ∈ setTarget axis value axes) :
    entry = (axis, value) ∨ entry.1 ≠ axis ∧ entry ∈ axes := by
  induction axes with
  | nil => exact .inl (List.mem_singleton.mp hentry)
  | cons head rest ih =>
    obtain ⟨hnew, hrest⟩ := List.nodup_cons.mp h
    by_cases hsame : head.1 = axis
    · rw [setTarget, if_pos hsame] at hentry
      rcases List.mem_cons.mp hentry with hset | hother
      · exact .inl hset
      · refine .inr ⟨fun hentry => hnew ?_, List.mem_cons_of_mem _ hother⟩
        rw [hsame, ← hentry]
        exact List.mem_map_of_mem hother
    · rw [setTarget, if_neg hsame] at hentry
      rcases List.mem_cons.mp hentry with rfl | hother
      · exact .inr ⟨hsame, List.mem_cons_self⟩
      · exact (ih hrest hother).imp id fun ⟨haxis, hmem⟩ => ⟨haxis, List.mem_cons_of_mem _ hmem⟩

structure Collected (mentions axes : List (Axis × Float)) : Prop where
  once : (axes.map Prod.fst).Nodup
  order : axes.map Prod.fst = (mentions.map Prod.fst).eraseDups
  last : ∀ entry ∈ axes,
    (mentions.filter fun mention => mention.1 = entry.1).getLast? = some entry

variable {mentions : List (Axis × Float)}

theorem Collected.setTarget (h : Collected mentions axes) (axis : Axis) (value : Float) :
    Collected (mentions ++ [(axis, value)]) (setTarget axis value axes) where
  once := by
    rw [map_fst_setTarget]
    split
    · exact h.once
    · next hnew => exact List.nodup_append.mpr ⟨h.once, List.nodup_singleton axis, by grind⟩
  order := by
    have hmem : axis ∈ axes.map Prod.fst ↔ axis ∈ mentions.map Prod.fst := by
      rw [h.order, List.mem_eraseDups]
    rw [map_fst_setTarget, List.map_append, List.eraseDups_append, ← h.order]
    by_cases hin : axis ∈ mentions.map Prod.fst
    · rw [if_pos (hmem.mpr hin)]
      simp [List.removeAll, hin]
    · rw [if_neg (mt hmem.mp hin)]
      simp [List.removeAll, hin, List.eraseDups_cons]
  last entry hentry := by
    rcases mem_of_mem_setTarget h.once hentry with rfl | ⟨hother, hmem⟩
    · simp
    · simpa [List.filter_append, Ne.symm hother] using h.last entry hmem

theorem Collected.eq_lastTargets (h : Collected mentions axes) : axes = lastTargets mentions := by
  rw [lastTargets, ← h.order, List.filterMap_map]
  exact ((List.filterMap_congr h.last).trans List.filterMap_some).symm

theorem collected_foldl (mentions : List (Axis × Float)) :
    Collected mentions
      (mentions.foldl (fun axes mention => setTarget mention.1 mention.2 axes) []) := by
  induction mentions using List.reverseRecOn with
  | nil => exact ⟨List.nodup_nil, rfl, by simp⟩
  | append_singleton rest mention ih =>
    rw [List.foldl_concat]
    exact ih.setTarget mention.1 mention.2

end Targets

section Words

inductive Phrase where
  | rapid
  | feedrate (value : Float)
  | target (axis : Axis) (value : Float)
  deriving DecidableEq

namespace Phrase

def feedrate? : Phrase → Option Float
  | .feedrate value => some value
  | _ => none

def target? : Phrase → Option (Axis × Float)
  | .target axis value => some (axis, value)
  | _ => none

def addTo (request : MoveRequest) : Phrase → MoveRequest
  | .rapid => { request with kind := .rapid }
  | .feedrate value => { request with feedrate := some value }
  | .target axis value => { request with axes := setTarget axis value request.axes }

end Phrase

/-- Which words say what: a bare letter, or a letter and then a finite number. -/
inductive Spells : List Char → Phrase → Prop
  | rapid {letter : Char} (h : letter = 'R' ∨ letter = 'r') : Spells [letter] .rapid
  | feedrate {letter : Char} {text : List Char} {value : Float}
      (h : letter = 'F' ∨ letter = 'f') (hread : Decimal.read? text = some value)
      (hfinite : Binary64.isFinite value = true) : Spells (letter :: text) (.feedrate value)
  | target {letter : Char} {axis : Axis} {text : List Char} {value : Float}
      (h : letter = axis.letter ∨ letter = axis.letter.toLower)
      (hread : Decimal.read? text = some value) (hfinite : Binary64.isFinite value = true) :
      Spells (letter :: text) (.target axis value)

variable {request later : MoveRequest} {word : List Char} {phrase : Phrase}

theorem number?_eq_some_iff {text : List Char} {value : Float} :
    number? text = some value ↔
      Decimal.read? text = some value ∧ Binary64.isFinite value = true := by
  simp [number?, Option.filter_eq_some_iff]

theorem read?_nil : Decimal.read? [] = none := by decide +kernel

theorem addWord_of_spells (h : Spells word phrase) :
    addWord request word = .ok (phrase.addTo request) := by
  cases h with
  | rapid h =>
    have hletter := (toUpper_eq_iff rfl).mpr h
    simp [addWord, hletter, Phrase.addTo]
  | @feedrate letter text value h hread hfinite =>
    have hletter := (toUpper_eq_iff rfl).mpr h
    have hnumber := number?_eq_some_iff.mpr ⟨hread, hfinite⟩
    cases text with
    | nil => rw [read?_nil] at hread; contradiction
    | cons first rest => simp [addWord, hnumber, hletter, Phrase.addTo]
  | @target letter axis text value h hread hfinite =>
    have haxis := Axis.ofLetter?_eq_some_iff.mpr h
    have hnumber := number?_eq_some_iff.mpr ⟨hread, hfinite⟩
    cases text with
    | nil => rw [read?_nil] at hread; contradiction
    | cons first rest =>
      simp [addWord, hnumber, haxis, Axis.toUpper_ne_of_ofLetter? haxis, Phrase.addTo]

theorem spells_of_addWord (hword : word ≠ []) (h : addWord request word = .ok later) :
    ∃ phrase, Spells word phrase ∧ later = phrase.addTo request := by
  match word with
  | [letter] =>
    simp only [addWord] at h
    split at h
    · next hrapid => exact ⟨.rapid, .rapid ((toUpper_eq_iff rfl).mp hrapid), (Except.ok.inj h).symm⟩
    · contradiction
  | letter :: first :: rest =>
    simp only [addWord] at h
    split at h
    · contradiction
    · next value hvalue =>
      obtain ⟨hread, hfinite⟩ := number?_eq_some_iff.mp hvalue
      split at h
      · next hfeed =>
        exact ⟨.feedrate value, .feedrate ((toUpper_eq_iff rfl).mp hfeed) hread hfinite,
          (Except.ok.inj h).symm⟩
      · split at h
        · next axis haxis =>
          exact ⟨.target axis value, .target (Axis.ofLetter?_eq_some_iff.mp haxis) hread hfinite,
            (Except.ok.inj h).symm⟩
        · contradiction

theorem foldlM_addWord_eq_ok_iff {words : List (List Char)} (hwords : ∀ word ∈ words, word ≠ []) :
    words.foldlM addWord request = .ok later ↔
      ∃ phrases, List.Forall₂ Spells words phrases ∧ later = phrases.foldl Phrase.addTo request := by
  induction words generalizing request with
  | nil =>
    simp only [List.forall₂_nil_left_iff, exists_eq_left, List.foldl_nil]
    exact ⟨fun h => (Except.ok.inj h).symm, fun h => h ▸ rfl⟩
  | cons word rest ih =>
    obtain ⟨hword, hrest⟩ := List.forall_mem_cons.mp hwords
    simp only [List.foldlM_cons, bind_eq_ok, ih hrest, List.forall₂_cons_left_iff]
    constructor
    · rintro ⟨next, hnext, phrases, hphrases, rfl⟩
      obtain ⟨phrase, hphrase, rfl⟩ := spells_of_addWord hword hnext
      exact ⟨phrase :: phrases, ⟨phrase, phrases, hphrase, hphrases, rfl⟩, rfl⟩
    · rintro ⟨_, ⟨phrase, phrases, hphrase, hphrases, rfl⟩, rfl⟩
      exact ⟨phrase.addTo request, addWord_of_spells hphrase, phrases, hphrases, rfl⟩

def ofPhrases (number : Nat) (phrases : List Phrase) : MoveRequest where
  kind := if .rapid ∈ phrases then .rapid else .coordinated
  axes := lastTargets (phrases.filterMap Phrase.target?)
  feedrate := (phrases.filterMap Phrase.feedrate?).getLast?
  line := number

theorem foldl_addTo (number : Nat) (phrases : List Phrase) :
    phrases.foldl Phrase.addTo { line := number } = ofPhrases number phrases := by
  have hparts : phrases.foldl Phrase.addTo { line := number } =
      { kind := if .rapid ∈ phrases then .rapid else .coordinated
        axes := (phrases.filterMap Phrase.target?).foldl
          (fun axes mention => setTarget mention.1 mention.2 axes) []
        feedrate := (phrases.filterMap Phrase.feedrate?).getLast?
        line := number } := by
    induction phrases using List.reverseRecOn with
    | nil => rfl
    | append_singleton rest phrase ih =>
      rw [List.foldl_concat, ih]
      cases phrase <;>
        simp [Phrase.addTo, Phrase.target?, Phrase.feedrate?, List.filterMap_cons]
  rw [hparts, (collected_foldl _).eq_lastTargets]
  rfl

end Words

section Lines

def BlankLine (line : List Char) : Prop := ∀ c ∈ line.takeWhile (· ≠ '#'), Text.isBlank c = true

instance (line : List Char) : Decidable (BlankLine line) :=
  List.decidableBAll (Text.isBlank · = true) _

/-- What a line can look like. -/
inductive WellFormed (line : List Char) : Prop
  | blank (h : BlankLine line)
  | home {letter : Char} (h : letter = 'H' ∨ letter = 'h') (hwords : wordsOfLine line = [[letter]])
  | move (h : ∀ word ∈ wordsOfLine line, ∃ phrase, Spells word phrase)

/-- The request of a line that is not blank. -/
inductive Asks (number : Nat) (line : List Char) : MoveRequest → Prop
  | home {letter : Char} (h : letter = 'H' ∨ letter = 'h')
      (hwords : wordsOfLine line = [[letter]]) : Asks number line { kind := .home, line := number }
  | move {phrases : List Phrase} (h : List.Forall₂ Spells (wordsOfLine line) phrases) :
      Asks number line (ofPhrases number phrases)

variable {number : Nat} {line : List Char} {request : MoveRequest}

theorem wordsOfLine_eq_nil_iff : wordsOfLine line = [] ↔ BlankLine line := Text.words_eq_nil_iff

theorem ne_nil_of_mem_wordsOfLine {word : List Char} (h : word ∈ wordsOfLine line) : word ≠ [] :=
  Text.ne_nil_of_mem_words h

theorem isHomeWord_iff {word : List Char} :
    isHomeWord word = true ↔ ∃ letter, (letter = 'H' ∨ letter = 'h') ∧ word = [letter] := by
  rw [isHomeWord, decide_eq_true_iff, List.map_eq_singleton_iff]
  constructor
  · rintro ⟨letter, rfl, hletter⟩
    exact ⟨letter, (toUpper_eq_iff rfl).mp hletter, rfl⟩
  · rintro ⟨letter, hletter, rfl⟩
    exact ⟨letter, rfl, (toUpper_eq_iff rfl).mpr hletter⟩

theorem Spells.isHomeWord {word : List Char} {phrase : Phrase} (h : Spells word phrase) :
    MoveRequest.isHomeWord word = false := by
  by_contra hhome
  obtain ⟨letter, hletter, rfl⟩ := isHomeWord_iff.mp (Bool.eq_true_of_not_eq_false hhome)
  cases h with
  | rapid h => rcases hletter with rfl | rfl <;> simp at h
  | feedrate h hread => rw [read?_nil] at hread; contradiction
  | target h hread => rw [read?_nil] at hread; contradiction

theorem asks_of_ofLine? {request? : Option MoveRequest} (h : ofLine? number line = .ok request?)
    (hblank : ¬ BlankLine line) : ∃ request, request? = some request ∧ Asks number line request := by
  unfold ofLine? at h
  dsimp only at h
  rw [if_neg (mt wordsOfLine_eq_nil_iff.mp hblank)] at h
  split at h
  · next hhome =>
    split at h
    · next hsingle =>
      obtain ⟨word, hword⟩ := List.length_eq_one_iff.mp hsingle
      rw [hword, List.any_cons, List.any_nil, Bool.or_false] at hhome
      obtain ⟨letter, hletter, rfl⟩ := isHomeWord_iff.mp hhome
      exact ⟨_, (Except.ok.inj h).symm, .home hletter hword⟩
    · contradiction
  · obtain ⟨later, hlater, hsame⟩ := bind_eq_ok.mp (h : _ >>= (fun later => .ok (some later)) = _)
    obtain ⟨phrases, hphrases, rfl⟩ :=
      (foldlM_addWord_eq_ok_iff fun _ => ne_nil_of_mem_wordsOfLine).mp hlater
    rw [foldl_addTo] at hsame
    exact ⟨_, (Except.ok.inj hsame).symm, .move hphrases⟩

theorem ofLine?_of_asks (hblank : ¬ BlankLine line) (h : Asks number line request) :
    ofLine? number line = .ok (some request) := by
  unfold ofLine?
  dsimp only
  rw [if_neg (mt wordsOfLine_eq_nil_iff.mp hblank)]
  cases h with
  | @home letter h hwords =>
    have hhome : (wordsOfLine line).any MoveRequest.isHomeWord = true := by
      rw [hwords, List.any_cons, isHomeWord_iff.mpr ⟨letter, h, rfl⟩, Bool.true_or]
    rw [if_pos hhome, if_pos (by rw [hwords]; rfl)]
  | @move phrases h =>
    have hother : ¬ (wordsOfLine line).any MoveRequest.isHomeWord = true := by
      rw [List.any_eq_true]
      rintro ⟨word, hword, hhome⟩
      obtain ⟨phrase, hphrase⟩ := exists_forall₂_iff.mp ⟨phrases, h⟩ word hword
      rw [hphrase.isHomeWord] at hhome
      contradiction
    have hread := (foldlM_addWord_eq_ok_iff fun _ => ne_nil_of_mem_wordsOfLine).mpr
      ⟨phrases, h, (foldl_addTo number phrases).symm⟩
    rw [if_neg hother, hread]
    rfl

theorem ofLine?_of_blank (h : BlankLine line) : ofLine? number line = .ok none := by
  rw [ofLine?, if_pos (wordsOfLine_eq_nil_iff.mpr h)]

theorem wellFormed_iff (hblank : ¬ BlankLine line) :
    (∃ request, Asks number line request) ↔ WellFormed line := by
  constructor
  · rintro ⟨_, ⟨h, hwords⟩ | ⟨h⟩⟩
    · exact .home h hwords
    · exact .move (exists_forall₂_iff.mp ⟨_, h⟩)
  · rintro (h | ⟨h, hwords⟩ | h)
    · exact absurd h hblank
    · exact ⟨_, .home h hwords⟩
    · obtain ⟨phrases, hphrases⟩ := exists_forall₂_iff.mpr h
      exact ⟨_, .move hphrases⟩

theorem Asks.entries (h : Asks number line request) :
    (request.axes.map Prod.fst).Nodup ∧
      (∀ entry ∈ request.axes, Binary64.isFinite entry.2 = true) ∧
      ∀ feedrate ∈ request.feedrate, Binary64.isFinite feedrate = true := by
  cases h with
  | home h hwords => exact ⟨List.nodup_nil, by simp, by simp⟩
  | @move phrases h =>
    have hspelled : ∀ phrase ∈ phrases, ∃ word, Spells word phrase :=
      exists_forall₂_iff.mp ⟨_, h.flip⟩
    have htargets := collected_foldl (phrases.filterMap Phrase.target?)
    rw [htargets.eq_lastTargets] at htargets
    refine ⟨htargets.once, fun entry hentry => ?_, fun feedrate hfeedrate => ?_⟩
    · have hmention := List.mem_of_mem_filter
        (List.mem_of_getLast? (htargets.last entry hentry))
      obtain ⟨phrase, hphrase, htarget⟩ := List.mem_filterMap.mp hmention
      obtain ⟨word, hword⟩ := hspelled phrase hphrase
      cases hword with
      | rapid => contradiction
      | feedrate => contradiction
      | target _ _ hfinite => rwa [← Option.some.inj htarget]
    · obtain ⟨phrase, hphrase, hfeed⟩ := List.mem_filterMap.mp (List.mem_of_getLast? hfeedrate)
      obtain ⟨word, hword⟩ := hspelled phrase hphrase
      cases hword with
      | rapid => contradiction
      | feedrate _ _ hfinite => rwa [← Option.some.inj hfeed]
      | target => contradiction

end Lines

end MoveRequest

namespace MoveList

open MoveRequest

def fullLines (first : Nat) (lines : List (List Char)) : List (List Char × Nat) :=
  (lines.zipIdx first).filter fun entry => ¬ BlankLine entry.1

theorem fullLines_cons (first : Nat) (line : List Char) (lines : List (List Char)) :
    fullLines first (line :: lines) =
      if BlankLine line then fullLines (first + 1) lines
      else (line, first) :: fullLines (first + 1) lines := by
  by_cases hblank : BlankLine line <;> simp [fullLines, List.zipIdx_cons, hblank]

theorem ofLines_cons_iff {first : Nat} {line : List Char} {lines : List (List Char)}
    {requests : List MoveRequest} :
    ofLines first (line :: lines) = .ok requests ↔
      ∃ request? rest, ofLine? first line = .ok request? ∧ ofLines (first + 1) lines = .ok rest ∧
        requests = request?.toList ++ rest := by
  rw [ofLines]
  constructor
  · intro h
    obtain ⟨request?, hrequest, hothers⟩ := bind_eq_ok.mp h
    obtain ⟨rest, hrest, hsame⟩ := bind_eq_ok.mp hothers
    exact ⟨request?, rest, hrequest, hrest, (Except.ok.inj hsame).symm⟩
  · rintro ⟨request?, rest, hrequest, hrest, rfl⟩
    rw [hrequest, hrest]
    rfl

theorem ofLines_eq_ok_iff {first : Nat} {lines : List (List Char)} {requests : List MoveRequest} :
    ofLines first lines = .ok requests ↔
      List.Forall₂ (fun entry => Asks entry.2 entry.1) (fullLines first lines) requests := by
  induction lines generalizing first requests with
  | nil =>
    simp only [fullLines, List.zipIdx_nil, List.filter_nil, List.forall₂_nil_left_iff]
    exact ⟨fun h => (Except.ok.inj h).symm, fun h => h ▸ rfl⟩
  | cons line lines ih =>
    rw [ofLines_cons_iff, fullLines_cons]
    by_cases hblank : BlankLine line
    · simp [ofLine?_of_blank hblank, hblank, ih]
    · rw [if_neg hblank, List.forall₂_cons_left_iff]
      constructor
      · rintro ⟨request?, rest, hrequest, hrest, rfl⟩
        obtain ⟨request, rfl, hasks⟩ := asks_of_ofLine? hrequest hblank
        exact ⟨request, rest, hasks, ih.mp hrest, rfl⟩
      · rintro ⟨request, rest, hasks, hrest, rfl⟩
        exact ⟨some request, rest, ofLine?_of_asks hblank hasks, ih.mpr hrest, rfl⟩

theorem exists_asks_iff {first : Nat} {lines : List (List Char)} :
    (∀ entry ∈ fullLines first lines, ∃ request, Asks entry.2 entry.1 request) ↔
      ∀ line ∈ lines, WellFormed line := by
  induction lines generalizing first with
  | nil => simp [fullLines]
  | cons line lines ih =>
    rw [fullLines_cons, List.forall_mem_cons, ← @ih (first + 1)]
    by_cases hblank : BlankLine line
    · rw [if_pos hblank, and_iff_right (.blank hblank)]
    · rw [if_neg hblank, List.forall_mem_cons, wellFormed_iff hblank]

/-- A text is read exactly if each of its lines has one of the known forms, and then as the requests
of its lines that are not blank, in order. All numbers of these are finite, and each axis is in one
of them at most once. -/
theorem move_list_language (text : String) :
    ((∃ requests, parse text = .ok requests) ↔
      ∀ line ∈ Text.lines text.toList, WellFormed line) ∧
    (∀ requests, parse text = .ok requests ↔
      List.Forall₂ (fun entry => Asks entry.2 entry.1)
        (fullLines 1 (Text.lines text.toList)) requests) ∧
    ∀ requests, parse text = .ok requests → ∀ request ∈ requests,
      (request.axes.map Prod.fst).Nodup ∧
      (∀ entry ∈ request.axes, Binary64.isFinite entry.2 = true) ∧
      ∀ feedrate ∈ request.feedrate, Binary64.isFinite feedrate = true := by
  refine ⟨?_, fun requests => ofLines_eq_ok_iff, fun requests hrequests request hrequest => ?_⟩
  · simp only [parse, ofLines_eq_ok_iff]
    rw [exists_forall₂_iff, exists_asks_iff]
  · have hasks := ofLines_eq_ok_iff.mp hrequests
    obtain ⟨entry, hentry⟩ := exists_forall₂_iff.mp ⟨_, hasks.flip⟩ request hrequest
    exact Asks.entries hentry

def sampleText : String := "R x1 E1e2 F20 X2 # back\n\n h\n"

theorem move_list_language_sample :
    parse sampleText = .ok [
      { kind := .rapid, axes := [(.x, 2.0), (.e, 100.0)], feedrate := some 20.0, line := 1 },
      { kind := .home, line := 3 }] ∧
    (∀ line ∈ Text.lines sampleText.toList, WellFormed line) ∧
    Asks 3 " h".toList { kind := .home, line := 3 } := by
  have hread : parse sampleText = .ok [
      { kind := .rapid, axes := [(.x, 2.0), (.e, 100.0)], feedrate := some 20.0, line := 1 },
      { kind := .home, line := 3 }] := by decide +kernel
  have hfull : fullLines 1 (Text.lines sampleText.toList) =
      [("R x1 E1e2 F20 X2 # back".toList, 1), (" h".toList, 3)] := by decide +kernel
  obtain ⟨hforms, hasks, -⟩ := move_list_language sampleText
  have hrequests := (hasks _).mp hread
  rw [hfull] at hrequests
  obtain ⟨hhome, -⟩ := List.forall₂_cons.mp (List.forall₂_cons.mp hrequests).2
  exact ⟨hread, hforms.mp ⟨_, hread⟩, hhome⟩

end MoveList
end StepMotion
