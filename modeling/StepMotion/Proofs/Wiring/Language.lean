import Mathlib
import StepMotion.Proofs.Axis
import StepMotion.Wiring.Spelling

/-! The language of wirings. Which strings spell a wiring is said of the strings alone, without the
tables that are filled while they are read. What is wrong with a string is listed in the order in
which it is read; a character is looked at with those before it and the strings before its own. -/
namespace StepMotion

def SwitchSide.other : SwitchSide → SwitchSide
  | .min => .max
  | .max => .min

/-- The switch on a connector, counted from zero. -/
def Wiring.switchAt? (wiring : Wiring) (position : Nat) : Option EndSwitch :=
  wiring.switches[position]?.join

/-- The axis at a place of a string, if there is a letter of one. -/
def axisIn? (letters : List Char) (position : Nat) : Option Axis :=
  letters[position]?.bind Axis.ofLetter?

def highLevels : List Char := ['1', 'H', 'h', '+']

def lowLevels : List Char := ['0', 'L', 'l', '-']

namespace Settings

def motorLetters (settings : Settings) : List Char := settings.effectiveAxisMapping.toList

def switchLetters (settings : Settings) : SwitchSide → List Char
  | .min => (settings.minEndswitch.getD "").toList
  | .max => (settings.maxEndswitch.getD "").toList

def levelLetters (settings : Settings) : List Char :=
  (settings.endswitchPolarity.getD "").toList

def homeLetters (settings : Settings) : List Char := settings.effectiveHomeOrder.toList

/-- The strings fit the connectors and have their characters from their alphabets, no connector has
a switch at both ends and no axis two switches for homing, each level is that of a switch, and the
axes to be homed are distinct. -/
structure WellSpelled (settings : Settings) : Prop where
  motorCount : settings.motorLetters.length ≤ motorConnectors
  motors : ∀ letter ∈ settings.motorLetters, letter = '_' ∨ (Axis.ofLetter? letter).isSome
  switchCount : ∀ side, (settings.switchLetters side).length ≤ switchConnectors
  switches : ∀ side, ∀ letter ∈ settings.switchLetters side,
    letter = '_' ∨ (Axis.ofLetter? letter).isSome
  apart : ∀ position, axisIn? (settings.switchLetters .min) position = none ∨
    axisIn? (settings.switchLetters .max) position = none
  capitals :
    ((settings.switchLetters .min ++ settings.switchLetters .max).filter Char.isUpper).Nodup
  levelCount : settings.levelLetters.length ≤ switchConnectors
  levels : ∀ position letter, settings.levelLetters[position]? = some letter →
    letter = '_' ∨ letter ∈ highLevels ++ lowLevels ∧
      ∃ side, (axisIn? (settings.switchLetters side) position).isSome
  home : ∀ letter ∈ settings.homeLetters, (Axis.ofLetter? letter).isSome
  homeOrder : (settings.homeLetters.map Axis.ofLetter?).Nodup

/-- What the strings say of the connectors, each character of its own: the axis that is driven, the
switch and its level, high if none is given. The letters of the home order are its axes. -/
structure SpellsConnectors (settings : Settings) (wiring : Wiring) : Prop where
  axisAt : ∀ position, wiring.axisAt? (position + 1) = axisIn? settings.motorLetters position
  switches : ∀ position switch, wiring.switchAt? position = some switch ↔
    (∃ letter, (settings.switchLetters switch.side)[position]? = some letter ∧
      Axis.ofLetter? letter = some switch.axis ∧ switch.homing = letter.isUpper) ∧
    (switch.trigger = .low ↔ ∃ level ∈ lowLevels, settings.levelLetters[position]? = some level)
  homeOrder : wiring.homeOrder.map some = settings.homeLetters.map Axis.ofLetter?

/-- All that the strings say of a wiring. The motors of an axis are those of its letters, from left
to right, mirrored where the letter is small. -/
structure Spells (settings : Settings) (wiring : Wiring) : Prop
    extends SpellsConnectors settings wiring where
  motors : ∀ axis motor, motor ∈ wiring.motorsOf axis ↔
    ∃ letter, settings.motorLetters[(motor.connector : Nat)]? = some letter ∧
      Axis.ofLetter? letter = some axis ∧ motor.mirrored = letter.isLower
  motorOrder : ∀ axis, (wiring.motorsOf axis).Pairwise
    fun motor next => motor.connector < next.connector

end Settings

section Offences

def letterOffences (check : List Char → Char → Option WiringError) (letters : List Char) :
    List WiringError :=
  letters.zipIdx.filterMap fun entry => check (letters.take entry.2) entry.1

/-- The offences of a string with a character for each connector. A string that is too long is so
before its characters are looked at. -/
def fieldOffences (field : LetterField) (capacity : Nat)
    (check : List Char → Char → Option WiringError) (letters : List Char) : List WiringError :=
  (if capacity < letters.length then [.tooManyConnectors field letters.length capacity] else []) ++
    letterOffences check letters

def motorOffence? (before : List Char) (letter : Char) : Option WiringError :=
  if letter = '_' ∨ (Axis.ofLetter? letter).isSome then none
  else some (.invalidAxisLetter .axisMapping before.length letter)

/-- What is wrong with a character of a switch string. `others` is the string for the other end, if
it comes before. -/
def switchOffence? (side : SwitchSide) (others before : List Char) (letter : Char) :
    Option WiringError :=
  if letter = '_' then none
  else match Axis.ofLetter? letter with
    | none => some (.invalidAxisLetter side.field before.length letter)
    | some axis =>
      if (axisIn? others before.length).isSome then some (.duplicateSwitch (before.length + 1))
      else if letter.isUpper ∧ letter ∈ others ++ before then some (.conflictingHomeSwitch axis)
      else none

def levelOffence? (switches : SwitchSide → List Char) (before : List Char) (letter : Char) :
    Option WiringError :=
  if letter = '_' then none
  else if letter ∉ highLevels ++ lowLevels then some (.invalidPolarity before.length letter)
  else if (axisIn? (switches .min) before.length).isNone ∧
      (axisIn? (switches .max) before.length).isNone then
    some (.unusedSwitchPolarity (before.length + 1))
  else none

def homeOffence? (before : List Char) (letter : Char) : Option WiringError :=
  match Axis.ofLetter? letter with
  | none => some (.invalidHomeAxis letter)
  | some axis =>
    if some axis ∈ before.map Axis.ofLetter? then some (.duplicateHomeAxis axis) else none

/-- Everything that is wrong with the strings, string by string and from left to right. -/
def Settings.offences (settings : Settings) : List WiringError :=
  fieldOffences .axisMapping motorConnectors motorOffence? settings.motorLetters ++
  (fieldOffences .minEndswitch switchConnectors (switchOffence? .min [])
    (settings.switchLetters .min) ++
  (fieldOffences .maxEndswitch switchConnectors
    (switchOffence? .max (settings.switchLetters .min)) (settings.switchLetters .max) ++
  (fieldOffences .endswitchPolarity switchConnectors (levelOffence? settings.switchLetters)
    settings.levelLetters ++
  letterOffences homeOffence? settings.homeLetters)))

end Offences

section Sequences

variable {α β : Type} {P Q : List α → α → Prop} {xs ys : List α}

def EachAfter (P : List α → α → Prop) (entries : List α) : Prop :=
  ∀ position entry, entries[position]? = some entry → P (entries.take position) entry

theorem eachAfter_append :
    EachAfter P (xs ++ ys) ↔ EachAfter P xs ∧ EachAfter (fun before => P (xs ++ before)) ys := by
  constructor
  · refine fun h => ⟨fun position entry hentry => ?_, fun position entry hentry => ?_⟩
    · have hin := List.getElem?_eq_some_iff.mp hentry
      have hafter := h position entry (by rw [List.getElem?_append_left hin.1, hentry])
      rwa [List.take_append_of_le_length hin.1.le] at hafter
    · have hplace : (xs ++ ys)[xs.length + position]? = ys[position]? := by
        rw [List.getElem?_append_right (Nat.le_add_right ..), Nat.add_sub_cancel_left]
      have hafter := h (xs.length + position) entry (hplace.trans hentry)
      rwa [List.take_length_add_append] at hafter
  · rintro ⟨hxs, hys⟩ position entry hentry
    by_cases hin : position < xs.length
    · rw [List.getElem?_append_left hin] at hentry
      rw [List.take_append_of_le_length hin.le]
      exact hxs position entry hentry
    · obtain ⟨offset, rfl⟩ := Nat.exists_eq_add_of_le (Nat.le_of_not_lt hin)
      rw [List.getElem?_append_right (Nat.le_add_right ..), Nat.add_sub_cancel_left] at hentry
      rw [List.take_length_add_append]
      exact hys offset entry hentry

theorem eachAfter_singleton {x : α} : EachAfter P [x] ↔ P [] x := by
  simp [EachAfter, List.getElem?_singleton]

theorem eachAfter_and :
    EachAfter (fun before entry => P before entry ∧ Q before entry) xs ↔
      EachAfter P xs ∧ EachAfter Q xs := by
  simp only [EachAfter, imp_and, forall_and]

theorem eachAfter_forall {p : α → Prop} : EachAfter (fun _ => p) xs ↔ ∀ entry ∈ xs, p entry := by
  simp only [EachAfter, List.mem_iff_getElem?]
  grind

theorem eachAfter_length (xs : List α) (p : Nat → α → Prop) :
    EachAfter (fun before => p before.length) xs ↔
      ∀ position entry, xs[position]? = some entry → p position entry := by
  refine forall_congr' fun position => forall_congr' fun entry => ?_
  refine forall_congr' fun hentry => ?_
  beta_reduce
  rw [List.length_take_of_le (List.getElem?_eq_some_iff.mp hentry).1.le]

theorem nodup_filter_iff {p : α → Bool} :
    (xs.filter p).Nodup ↔ EachAfter (fun before entry => p entry → entry ∉ before) xs := by
  induction xs using List.reverseRecOn with
  | nil => simp [EachAfter]
  | append_singleton rest last ih =>
    rw [eachAfter_append, eachAfter_singleton, ← ih, List.append_nil]
    by_cases hlast : p last
    · have hnew : (∀ entry ∈ rest, p entry → ¬ entry = last) ↔ last ∉ rest :=
        ⟨fun h hmem => h last hmem hlast rfl, fun h _ hmem _ hsame => h (hsame ▸ hmem)⟩
      simp [List.nodup_append, hlast, hnew]
    · simp [hlast]

theorem nodup_map_iff {f : α → β} :
    (xs.map f).Nodup ↔ EachAfter (fun before entry => f entry ∉ before.map f) xs := by
  induction xs using List.reverseRecOn with
  | nil => simp [EachAfter]
  | append_singleton rest last ih =>
    rw [eachAfter_append, eachAfter_singleton, ← ih, List.append_nil, List.map_append]
    simp [List.nodup_append]

end Sequences

section Correct

variable {check : List Char → Char → Option WiringError} {letters before : List Char}
  {letter : Char}

theorem letterOffences_eq_nil : letterOffences check letters = [] ↔
    EachAfter (fun before letter => check before letter = none) letters := by
  simp only [letterOffences, List.filterMap_eq_nil_iff, Prod.forall, List.mem_zipIdx_iff_getElem?]
  exact forall_comm

theorem fieldOffences_eq_nil {field : LetterField} {capacity : Nat} :
    fieldOffences field capacity check letters = [] ↔ letters.length ≤ capacity ∧
      EachAfter (fun before letter => check before letter = none) letters := by
  rw [fieldOffences, List.append_eq_nil_iff, letterOffences_eq_nil]
  simp

theorem motorOffence?_eq_none : motorOffence? before letter = none ↔
    letter = '_' ∨ (Axis.ofLetter? letter).isSome := by
  unfold motorOffence?
  split <;> simp_all

theorem switchOffence?_eq_none {side : SwitchSide} {others : List Char} :
    switchOffence? side others before letter = none ↔
      (letter = '_' ∨ (Axis.ofLetter? letter).isSome) ∧
      (axisIn? others before.length = none ∨ Axis.ofLetter? letter = none) ∧
      (letter.isUpper → letter ∉ others ++ before) := by
  unfold switchOffence?
  by_cases hblank : letter = '_'
  · subst hblank
    have hnone : Axis.ofLetter? '_' = none := by decide
    simp [hnone]
  · cases haxis : Axis.ofLetter? letter with
    | none => simp [hblank]
    | some axis => cases hother : axisIn? others before.length <;> simp [hblank]

theorem levelOffence?_eq_none {switches : SwitchSide → List Char} :
    levelOffence? switches before letter = none ↔
      letter = '_' ∨ letter ∈ highLevels ++ lowLevels ∧
        ∃ side, (axisIn? (switches side) before.length).isSome := by
  have hsides : (∃ side, (axisIn? (switches side) before.length).isSome) ↔
      (axisIn? (switches .min) before.length).isSome ∨
        (axisIn? (switches .max) before.length).isSome := by
    constructor
    · rintro ⟨_ | _, h⟩
      exacts [.inl h, .inr h]
    · rintro (h | h)
      exacts [⟨_, h⟩, ⟨_, h⟩]
  rw [hsides]
  unfold levelOffence?
  by_cases hblank : letter = '_'
  · simp [hblank]
  · by_cases hlevel : letter ∈ highLevels ++ lowLevels
    · cases hmin : axisIn? (switches .min) before.length <;>
        cases hmax : axisIn? (switches .max) before.length <;> simp [hblank, hlevel]
    · simp [hblank, hlevel]

theorem eachAfter_switchOffence {side : SwitchSide} {others : List Char} :
    EachAfter (fun before letter => switchOffence? side others before letter = none) letters ↔
      (∀ letter ∈ letters, letter = '_' ∨ (Axis.ofLetter? letter).isSome) ∧
      (∀ position, axisIn? others position = none ∨ axisIn? letters position = none) ∧
      EachAfter (fun before letter => letter.isUpper → letter ∉ others ++ before) letters := by
  have hapart : EachAfter (fun before letter =>
      axisIn? others before.length = none ∨ Axis.ofLetter? letter = none) letters ↔
      ∀ position, axisIn? others position = none ∨ axisIn? letters position = none := by
    refine (eachAfter_length letters fun position letter =>
      axisIn? others position = none ∨ Axis.ofLetter? letter = none).trans ?_
    refine forall_congr' fun position => ?_
    cases hletter : letters[position]? <;> simp [axisIn?, hletter]
  simp only [switchOffence?_eq_none, eachAfter_and, eachAfter_forall, hapart]

theorem homeOffence?_eq_none : homeOffence? before letter = none ↔
    (Axis.ofLetter? letter).isSome ∧ Axis.ofLetter? letter ∉ before.map Axis.ofLetter? := by
  unfold homeOffence?
  cases haxis : Axis.ofLetter? letter <;> simp

namespace Settings

theorem offences_eq_nil {settings : Settings} :
    settings.offences = [] ↔ settings.WellSpelled := by
  have hlevels := eachAfter_length settings.levelLetters fun position letter =>
    letter = '_' ∨ letter ∈ highLevels ++ lowLevels ∧
      ∃ side, (axisIn? (settings.switchLetters side) position).isSome
  simp only [offences, List.append_eq_nil_iff, fieldOffences_eq_nil, letterOffences_eq_nil,
    motorOffence?_eq_none, eachAfter_switchOffence, levelOffence?_eq_none, homeOffence?_eq_none,
    eachAfter_forall, eachAfter_and, hlevels, ← nodup_map_iff]
  constructor
  · rintro ⟨⟨hmotorCount, hmotors⟩, ⟨hminCount, hmins, -, hcapitals⟩,
      ⟨hmaxCount, hmaxs, hapart, hmaxCapitals⟩, ⟨hlevelCount, hlevels⟩, hhome, horder⟩
    exact {
      motorCount := hmotorCount
      motors := hmotors
      switchCount := fun side => by cases side <;> assumption
      switches := fun side => by cases side <;> assumption
      apart := hapart
      capitals := nodup_filter_iff.mpr (eachAfter_append.mpr ⟨hcapitals, hmaxCapitals⟩)
      levelCount := hlevelCount
      levels := hlevels
      home := hhome
      homeOrder := horder }
  · intro h
    obtain ⟨hcapitals, hmaxCapitals⟩ := eachAfter_append.mp (nodup_filter_iff.mp h.capitals)
    exact ⟨⟨h.motorCount, h.motors⟩,
      ⟨h.switchCount .min, h.switches .min, fun position => .inl rfl, hcapitals⟩,
      ⟨h.switchCount .max, h.switches .max, h.apart, hmaxCapitals⟩,
      ⟨h.levelCount, h.levels⟩, h.home, h.homeOrder⟩

instance (settings : Settings) : Decidable settings.WellSpelled :=
  decidable_of_iff (settings.offences = []) offences_eq_nil

/-- The capital of an axis at both ends. -/
example : ¬ WellSpelled { minEndswitch := some "X", maxEndswitch := some "_X" } := by
  decide +kernel

end Settings

end Correct

end StepMotion
