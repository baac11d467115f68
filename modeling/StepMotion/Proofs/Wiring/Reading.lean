import Mathlib
import StepMotion.Proofs.Wiring.Language
import StepMotion.Proofs.Wiring.Motors

/-! How the strings of a wiring are read. A string is read one character after another into tables
that hold what the characters before it spell, so that a character fails exactly if something is
wrong with it. So a wiring comes of the strings that spell one, it is the one that they spell, and
other strings fail with the first thing that is wrong with them. -/
namespace StepMotion

section Reads

variable {ε σ τ : Type} {R : σ → Prop} {S : τ → Prop}

/-- The answer is the first offence, or without one a result of a kind. -/
def Reads (R : σ → Prop) (offences : List ε) (answer : Except ε σ) : Prop :=
  match offences with
  | error :: _ => answer = .error error
  | [] => ∃ result, answer = .ok result ∧ R result

variable {offences others : List ε} {answer : Except ε σ} {next : σ → Except ε τ}

theorem reads_ok {result : σ} (h : R result) : Reads R ([] : List ε) (.ok result) :=
  ⟨result, rfl, h⟩

theorem Reads.bind (h : Reads R offences answer)
    (hnext : ∀ result, R result → Reads S others (next result)) :
    Reads S (offences ++ others) (answer >>= next) := by
  cases offences with
  | cons error rest =>
    obtain rfl : answer = .error error := h
    rfl
  | nil =>
    obtain ⟨result, rfl, hresult⟩ := h
    exact hnext result hresult

theorem Reads.error_iff (h : Reads R offences answer) (error : ε) :
    answer = .error error ↔ offences.head? = some error := by
  cases offences with
  | cons first rest =>
    obtain rfl : answer = .error first := h
    simp
  | nil =>
    obtain ⟨result, rfl, -⟩ := h
    simp

theorem Reads.of_ok (h : Reads R offences answer) {result : σ} (hresult : answer = .ok result) :
    offences = [] ∧ R result := by
  cases offences with
  | cons first rest =>
    obtain rfl : answer = .error first := h
    contradiction
  | nil =>
    obtain ⟨read, rfl, hread⟩ := h
    exact ⟨rfl, Except.ok.inj hresult ▸ hread⟩

end Reads

section Strings

variable {σ : Type}

/-- A step that fails with what is wrong with the next character, and else keeps a relation between
the characters before and the state. -/
def ReadsNext (capacity : Nat) (check : List Char → Char → Option WiringError)
    (R : List Char → σ → Prop) (step : σ → Char → Nat → Except WiringError σ) : Prop :=
  ∀ before letter state, before.length < capacity → R before state →
    Reads (R (before ++ [letter])) (check before letter).toList (step state letter before.length)

variable {step : σ → Char → Nat → Except WiringError σ}
  {check : List Char → Char → Option WiringError} {R : List Char → σ → Prop} {capacity : Nat}

theorem ReadsNext.foldlM (hstep : ReadsNext capacity check R step) (before letters : List Char)
    (hlength : (before ++ letters).length ≤ capacity) {state : σ} (hstate : R before state) :
    Reads (R (before ++ letters))
      ((letters.zipIdx before.length).filterMap fun entry =>
        check ((before ++ letters).take entry.2) entry.1)
      ((letters.zipIdx before.length).foldlM (fun state entry => step state entry.1 entry.2)
        state) := by
  induction letters generalizing before state with
  | nil => exact reads_ok (by simpa using hstate)
  | cons letter rest ih =>
    have hbefore : before.length < capacity := by
      rw [List.length_append, List.length_cons] at hlength
      omega
    have hsplit : before ++ letter :: rest = before ++ [letter] ++ rest := by simp
    have hrest := @ih (before ++ [letter]) (hsplit ▸ hlength)
    rw [← hsplit, List.length_append, List.length_singleton] at hrest
    have hfirst : (before ++ letter :: rest).take before.length = before := List.take_left
    have hoffences : ((letter :: rest).zipIdx before.length).filterMap
        (fun entry => check ((before ++ letter :: rest).take entry.2) entry.1) =
        (check before letter).toList ++ (rest.zipIdx (before.length + 1)).filterMap
          fun entry => check ((before ++ letter :: rest).take entry.2) entry.1 := by
      rw [List.zipIdx_cons, List.filterMap_cons, hfirst]
      cases check before letter <;> rfl
    rw [hoffences, List.zipIdx_cons, List.foldlM_cons]
    exact (hstep before letter state hbefore hstate).bind fun next hnext => hrest hnext

theorem ReadsNext.field (hstep : ReadsNext capacity check R step) {field : LetterField}
    (letters : List Char) {state : σ} (hstate : R [] state) :
    Reads (R letters) (fieldOffences field capacity check letters) (do
      Wiring.checkLength field letters capacity
      letters.zipIdx.foldlM (fun state entry => step state entry.1 entry.2) state) := by
  unfold fieldOffences Wiring.checkLength
  by_cases hlong : capacity < letters.length
  · rw [if_pos hlong, if_pos hlong]
    rfl
  · rw [if_neg hlong, if_neg hlong]
    exact hstep.foldlM [] letters (Nat.le_of_not_lt hlong) hstate

end Strings

section Places

variable {α : Type}

theorem bind_getElem?_append_singleton (spell : Char → Option α) (letters : List Char)
    (letter : Char) (position : Nat) :
    (letters ++ [letter])[position]?.bind spell =
      if position = letters.length then spell letter else letters[position]?.bind spell := by
  rcases lt_trichotomy position letters.length with hless | rfl | hmore
  · rw [if_neg hless.ne, List.getElem?_append_left hless]
  · simp
  · rw [if_neg hmore.ne', List.getElem?_eq_none (by simpa using hmore),
      List.getElem?_eq_none hmore.le]

theorem bind_getElem?_append_blank {spell : Char → Option α} {letter : Char}
    (h : spell letter = none) (letters : List Char) (position : Nat) :
    (letters ++ [letter])[position]?.bind spell = letters[position]?.bind spell := by
  rw [bind_getElem?_append_singleton]
  split
  · next hplace => simp [hplace, h]
  · rfl

theorem axisIn?_append_singleton (letters : List Char) (letter : Char) (position : Nat) :
    axisIn? (letters ++ [letter]) position =
      if position = letters.length then Axis.ofLetter? letter else axisIn? letters position :=
  bind_getElem?_append_singleton Axis.ofLetter? letters letter position

theorem axisIn?_length (letters : List Char) : axisIn? letters letters.length = none := by
  simp [axisIn?]

end Places

namespace Wiring

section Motors

structure MotorsRead (letters : List Char) (wiring : Wiring) : Prop where
  axisAt : ∀ position, wiring.axisAt? (position + 1) = axisIn? letters position
  switches : wiring.switches = .replicate switchConnectors none

theorem switches_addMotor {wiring next : Wiring} {axis : Axis} {number : Nat} {mirrored : Bool}
    (h : wiring.addMotor axis number mirrored = .ok next) : next.switches = wiring.switches := by
  unfold addMotor at h
  split at h
  · dsimp only at h
    split at h
    · contradiction
    · exact Except.ok.inj h ▸ rfl
  · contradiction

theorem addMotor_of_free {wiring : Wiring} {position : Nat} (hposition : position < motorConnectors)
    (hfree : wiring.axisAt? (position + 1) = none) (axis : Axis) (mirrored : Bool) :
    ∃ next, wiring.addMotor axis (position + 1) mirrored = .ok next ∧
      next.switches = wiring.switches ∧
      ∀ number, next.axisAt? number =
        if number = position + 1 then some axis else wiring.axisAt? number := by
  have hcases := wiring.assign_cases ⟨axis, position + 1, mirrored⟩
  cases hadd : wiring.addMotor axis (position + 1) mirrored with
  | error error =>
    obtain ⟨hdone, -⟩ | ⟨-, -, hreason⟩ := hcases
    · simp [assign, hadd] at hdone
    · have hrange : Assignment.InRange ⟨axis, position + 1, mirrored⟩ :=
        ⟨Nat.succ_pos position, hposition⟩
      simp [hrange, hfree] at hreason
  | ok next =>
    refine ⟨next, rfl, switches_addMotor hadd, ?_⟩
    obtain ⟨-, -, -, haxisAt, -⟩ | ⟨_, hfailed, -⟩ := hcases
    · simpa [assign, hadd, Attempt.done] using haxisAt
    · simp [assign, hadd, Attempt.done, Attempt.failed] at hfailed

theorem readAxis_eq (field : LetterField) (letter : Char) (position : Nat) :
    readAxis field letter position =
      match Axis.ofLetter? letter with
      | some axis => .ok axis
      | none => .error (.invalidAxisLetter field position letter) := rfl

theorem readsNext_addMotorLetter :
    ReadsNext motorConnectors motorOffence? MotorsRead addMotorLetter := by
  intro before letter wiring hbefore h
  unfold addMotorLetter motorOffence?
  by_cases hblank : letter = '_'
  · subst hblank
    refine reads_ok ⟨fun position => ?_, h.switches⟩
    exact (h.axisAt position).trans (bind_getElem?_append_blank (by decide) before position).symm
  · rw [if_neg hblank, readAxis_eq]
    cases haxis : Axis.ofLetter? letter with
    | none =>
      rw [if_neg (by simp [hblank])]
      rfl
    | some axis =>
      rw [if_pos (by simp)]
      have hfree : wiring.axisAt? (before.length + 1) = none := by rw [h.axisAt, axisIn?_length]
      obtain ⟨next, hadd, hswitches, haxisAt⟩ := addMotor_of_free hbefore hfree axis letter.isLower
      refine ⟨next, hadd, fun position => ?_, hswitches.trans h.switches⟩
      rw [haxisAt, axisIn?_append_singleton, h.axisAt, haxis]
      simp only [Nat.add_right_cancel_iff]

theorem reads_addMotors (letters : List Char) :
    Reads (MotorsRead letters)
      (fieldOffences .axisMapping motorConnectors motorOffence? letters)
      (addMotors {} letters) := by
  have hnothing : MotorsRead [] {} := ⟨fun position => lists_nothing.axisAt (position + 1), rfl⟩
  exact readsNext_addMotorLetter.field letters hnothing

end Motors

section Switches

def switchOf? (side : SwitchSide) (letter : Char) : Option EndSwitch :=
  (Axis.ofLetter? letter).map fun axis => ⟨axis, side, letter.isUpper, .high⟩

def switchIn? (side : SwitchSide) (letters : List Char) (position : Nat) : Option EndSwitch :=
  letters[position]?.bind (switchOf? side)

variable {side : SwitchSide} {letters : List Char} {position : Nat} {switch : EndSwitch}
  {axis : Axis} {wiring : Wiring}

theorem switchIn?_length (side : SwitchSide) (letters : List Char) :
    switchIn? side letters letters.length = none := by
  simp [switchIn?]

theorem switchIn?_eq_none_iff (side : SwitchSide) :
    switchIn? side letters position = none ↔ axisIn? letters position = none := by
  cases hletter : letters[position]? <;> simp [switchIn?, axisIn?, switchOf?, hletter]

theorem switchIn?_eq_some : switchIn? side letters position = some switch ↔
    ∃ letter, letters[position]? = some letter ∧ Axis.ofLetter? letter = some switch.axis ∧
      switch.side = side ∧ switch.homing = letter.isUpper ∧ switch.trigger = .high := by
  obtain ⟨axis, otherSide, homing, trigger⟩ := switch
  cases hletter : letters[position]? with
  | none => simp [switchIn?, hletter]
  | some letter =>
    simp only [switchIn?, hletter, Option.bind_some, switchOf?, Option.map_eq_some_iff]
    grind

theorem exists_switchIn?_homing :
    (∃ position switch, switchIn? side letters position = some switch ∧ switch.axis = axis ∧
      switch.homing = true) ↔ axis.letter ∈ letters := by
  simp only [switchIn?_eq_some, List.mem_iff_getElem?]
  constructor
  · rintro ⟨position, switch, ⟨letter, hletter, haxis, -, hupper, -⟩, rfl, hhoming⟩
    have hcapital := Axis.ofLetter?_eq_some_and_isUpper.mp ⟨haxis, hupper ▸ hhoming⟩
    exact ⟨position, hcapital ▸ hletter⟩
  · rintro ⟨position, hletter⟩
    obtain ⟨haxis, hupper⟩ := Axis.ofLetter?_eq_some_and_isUpper.mpr (rfl : axis.letter = _)
    exact ⟨position, ⟨axis, side, true, .high⟩, ⟨_, hletter, haxis, rfl, hupper.symm, rfl⟩,
      rfl, rfl⟩

theorem switchAt?_eq_some :
    wiring.switchAt? position = some switch ↔ wiring.switches[position]? = some (some switch) :=
  Option.join_eq_some_iff

theorem homeSwitch?_eq_some (h : wiring.homeSwitch? axis = some switch) :
    ∃ position, wiring.switchAt? position = some switch ∧ switch.axis = axis ∧
      switch.homing = true := by
  obtain ⟨slot, hmem, hslot⟩ := List.exists_of_findSome?_eq_some h
  obtain ⟨rfl, hhome⟩ := Option.filter_eq_some_iff.mp hslot
  obtain ⟨position, hposition⟩ := List.mem_iff_getElem?.mp hmem
  exact ⟨position, switchAt?_eq_some.mpr (by simpa using hposition), by simpa using hhome⟩

theorem isSome_homeSwitch? : (wiring.homeSwitch? axis).isSome ↔
    ∃ position switch, wiring.switchAt? position = some switch ∧ switch.axis = axis ∧
      switch.homing = true := by
  constructor
  · intro h
    obtain ⟨switch, hswitch⟩ := Option.isSome_iff_exists.mp h
    obtain ⟨position, hposition⟩ := homeSwitch?_eq_some hswitch
    exact ⟨position, switch, hposition⟩
  · rintro ⟨position, switch, hslot, haxis, hhoming⟩
    have hmem : some switch ∈ wiring.switches.toList :=
      List.mem_iff_getElem?.mpr ⟨position, by simpa using switchAt?_eq_some.mp hslot⟩
    rw [homeSwitch?, List.findSome?_isSome_iff]
    exact ⟨some switch, hmem, by simp [haxis, hhoming]⟩

theorem switchAt?_setIfInBounds (hposition : position < switchConnectors) (switch : EndSwitch)
    (other : Nat) :
    switchAt? { wiring with
      switches := wiring.switches.setIfInBounds position (some switch) } other =
      if other = position then some switch else wiring.switchAt? other := by
  unfold switchAt?
  by_cases hsame : other = position
  · subst hsame
    simp [hposition]
  · rw [if_neg hsame, Vector.getElem?_setIfInBounds_ne (Ne.symm hsame)]

/-- The connectors have the switches that the characters before and the string for the other end
spell, and the rest of the wiring is as it was. -/
structure SwitchesRead (start : Wiring) (side : SwitchSide) (others letters : List Char)
    (wiring : Wiring) : Prop where
  frame : wiring = { start with switches := wiring.switches }
  slots : ∀ position switch, wiring.switchAt? position = some switch ↔
    switchIn? side letters position = some switch ∨
      switchIn? side.other others position = some switch

variable {start : Wiring} {others before : List Char}

theorem SwitchesRead.isSome_switchAt? (h : SwitchesRead start side others before wiring) :
    (wiring.switchAt? before.length).isSome ↔ (axisIn? others before.length).isSome := by
  have hslot : wiring.switchAt? before.length = switchIn? side.other others before.length :=
    Option.ext fun switch => by simp [h.slots, switchIn?_length]
  rw [hslot, ← Option.ne_none_iff_isSome, ← Option.ne_none_iff_isSome, Ne, switchIn?_eq_none_iff]

theorem SwitchesRead.isSome_homeSwitch? (h : SwitchesRead start side others before wiring) :
    (wiring.homeSwitch? axis).isSome ↔ axis.letter ∈ others ++ before := by
  simp only [Wiring.isSome_homeSwitch?, h.slots, or_and_right, exists_or, exists_switchIn?_homing,
    List.mem_append]
  exact or_comm

theorem readsNext_addSwitchLetter (start : Wiring) (side : SwitchSide) (others : List Char) :
    ReadsNext switchConnectors (switchOffence? side others) (SwitchesRead start side others)
      (addSwitchLetter side) := by
  intro before letter wiring hbefore h
  unfold addSwitchLetter switchOffence?
  by_cases hblank : letter = '_'
  · subst hblank
    refine reads_ok ⟨h.frame, fun position switch => ?_⟩
    have hblank : switchOf? side '_' = none := by cases side <;> decide
    have hread : switchIn? side (before ++ ['_']) position = switchIn? side before position :=
      bind_getElem?_append_blank hblank before position
    rw [h.slots, hread]
  · rw [if_neg hblank, if_neg hblank, readAxis_eq]
    cases haxis : Axis.ofLetter? letter with
    | none => rfl
    | some axis =>
      have hconflict : (letter.isUpper && (wiring.homeSwitch? axis).isSome) ↔
          letter.isUpper ∧ letter ∈ others ++ before := by
        rw [Bool.and_eq_true, h.isSome_homeSwitch?]
        refine and_congr_right fun hupper => ?_
        rw [Axis.ofLetter?_eq_some_and_isUpper.mp ⟨haxis, hupper⟩]
      change Reads _ _ (if (wiring.switchAt? before.length).isSome then _
        else if letter.isUpper && (wiring.homeSwitch? axis).isSome then _ else _)
      simp only [h.isSome_switchAt?, hconflict]
      split
      · rfl
      · next hfree =>
        split
        · rfl
        · refine reads_ok ⟨by rw [h.frame], fun position switch => ?_⟩
          rw [switchAt?_setIfInBounds hbefore, switchIn?, bind_getElem?_append_singleton]
          split
          · next hplace =>
            have hother : switchIn? side.other others before.length = none :=
              (switchIn?_eq_none_iff side.other).mpr (by simpa using hfree)
            simp [hplace, hother, switchOf?, haxis]
          · exact h.slots position switch

theorem reads_addSwitches {start : Wiring} {side : SwitchSide} (others : List Char)
    (hstart : ∀ position switch, start.switchAt? position = some switch ↔
      switchIn? side.other others position = some switch) (letters : List Char) :
    Reads (SwitchesRead start side others letters)
      (fieldOffences side.field switchConnectors (switchOffence? side others) letters)
      (start.addSwitches side letters) := by
  have hnothing : SwitchesRead start side others [] start :=
    ⟨rfl, fun position switch => by simp [hstart, switchIn?]⟩
  exact (readsNext_addSwitchLetter start side others).field letters hnothing

def HasSwitches (wiring : Wiring) (switches : SwitchSide → List Char) : Prop :=
  ∀ position switch, wiring.switchAt? position = some switch ↔
    switchIn? switch.side (switches switch.side) position = some switch

variable {switches : SwitchSide → List Char}

theorem SwitchesRead.hasSwitches
    (h : SwitchesRead start .max (switches .min) (switches .max) wiring) :
    wiring.HasSwitches switches := by
  intro position switch
  rw [h.slots]
  have hside : ∀ side, switchIn? side (switches side) position = some switch →
      switch.side = side := by
    intro side hswitch
    obtain ⟨_, _, _, hside, _⟩ := switchIn?_eq_some.mp hswitch
    exact hside
  constructor
  · rintro (hswitch | hswitch)
    · rwa [hside .max hswitch]
    · rwa [hside .min hswitch]
  · cases hends : switch.side with
    | min => exact .inr
    | max => exact .inl

theorem HasSwitches.eq_none (h : wiring.HasSwitches switches) (position : Nat) :
    wiring.switchAt? position = none ↔
      axisIn? (switches .min) position = none ∧ axisIn? (switches .max) position = none := by
  have hends : wiring.switchAt? position = none ↔
      ∀ side, switchIn? side (switches side) position = none := by
    simp only [Option.eq_none_iff_forall_ne_some, Ne, h position]
    refine ⟨fun hnone side switch hswitch => hnone switch ?_, fun hnone switch => ?_⟩
    · obtain ⟨_, _, _, rfl, _⟩ := switchIn?_eq_some.mp hswitch
      exact hswitch
    · exact hnone switch.side switch
  simp only [hends, switchIn?_eq_none_iff]
  constructor
  · exact fun hnone => ⟨hnone .min, hnone .max⟩
  · rintro ⟨hmin, hmax⟩ (_ | _)
    exacts [hmin, hmax]

theorem HasSwitches.trigger (h : wiring.HasSwitches switches)
    (hswitch : wiring.switchAt? position = some switch) : switch.trigger = .high := by
  obtain ⟨_, _, _, _, _, hhigh⟩ := switchIn?_eq_some.mp ((h position switch).mp hswitch)
  exact hhigh

end Switches

section Levels

/-- The level that a polarity string gives to a switch, high if it says nothing. -/
def levelIn (letters : List Char) (position : Nat) : TriggerLevel :=
  (letters[position]?.bind fun letter =>
    if letter ∈ lowLevels then some TriggerLevel.low else none).getD .high

theorem levelIn_eq_low {letters : List Char} {position : Nat} :
    levelIn letters position = .low ↔ ∃ letter ∈ lowLevels, letters[position]? = some letter := by
  unfold levelIn
  cases letters[position]? with
  | none => simp
  | some letter => by_cases hlow : letter ∈ lowLevels <;> simp [hlow]

theorem triggerOf?_eq (letter : Char) :
    triggerOf? letter =
      if letter ∈ highLevels ++ lowLevels then
        some (if letter ∈ lowLevels then .low else .high)
      else none := by
  have hapart : letter ∈ highLevels → letter ∉ lowLevels := by
    intro hhigh
    simp only [highLevels, List.mem_cons, List.not_mem_nil, or_false] at hhigh
    rcases hhigh with rfl | rfl | rfl | rfl <;> decide
  change (if letter ∈ highLevels then some TriggerLevel.high
    else if letter ∈ lowLevels then some .low else none) = _
  by_cases hhigh : letter ∈ highLevels
  · simp [hhigh, hapart hhigh]
  · by_cases hlow : letter ∈ lowLevels <;> simp [hhigh, hlow]

structure LevelsRead (start : Wiring) (letters : List Char) (wiring : Wiring) : Prop where
  frame : wiring = { start with switches := wiring.switches }
  slots : ∀ position, wiring.switchAt? position =
    (start.switchAt? position).map fun switch => { switch with trigger := levelIn letters position }

variable {start wiring : Wiring} {switches : SwitchSide → List Char}

theorem levelIn_append_singleton (letters : List Char) (letter : Char) (position : Nat) :
    levelIn (letters ++ [letter]) position =
      if position = letters.length then if letter ∈ lowLevels then .low else .high
      else levelIn letters position := by
  unfold levelIn
  rw [bind_getElem?_append_singleton]
  split
  · split <;> rfl
  · rfl

theorem readsNext_setPolarityLetter (hstart : start.HasSwitches switches) :
    ReadsNext switchConnectors (levelOffence? switches) (LevelsRead start) setPolarityLetter := by
  intro before letter wiring hbefore h
  have hslot := h.slots before.length
  have hunused := hstart.eq_none before.length
  unfold setPolarityLetter levelOffence?
  by_cases hblank : letter = '_'
  · subst hblank
    refine reads_ok ⟨h.frame, fun position => ?_⟩
    rw [h.slots, levelIn, levelIn, bind_getElem?_append_blank (by decide)]
  · rw [if_neg hblank, if_neg hblank, triggerOf?_eq]
    by_cases hlevel : letter ∈ highLevels ++ lowLevels
    · rw [if_pos hlevel, if_neg (not_not.mpr hlevel), ← switchAt?, hslot]
      cases hswitch : start.switchAt? before.length with
      | none =>
        rw [if_pos (by simpa [hswitch] using hunused)]
        rfl
      | some switch =>
        rw [if_neg (by simpa [hswitch] using hunused)]
        refine reads_ok ⟨by rw [h.frame], fun position => ?_⟩
        rw [switchAt?_setIfInBounds hbefore, levelIn_append_singleton, h.slots]
        split
        · next hplace => rw [hplace, hswitch]; rfl
        · rfl
    · rw [if_neg hlevel, if_pos hlevel]
      rfl

theorem reads_setPolarities (hstart : start.HasSwitches switches) (letters : List Char) :
    Reads (LevelsRead start letters)
      (fieldOffences .endswitchPolarity switchConnectors (levelOffence? switches) letters)
      (start.setPolarities letters) := by
  have hnothing : LevelsRead start [] start := by
    refine ⟨rfl, fun position => ?_⟩
    cases hswitch : start.switchAt? position with
    | none => rfl
    | some switch =>
      have hhigh := hstart.trigger hswitch
      obtain ⟨axis, side, homing, trigger⟩ := switch
      cases hhigh
      rfl
  exact (readsNext_setPolarityLetter hstart).field letters hnothing

theorem LevelsRead.switchAt?_eq_some {letters : List Char} (h : LevelsRead start letters wiring)
    (hstart : start.HasSwitches switches) (position : Nat) (switch : EndSwitch) :
    wiring.switchAt? position = some switch ↔
      (∃ letter, (switches switch.side)[position]? = some letter ∧
        Axis.ofLetter? letter = some switch.axis ∧ switch.homing = letter.isUpper) ∧
      (switch.trigger = .low ↔ ∃ level ∈ lowLevels, letters[position]? = some level) := by
  have hlevel : (switch.trigger = .low ↔ ∃ level ∈ lowLevels, letters[position]? = some level) ↔
      switch.trigger = levelIn letters position := by
    rw [← levelIn_eq_low]
    cases switch.trigger <;> cases levelIn letters position <;> simp
  rw [hlevel, h.slots, Option.map_eq_some_iff]
  constructor
  · rintro ⟨read, hread, rfl⟩
    obtain ⟨letter, hletter, haxis, -, hhoming, -⟩ :=
      switchIn?_eq_some.mp ((hstart position read).mp hread)
    exact ⟨⟨letter, hletter, haxis, hhoming⟩, rfl⟩
  · rintro ⟨⟨letter, hletter, haxis, hhoming⟩, htrigger⟩
    refine ⟨{ switch with trigger := .high }, (hstart position _).mpr ?_, by rw [← htrigger]⟩
    exact switchIn?_eq_some.mpr ⟨letter, hletter, haxis, rfl, hhoming, rfl⟩

end Levels

section Homes

def HomesRead (letters : List Char) (axes : List Axis) : Prop :=
  axes.map some = letters.map Axis.ofLetter?

theorem readsNext_addHomeLetter (capacity : Nat) :
    ReadsNext capacity homeOffence? HomesRead fun axes letter _ => addHomeLetter axes letter := by
  intro before letter axes _ h
  change Reads _ _ (addHomeLetter axes letter)
  unfold HomesRead at h
  unfold homeOffence? addHomeLetter
  cases haxis : Axis.ofLetter? letter with
  | none => rfl
  | some axis =>
    have hmem : some axis ∈ before.map Axis.ofLetter? ↔ axis ∈ axes := by simp [← h]
    simp only [hmem]
    split
    · rfl
    · exact reads_ok (by simp [HomesRead, h, haxis])

theorem reads_addHomeLetters (letters : List Char) :
    Reads (HomesRead letters) (letterOffences homeOffence? letters)
      (letters.foldlM addHomeLetter []) := by
  have hnothing : HomesRead [] [] := rfl
  have hletters : letters.zipIdx.foldlM (fun axes entry => addHomeLetter axes entry.1) [] =
      letters.foldlM addHomeLetter [] := by
    rw [← List.foldlM_map, List.zipIdx_map_fst]
  rw [← hletters]
  exact (readsNext_addHomeLetter letters.length).foldlM [] letters le_rfl hnothing

end Homes

end Wiring
end StepMotion
