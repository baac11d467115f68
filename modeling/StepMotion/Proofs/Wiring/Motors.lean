import Mathlib
import StepMotion.Proofs.Attempt
import StepMotion.Wiring.Spelling

/-! The two tables of motors. Both list the assignments that were made: each of them on a connector
of its own, under its axis in the order in which they were made. So a connector drives an axis where
exactly one motor is on it, and turns by what that motor makes of the steps of the axis. -/
namespace StepMotion

structure Assignment where
  axis : Axis
  number : Nat
  mirrored : Bool
  deriving DecidableEq

namespace Assignment

def InRange (assignment : Assignment) : Prop :=
  1 ≤ assignment.number ∧ assignment.number ≤ motorConnectors

end Assignment

def Motor.assigned (motor : Motor) (axis : Axis) : Assignment :=
  ⟨axis, motor.number, motor.mirrored⟩

theorem Motor.inRange_assigned (motor : Motor) (axis : Axis) : (motor.assigned axis).InRange :=
  ⟨Nat.succ_pos _, motor.connector.isLt⟩

namespace Wiring

section Turns

theorem get_foldl_writeSteps (entries : List (Axis × Motor)) (steps : Register Int)
    (out : Vector Int motorConnectors) (connector : Fin motorConnectors) :
    (entries.foldl (writeSteps steps) out).get connector =
      (entries.filter fun entry => entry.2.connector = connector).getLast?.elim
        (out.get connector) fun entry => entry.2.turn (steps entry.1) := by
  induction entries using List.reverseRecOn with
  | nil => rfl
  | append_singleton rest entry ih =>
    rw [List.foldl_concat, List.filter_append]
    rw [Vector.get_eq_getElem] at ih ⊢
    by_cases hon : entry.2.connector = connector
    · subst hon
      simp [writeSteps]
    · have hother : (entry.2.connector : Nat) ≠ connector := fun h => hon (Fin.ext h)
      simpa [writeSteps, hon, Vector.getElem_set_ne _ _ hother] using ih

theorem get_motorSteps (wiring : Wiring) (steps : Register Int)
    (connector : Fin motorConnectors) :
    (wiring.motorSteps steps).get connector =
      (wiring.entries.filter fun entry => entry.2.connector = connector).getLast?.elim 0
        fun entry => entry.2.turn (steps entry.1) := by
  have hzero : (Vector.replicate motorConnectors (0 : Int)).get connector = 0 := by simp
  rw [motorSteps, get_foldl_writeSteps, hzero]

theorem exists_get_motorSteps (wiring : Wiring) (connector : Fin motorConnectors) :
    ∃ axis sign, ∀ steps : Register Int,
      (wiring.motorSteps steps).get connector = sign * steps axis := by
  simp only [get_motorSteps]
  cases (wiring.entries.filter fun entry => entry.2.connector = connector).getLast? with
  | none => exact ⟨.x, 0, fun steps => (Int.zero_mul _).symm⟩
  | some entry =>
    refine ⟨entry.1, if entry.2.mirrored then -1 else 1, fun steps => ?_⟩
    by_cases hmirrored : entry.2.mirrored <;> simp [Motor.turn, hmirrored]

end Turns

section Assign

def assign (wiring : Wiring) (assignment : Assignment) : Attempt WiringError Wiring :=
  match wiring.addMotor assignment.axis assignment.number assignment.mirrored with
  | .ok next => .done next
  | .error error => .failed error wiring

def assignAll (wiring : Wiring) : List Assignment → Wiring
  | [] => wiring
  | assignment :: rest => assignAll (wiring.assign assignment).state rest

/-- Those of a sequence of assignments that succeed. -/
def accepted (wiring : Wiring) : List Assignment → List Assignment
  | [] => []
  | assignment :: rest =>
    let tried := wiring.assign assignment
    if tried.Succeeds then assignment :: accepted tried.state rest else accepted tried.state rest

theorem assign_cases (wiring : Wiring) (assignment : Assignment) :
    ((wiring.assign assignment).Succeeds ∧ assignment.InRange ∧
      wiring.axisAt? assignment.number = none ∧
      (∀ number, (wiring.assign assignment).state.axisAt? number =
        if number = assignment.number then some assignment.axis else wiring.axisAt? number) ∧
      ∀ axis, ((wiring.assign assignment).state.motorsOf axis).map (·.assigned axis) =
        (wiring.motorsOf axis).map (·.assigned axis) ++
          if assignment.axis = axis then [assignment] else []) ∨
    ∃ error, wiring.assign assignment = .failed error wiring ∧
      (¬ assignment.InRange ∨ (wiring.axisAt? assignment.number).isSome) := by
  obtain ⟨axis, number, mirrored⟩ := assignment
  by_cases hrange : 1 ≤ number ∧ number ≤ motorConnectors
  · obtain ⟨index, rfl⟩ : ∃ index, number = index + 1 := ⟨number - 1, by omega⟩
    have hindex : index < motorConnectors := hrange.2
    have hthere : wiring.axisAt? (index + 1) = wiring.drives.get ⟨index, hindex⟩ := by
      simp [axisAt?, hindex, Vector.get_eq_getElem]
    cases hdrives : wiring.drives.get ⟨index, hindex⟩ with
    | some existing =>
      refine .inr ⟨.duplicateConnector (index + 1) existing, ?_, .inr ?_⟩
      · simp [assign, addMotor, hrange.2, hdrives]
      · simp [hthere, hdrives]
    | none =>
      have hassign : wiring.assign ⟨axis, index + 1, mirrored⟩ = .done { wiring with
          drives := wiring.drives.set index (some axis) hindex
          motorsOf := wiring.motorsOf.set axis
            (wiring.motorsOf axis ++ [⟨⟨index, hindex⟩, mirrored⟩]) } := by
        simp [assign, addMotor, hrange.2, hdrives]
      refine .inl ⟨by rw [hassign]; rfl, hrange, by rw [hthere, hdrives], ?_, ?_⟩
      · rintro (_ | other)
        · rfl
        · by_cases hsame : other = index
          · subst hsame
            simp [hassign, Attempt.done, axisAt?, hindex]
          · simp [hassign, Attempt.done, axisAt?, hsame, Ne.symm hsame,
              Vector.getElem?_set_ne]
      · intro other
        by_cases hsame : other = axis
        · subst hsame
          simp [hassign, Attempt.done, Motor.assigned, Motor.number]
        · simp [hassign, Attempt.done, hsame, Ne.symm hsame]
  · refine .inr ⟨.connectorOutOfRange number, ?_, .inl hrange⟩
    simp [assign, addMotor, hrange]

end Assign

section Lists

/-- Both tables list the assignments that were made. -/
structure Lists (wiring : Wiring) (made : List Assignment) : Prop where
  inRange : ∀ assignment ∈ made, assignment.InRange
  nodup : (made.map Assignment.number).Nodup
  axisAt : ∀ number, wiring.axisAt? number =
    (made.find? fun assignment => assignment.number = number).map Assignment.axis
  motorsOf : ∀ axis, (wiring.motorsOf axis).map (·.assigned axis) =
    made.filter fun assignment => assignment.axis = axis

variable {wiring : Wiring} {made : List Assignment}

theorem lists_nothing : ({} : Wiring).Lists [] where
  inRange := by simp
  nodup := List.nodup_nil
  axisAt number := by
    cases number with
    | zero => rfl
    | succ index => by_cases hindex : index < motorConnectors <;> simp [axisAt?, hindex]
  motorsOf axis := by simp

theorem Lists.assign (h : wiring.Lists made) (assignment : Assignment) :
    (wiring.assign assignment).state.Lists
      (made ++ if (wiring.assign assignment).Succeeds then [assignment] else []) := by
  rcases wiring.assign_cases assignment with
    ⟨hsucceeds, hrange, hfree, haxisAt, hmotors⟩ | ⟨error, hfailed, -⟩
  · have hnew : ∀ other ∈ made, other.number ≠ assignment.number := by
      simpa [h.axisAt] using hfree
    rw [if_pos hsucceeds]
    refine ⟨?_, ?_, fun number => ?_, fun axis => ?_⟩
    · simpa using fun other hother => hother.elim (h.inRange other) fun hsame => hsame ▸ hrange
    · simpa [List.nodup_append, h.nodup] using hnew
    · rw [haxisAt, h.axisAt, List.find?_append]
      by_cases hsame : number = assignment.number
      · subst hsame
        have hnone : (made.find? fun other => other.number = assignment.number) = none := by
          simpa using hnew
        simp [hnone]
      · simp [hsame, Ne.symm hsame]
    · by_cases hsame : assignment.axis = axis <;> simp [hmotors, h.motorsOf, hsame]
  · rw [hfailed, if_neg (Attempt.not_succeeds_failed error wiring), List.append_nil]
    exact h

theorem Lists.assignAll (h : wiring.Lists made) (attempts : List Assignment) :
    (wiring.assignAll attempts).Lists (made ++ wiring.accepted attempts) := by
  induction attempts generalizing wiring made with
  | nil => simpa [Wiring.assignAll, accepted] using h
  | cons assignment rest ih =>
    have hrest := ih (h.assign assignment)
    by_cases hsucceeds : (wiring.assign assignment).Succeeds
    · simpa [Wiring.assignAll, accepted, hsucceeds] using hrest
    · simpa [Wiring.assignAll, accepted, hsucceeds] using hrest

end Lists

section Entries

variable {wiring : Wiring} {made : List Assignment}

theorem flatMap_filter_perm {axes : List Axis} (h : axes.Nodup) (made : List Assignment) :
    (axes.flatMap fun axis => made.filter fun assignment => assignment.axis = axis).Perm
      (made.filter fun assignment => assignment.axis ∈ axes) := by
  induction axes with
  | nil => simp
  | cons axis rest ih =>
    obtain ⟨hnotin, hrest⟩ := List.nodup_cons.mp h
    have hapart := List.filter_append_perm (fun assignment : Assignment => assignment.axis = axis)
      (made.filter fun assignment => assignment.axis ∈ axis :: rest)
    have hfirst : (made.filter fun assignment => assignment.axis ∈ axis :: rest).filter
        (fun assignment => assignment.axis = axis) =
        made.filter fun assignment => assignment.axis = axis := by
      rw [List.filter_filter]
      exact List.filter_congr fun assignment _ => by grind
    have hothers : (made.filter fun assignment => assignment.axis ∈ axis :: rest).filter
        (fun assignment => !(assignment.axis = axis : Bool)) =
        made.filter fun assignment => assignment.axis ∈ rest := by
      rw [List.filter_filter]
      exact List.filter_congr fun assignment _ => by grind
    rw [hfirst, hothers] at hapart
    exact (List.Perm.append_left _ (ih hrest)).trans hapart

theorem Lists.perm (h : wiring.Lists made) :
    (wiring.entries.map fun entry => entry.2.assigned entry.1).Perm made := by
  have hentries : (wiring.entries.map fun entry => entry.2.assigned entry.1) =
      Axis.all.flatMap fun axis => made.filter fun assignment => assignment.axis = axis := by
    simp [entries, List.map_flatMap, Function.comp_def, h.motorsOf]
  rw [hentries]
  simpa using flatMap_filter_perm Axis.nodup_all made

def entriesOn (wiring : Wiring) (number : Nat) : List (Axis × Motor) :=
  wiring.entries.filter fun entry => entry.2.number = number

theorem filter_number_of_nodup (h : (made.map Assignment.number).Nodup) (number : Nat) :
    (made.filter fun assignment => assignment.number = number) =
      (made.find? fun assignment => assignment.number = number).toList := by
  induction made with
  | nil => rfl
  | cons assignment rest ih =>
    obtain ⟨hnew, hrest⟩ := List.nodup_cons.mp h
    by_cases hsame : assignment.number = number
    · subst hsame
      have hnone : (rest.filter fun other => other.number = assignment.number) = [] := by
        simpa using hnew
      simp [hnone]
    · simpa [hsame] using ih hrest

theorem Lists.entriesOn (h : wiring.Lists made) (number : Nat) :
    ((wiring.entriesOn number).map fun entry => entry.2.assigned entry.1) =
      (made.find? fun assignment => assignment.number = number).toList := by
  have hperm := h.perm.filter fun assignment => assignment.number = number
  have hsame : ((wiring.entries.map fun entry => entry.2.assigned entry.1).filter
      fun assignment => assignment.number = number) =
      (wiring.entriesOn number).map fun entry => entry.2.assigned entry.1 := List.filter_map
  rw [filter_number_of_nodup h.nodup, hsame] at hperm
  cases hfind : made.find? fun assignment => assignment.number = number with
  | none => exact List.perm_nil.mp (by simpa [hfind] using hperm)
  | some assignment => exact List.perm_singleton.mp (by simpa [hfind] using hperm)

/-- A connector is free, or exactly one motor is on it. -/
theorem Lists.entriesOn_cases (h : wiring.Lists made) (number : Nat) :
    wiring.axisAt? number = none ∧ wiring.entriesOn number = [] ∨
      ∃ axis motor, wiring.axisAt? number = some axis ∧
        wiring.entriesOn number = [(axis, motor)] := by
  have hentries := h.entriesOn number
  rw [h.axisAt]
  cases hfind : made.find? fun assignment => assignment.number = number with
  | none => exact .inl ⟨rfl, by simpa [hfind] using hentries⟩
  | some assignment =>
    rw [hfind] at hentries
    obtain ⟨entry, hentry, rfl⟩ := List.map_eq_singleton_iff.mp hentries
    exact .inr ⟨entry.1, entry.2, rfl, hentry⟩

theorem mem_entriesOn {axis : Axis} {motor : Motor} (h : motor ∈ wiring.motorsOf axis) :
    (axis, motor) ∈ wiring.entriesOn motor.number := by
  simpa [entriesOn, entries] using h

theorem get_motorSteps_of_entriesOn (steps : Register Int)
    (connector : Fin motorConnectors) :
    (wiring.motorSteps steps).get connector =
      (wiring.entriesOn (connector + 1)).getLast?.elim 0
        fun entry => entry.2.turn (steps entry.1) := by
  have hsame : (wiring.entries.filter fun entry => entry.2.connector = connector) =
      wiring.entriesOn (connector + 1) :=
    List.filter_congr fun entry _ => by simp [Motor.number, Fin.ext_iff]
  rw [get_motorSteps, hsame]

end Entries

section Spelled

variable {wiring : Wiring} {made : List Assignment}

/-- The assignment that a character of the motor string spells at its place. -/
def spelled? (entry : Char × Nat) : Option Assignment :=
  if entry.1 = '_' then none
  else (Axis.ofLetter? entry.1).map fun axis => ⟨axis, entry.2 + 1, entry.1.isLower⟩

def spelled (letters : List Char) : List Assignment := letters.zipIdx.filterMap spelled?

theorem Lists.addMotorLetter (h : wiring.Lists made) {letter : Char} {position : Nat}
    {next : Wiring} (hnext : wiring.addMotorLetter letter position = .ok next) :
    next.Lists (made ++ (spelled? (letter, position)).toList) := by
  unfold Wiring.addMotorLetter at hnext
  by_cases hblank : letter = '_'
  · rw [if_pos hblank] at hnext
    cases Except.ok.inj hnext
    simpa [spelled?, hblank] using h
  · rw [if_neg hblank] at hnext
    obtain ⟨axis, haxis, hadd⟩ := bind_eq_ok.mp hnext
    have hletter : Axis.ofLetter? letter = some axis := by
      unfold readAxis at haxis
      split at haxis
      · rwa [← Except.ok.inj haxis]
      · contradiction
    have hassign : wiring.assign ⟨axis, position + 1, letter.isLower⟩ = .done next := by
      simp [Wiring.assign, hadd]
    have hlists := h.assign ⟨axis, position + 1, letter.isLower⟩
    rw [hassign, if_pos (Attempt.succeeds_done next)] at hlists
    have hspelled : spelled? (letter, position) = some ⟨axis, position + 1, letter.isLower⟩ := by
      simp [spelled?, hblank, hletter]
    rw [hspelled]
    exact hlists

theorem Lists.addMotorLetters (h : wiring.Lists made) {entries : List (Char × Nat)} {last : Wiring}
    (hlast : entries.foldlM (fun wiring entry => wiring.addMotorLetter entry.1 entry.2) wiring =
      .ok last) : last.Lists (made ++ entries.filterMap spelled?) := by
  induction entries generalizing wiring made with
  | nil =>
    cases Except.ok.inj hlast
    simpa using h
  | cons entry rest ih =>
    obtain ⟨next, hnext, hrest⟩ := bind_eq_ok.mp hlast
    have hdone := ih (h.addMotorLetter hnext) hrest
    rw [List.append_assoc] at hdone
    cases hspelled : spelled? entry <;> simpa [hspelled] using hdone

theorem Lists.addSwitches (h : wiring.Lists made) {side : SwitchSide} {letters : List Char}
    {last : Wiring} (hlast : wiring.addSwitches side letters = .ok last) : last.Lists made := by
  obtain ⟨-, -, hfold⟩ := bind_eq_ok.mp hlast
  refine foldlM_keeps (P := (Lists · made)) (fun wiring entry next hnext hlists => ?_) hfold h
  unfold addSwitchLetter at hnext
  split at hnext
  · exact Except.ok.inj hnext ▸ hlists
  · obtain ⟨axis, -, hadd⟩ := bind_eq_ok.mp hnext
    split at hadd
    · contradiction
    · split at hadd
      · contradiction
      · cases Except.ok.inj hadd
        exact ⟨hlists.inRange, hlists.nodup, hlists.axisAt, hlists.motorsOf⟩

theorem Lists.setPolarities (h : wiring.Lists made) {letters : List Char} {last : Wiring}
    (hlast : wiring.setPolarities letters = .ok last) : last.Lists made := by
  obtain ⟨-, -, hfold⟩ := bind_eq_ok.mp hlast
  refine foldlM_keeps (P := (Lists · made)) (fun wiring entry next hnext hlists => ?_) hfold h
  unfold setPolarityLetter at hnext
  split at hnext
  · exact Except.ok.inj hnext ▸ hlists
  · split at hnext
    · contradiction
    · contradiction
    · cases Except.ok.inj hnext
      exact ⟨hlists.inRange, hlists.nodup, hlists.axisAt, hlists.motorsOf⟩

theorem Lists.optional (h : wiring.Lists made)
    (step : Wiring → List Char → Except WiringError Wiring)
    (hstep : ∀ wiring letters last, step wiring letters = .ok last → wiring.Lists made →
      last.Lists made) {text : Option String} {last : Wiring}
    (hlast : (text.elim (.ok wiring) fun s => step wiring s.toList) = .ok last) :
    last.Lists made := by
  cases text with
  | none => exact Except.ok.inj hlast ▸ h
  | some s => exact hstep wiring s.toList last hlast h

theorem lists_of_ofSettings {settings : Settings} (h : ofSettings settings = .ok wiring) :
    wiring.Lists (spelled settings.effectiveAxisMapping.toList) := by
  obtain ⟨motors, hmotors, h⟩ := bind_eq_ok.mp h
  obtain ⟨low, hlow, h⟩ := bind_eq_ok.mp h
  obtain ⟨high, hhigh, h⟩ := bind_eq_ok.mp h
  obtain ⟨levels, hlevels, h⟩ := bind_eq_ok.mp h
  obtain ⟨axes, -, h⟩ := bind_eq_ok.mp h
  obtain ⟨-, -, hletters⟩ := bind_eq_ok.mp hmotors
  have hlists : motors.Lists (spelled settings.effectiveAxisMapping.toList) :=
    lists_nothing.addMotorLetters hletters
  have hlow := hlists.optional (addSwitches .min)
    (fun _ _ _ hlast hlists => hlists.addSwitches hlast) hlow
  have hhigh := hlow.optional (addSwitches .max)
    (fun _ _ _ hlast hlists => hlists.addSwitches hlast) hhigh
  have hlevels := hhigh.optional setPolarities
    (fun _ _ _ hlast hlists => hlists.setPolarities hlast) hlevels
  cases Except.ok.inj h
  exact ⟨hlevels.inRange, hlevels.nodup, hlevels.axisAt, hlevels.motorsOf⟩

end Spelled

section Built

/-- How a wiring comes about, and which assignments were made for it. -/
inductive Built : Wiring → List Assignment → Prop
  | assigned (attempts : List Assignment) :
      Built (assignAll {} attempts) (accepted {} attempts)
  | spelled {settings : Settings} {wiring : Wiring} (h : ofSettings settings = .ok wiring) :
      Built wiring (spelled settings.effectiveAxisMapping.toList)

theorem Built.lists {wiring : Wiring} {made : List Assignment} (h : wiring.Built made) :
    wiring.Lists made := by
  cases h with
  | assigned attempts => exact lists_nothing.assignAll attempts
  | spelled h => exact lists_of_ofSettings h

/-- A connector drives an axis if exactly one motor is listed on it, and this one for the axis. No
connector is listed twice; the motors of an axis stand in the order in which they were assigned; an
assignment fails on a connector that is taken or does not exist, and then changes nothing. So a
connector makes the steps of its axis, reversed on a mirrored motor, and a free one makes none. -/
theorem motor_tables_agree {wiring : Wiring} {made : List Assignment} (h : wiring.Built made) :
    (∀ number axis, wiring.axisAt? number = some axis ↔
      ∃ motor, wiring.entriesOn number = [(axis, motor)]) ∧
    (∀ axis, ∀ motor ∈ wiring.motorsOf axis,
      1 ≤ motor.number ∧ motor.number ≤ motorConnectors) ∧
    (wiring.entries.map fun entry => entry.2.number).Nodup ∧
    (∀ axis, (wiring.motorsOf axis).map (·.assigned axis) =
      made.filter fun assignment => assignment.axis = axis) ∧
    (∀ assignment : Assignment,
      ((wiring.assign assignment).Succeeds ↔
        assignment.InRange ∧ wiring.axisAt? assignment.number = none) ∧
      (¬ (wiring.assign assignment).Succeeds → (wiring.assign assignment).state = wiring)) ∧
    ∀ (steps : Register Int) (connector : Fin motorConnectors),
      (wiring.axisAt? (connector + 1) = none → (wiring.motorSteps steps).get connector = 0) ∧
      ∀ axis, ∀ motor ∈ wiring.motorsOf axis, motor.connector = connector →
        (wiring.motorSteps steps).get connector =
          if motor.mirrored then -steps axis else steps axis := by
  have hlists := h.lists
  have hnumbers : (wiring.entries.map fun entry => entry.2.number).Nodup := by
    have hperm := hlists.perm.map Assignment.number
    rw [List.map_map] at hperm
    exact hperm.nodup_iff.mpr hlists.nodup
  refine ⟨fun number axis => ?_, fun axis motor _ => motor.inRange_assigned axis, hnumbers,
    hlists.motorsOf, fun assignment => ?_, fun steps connector => ⟨fun hfree => ?_, ?_⟩⟩
  · rcases hlists.entriesOn_cases number with ⟨haxis, hon⟩ | ⟨other, motor, haxis, hon⟩
    · simp [haxis, hon]
    · simp [haxis, hon]
  · rcases wiring.assign_cases assignment with
      ⟨hdone, hrange, hfree, -⟩ | ⟨error, hfailed, hreason⟩
    · exact ⟨iff_of_true hdone ⟨hrange, hfree⟩, fun hnot => absurd hdone hnot⟩
    · have hnot : ¬ (wiring.assign assignment).Succeeds := by simp [hfailed]
      refine ⟨iff_of_false hnot ?_, fun _ => by rw [hfailed]; rfl⟩
      rintro ⟨hrange, hfree⟩
      simp [hfree, hrange] at hreason
  · rcases hlists.entriesOn_cases (connector + 1) with ⟨-, hon⟩ | ⟨axis, motor, haxis, -⟩
    · rw [get_motorSteps_of_entriesOn, hon]
      rfl
    · rw [hfree] at haxis
      contradiction
  · rintro axis motor hmotor rfl
    have hmem := mem_entriesOn hmotor
    rcases hlists.entriesOn_cases motor.number with ⟨-, hon⟩ | ⟨other, single, -, hon⟩
    · simp [hon] at hmem
    · rw [hon, List.mem_singleton] at hmem
      rw [get_motorSteps_of_entriesOn, ← Motor.number, hon, ← hmem]
      rfl

/-- Five connectors, one of them free, and an axis with two motors that turn against each other. -/
def sampleSettings : Settings where
  axisMapping := some "XZE_Yy"

def sampleWiring : Wiring where
  motorsOf := ((((Register.fill []).set .x [⟨0, false⟩]).set .z [⟨1, false⟩]).set .e
    [⟨2, false⟩]).set .y [⟨4, false⟩, ⟨5, true⟩]
  drives := #v[some .x, some .z, some .e, none, some .y, some .y, none, none]
  homeOrder := [.z, .x, .y]

theorem ofSettings_sample : ofSettings sampleSettings = .ok sampleWiring := by
  decide +kernel

theorem motor_tables_agree_sample :
    ofSettings sampleSettings = .ok sampleWiring ∧
    (∃ motor, sampleWiring.entriesOn 6 = [(.y, motor)]) ∧
    (sampleWiring.motorSteps ((Register.fill 0).set .y (-7))).get 5 = 7 := by
  have h := motor_tables_agree (Built.spelled ofSettings_sample)
  refine ⟨ofSettings_sample, (h.1 6 .y).mp (by decide), ?_⟩
  exact (h.2.2.2.2.2 _ 5).2 .y ⟨5, true⟩ (by decide) rfl

end Built

end Wiring
end StepMotion
