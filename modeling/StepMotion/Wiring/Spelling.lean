import StepMotion.Config
import StepMotion.Wiring

/-! A wiring spelled by strings, one character for each connector. A `_` leaves a connector free. A
capital letter is a motor that runs the usual way round, or a switch for homing; a small letter is a
mirrored motor, or a switch that only ends the travel. A string is read from left to right, and its
length is looked at before its characters. -/
namespace StepMotion.Wiring

def checkLength (field : LetterField) (letters : List Char) (capacity : Nat) :
    Except WiringError Unit :=
  if capacity < letters.length then .error (.tooManyConnectors field letters.length capacity)
  else .ok ()

def readAxis (field : LetterField) (letter : Char) (position : Nat) : Except WiringError Axis :=
  match Axis.ofLetter? letter with
  | some axis => .ok axis
  | none => .error (.invalidAxisLetter field position letter)

def addMotorLetter (wiring : Wiring) (letter : Char) (position : Nat) : Except WiringError Wiring :=
  if letter = '_' then .ok wiring
  else do
    let axis ← readAxis .axisMapping letter position
    wiring.addMotor axis (position + 1) letter.isLower

def addMotors (wiring : Wiring) (letters : List Char) : Except WiringError Wiring := do
  checkLength .axisMapping letters motorConnectors
  letters.zipIdx.foldlM (fun wiring entry => wiring.addMotorLetter entry.1 entry.2) wiring

def addSwitchLetter (side : SwitchSide) (wiring : Wiring) (letter : Char) (position : Nat) :
    Except WiringError Wiring :=
  if letter = '_' then .ok wiring
  else do
    let axis ← readAxis side.field letter position
    if (wiring.switches[position]?.join).isSome then .error (.duplicateSwitch (position + 1))
    else if letter.isUpper && (wiring.homeSwitch? axis).isSome then
      .error (.conflictingHomeSwitch axis)
    else
      let switch : EndSwitch := ⟨axis, side, letter.isUpper, .high⟩
      .ok { wiring with switches := wiring.switches.setIfInBounds position (some switch) }

def addSwitches (side : SwitchSide) (wiring : Wiring) (letters : List Char) :
    Except WiringError Wiring := do
  checkLength side.field letters switchConnectors
  letters.zipIdx.foldlM (fun wiring entry => wiring.addSwitchLetter side entry.1 entry.2) wiring

def triggerOf? (letter : Char) : Option TriggerLevel :=
  if letter ∈ ['1', 'H', 'h', '+'] then some .high
  else if letter ∈ ['0', 'L', 'l', '-'] then some .low
  else none

def setPolarityLetter (wiring : Wiring) (letter : Char) (position : Nat) :
    Except WiringError Wiring :=
  if letter = '_' then .ok wiring
  else match triggerOf? letter, wiring.switches[position]?.join with
    | none, _ => .error (.invalidPolarity position letter)
    | some _, none => .error (.unusedSwitchPolarity (position + 1))
    | some trigger, some switch =>
      let switch := { switch with trigger := trigger }
      .ok { wiring with switches := wiring.switches.setIfInBounds position (some switch) }

def setPolarities (wiring : Wiring) (letters : List Char) : Except WiringError Wiring := do
  checkLength .endswitchPolarity letters switchConnectors
  letters.zipIdx.foldlM (fun wiring entry => wiring.setPolarityLetter entry.1 entry.2) wiring

def addHomeLetter (axes : List Axis) (letter : Char) : Except WiringError (List Axis) :=
  match Axis.ofLetter? letter with
  | none => .error (.invalidHomeAxis letter)
  | some axis => if axis ∈ axes then .error (.duplicateHomeAxis axis) else .ok (axes ++ [axis])

/-- Builds the wiring that the strings of a configuration spell: motors, switches at either end,
polarities, home order. -/
def ofSettings (settings : Settings) : Except WiringError Wiring := do
  let wiring ← addMotors {} settings.effectiveAxisMapping.toList
  let wiring ← settings.minEndswitch.elim (.ok wiring) fun s => addSwitches .min wiring s.toList
  let wiring ← settings.maxEndswitch.elim (.ok wiring) fun s => addSwitches .max wiring s.toList
  let wiring ← settings.endswitchPolarity.elim (.ok wiring) fun s => setPolarities wiring s.toList
  let axes ← settings.effectiveHomeOrder.toList.foldlM addHomeLetter []
  return { wiring with homeOrder := axes }

end StepMotion.Wiring
