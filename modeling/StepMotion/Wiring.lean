import StepMotion.Register

/-! The wiring of a machine: which motors turn for which axis, which switch ends which axis, and the
order of homing. Motors are kept twice, for each axis in the order of assignment and for each
connector; a motor is assigned to both tables at once, so that they say the same. -/
namespace StepMotion

abbrev motorConnectors : Nat := 8

theorem motorConnectors_ne_zero : motorConnectors ≠ 0 := by decide

-- With the zero that literals of `Fin` ask for.
instance : @NeZero Nat .ofOfNat0 motorConnectors := ⟨motorConnectors_ne_zero⟩

abbrev switchConnectors : Nat := 6

/-- A motor on a connector; the first connector has index 0 and number 1. -/
structure Motor where
  connector : Fin motorConnectors
  mirrored : Bool
  deriving DecidableEq, Repr

namespace Motor

def number (motor : Motor) : Nat := motor.connector + 1

def turn (motor : Motor) (steps : Int) : Int := if motor.mirrored then -steps else steps

end Motor

inductive SwitchSide where
  | min | max
  deriving DecidableEq, Repr

inductive TriggerLevel where
  | high | low
  deriving DecidableEq, Repr

structure EndSwitch where
  axis : Axis
  side : SwitchSide
  homing : Bool
  trigger : TriggerLevel
  deriving DecidableEq, Repr

structure Wiring where
  motorsOf : Register (List Motor) := .fill []
  drives : Vector (Option Axis) motorConnectors := .replicate motorConnectors none
  switches : Vector (Option EndSwitch) switchConnectors := .replicate switchConnectors none
  homeOrder : List Axis := []
  deriving DecidableEq, Repr

inductive LetterField where
  | axisMapping | minEndswitch | maxEndswitch | endswitchPolarity
  deriving DecidableEq, Repr

def LetterField.name : LetterField → String
  | .axisMapping => "axis_mapping"
  | .minEndswitch => "min_endswitch"
  | .maxEndswitch => "max_endswitch"
  | .endswitchPolarity => "endswitch_polarity"

def SwitchSide.field : SwitchSide → LetterField
  | .min => .minEndswitch
  | .max => .maxEndswitch

/-- Positions count from zero, numbers of connectors from one. -/
inductive WiringError where
  | invalidAxisLetter (field : LetterField) (position : Nat) (letter : Char)
  | tooManyConnectors (field : LetterField) (count capacity : Nat)
  | connectorOutOfRange (number : Nat)
  | duplicateConnector (number : Nat) (existing : Axis)
  | duplicateSwitch (number : Nat)
  | conflictingHomeSwitch (axis : Axis)
  | invalidPolarity (position : Nat) (letter : Char)
  | unusedSwitchPolarity (number : Nat)
  | invalidHomeAxis (letter : Char)
  | duplicateHomeAxis (axis : Axis)
  deriving DecidableEq, Repr

def WiringError.message : WiringError → String
  | .invalidAxisLetter field position letter =>
    s!"{field.name}: invalid axis letter '{letter}' at position {position}"
  | .tooManyConnectors field count capacity =>
    s!"{field.name}: {count} entries but only {capacity} connectors available"
  | .connectorOutOfRange number => s!"Motor connector {number} out of range 1..={motorConnectors}"
  | .duplicateConnector number existing =>
    s!"Motor connector {number} already drives axis {existing.name}"
  | .duplicateSwitch number => s!"Switch connector {number} assigned to both min and max end"
  | .conflictingHomeSwitch axis => s!"Axis {axis.name} has homing switches on both ends"
  | .invalidPolarity position letter =>
    s!"endswitch_polarity: invalid trigger level '{letter}' at position {position}"
  | .unusedSwitchPolarity number =>
    s!"endswitch_polarity: switch connector {number} has no switch assigned"
  | .invalidHomeAxis letter => s!"home_order: invalid axis letter '{letter}'"
  | .duplicateHomeAxis axis => s!"home_order: axis {axis.name} listed twice"

namespace Wiring

def axisAt? (wiring : Wiring) : Nat → Option Axis
  | 0 => none
  | index + 1 => wiring.drives[index]?.join

def isMapped (wiring : Wiring) (axis : Axis) : Bool := !(wiring.motorsOf axis).isEmpty

def addMotor (wiring : Wiring) (axis : Axis) (number : Nat) (mirrored : Bool) :
    Except WiringError Wiring :=
  if h : 1 ≤ number ∧ number ≤ motorConnectors then
    let connector : Fin motorConnectors := ⟨number - 1, Nat.sub_one_lt_of_le h.1 h.2⟩
    match wiring.drives.get connector with
    | some existing => .error (.duplicateConnector number existing)
    | none => .ok { wiring with
        drives := wiring.drives.set connector (some axis) connector.isLt
        motorsOf := wiring.motorsOf.set axis (wiring.motorsOf axis ++ [⟨connector, mirrored⟩]) }
  else .error (.connectorOutOfRange number)

def entries (wiring : Wiring) : List (Axis × Motor) :=
  Axis.all.flatMap fun axis => (wiring.motorsOf axis).map (Prod.mk axis)

def homeSwitch? (wiring : Wiring) (axis : Axis) : Option EndSwitch :=
  wiring.switches.toList.findSome? fun slot =>
    slot.filter fun switch => switch.axis = axis && switch.homing

def writeSteps (steps : Register Int) (out : Vector Int motorConnectors) (entry : Axis × Motor) :
    Vector Int motorConnectors :=
  out.set entry.2.connector (entry.2.turn (steps entry.1)) entry.2.connector.isLt

/-- The steps of each connector for steps of the axes. A later motor on a connector would overwrite
an earlier one. -/
def motorSteps (wiring : Wiring) (steps : Register Int) : Vector Int motorConnectors :=
  wiring.entries.foldl (writeSteps steps) (.replicate motorConnectors 0)

end Wiring
end StepMotion
