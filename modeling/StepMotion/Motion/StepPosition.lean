import StepMotion.Config
import StepMotion.Steps
import StepMotion.Wiring

/-! Positions in mm as step positions. Only axes that are configured and drive a motor have steps,
and only as many as a double counts exactly. -/
namespace StepMotion

/-- Whole numbers up to this one are exact as doubles. -/
def greatestStepPosition : Nat := Nat.pow 2 53

def isActive (config : MachineConfig) (wiring : Wiring) (axis : Axis) : Bool :=
  config.isConfigured axis && wiring.isMapped axis

/-- The step position nearest to a position in mm, 0 on axes that do not move. There is none if an
axis gets beyond `greatestStepPosition`. -/
def stepsOf? (config : MachineConfig) (wiring : Wiring) (position : Register Float) :
    Option Steps :=
  Register.all? <| .ofFn fun axis =>
    if isActive config wiring axis then
      (Binary64.nearest? (position axis * (config.axes axis).stepsPerMm)).filter fun n =>
        n.natAbs ≤ greatestStepPosition
    else some 0

end StepMotion
