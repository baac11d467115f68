import StepMotion.Motion.Planner
import StepMotion.Sink

/-! A machine applies its policies to requests for motion: the remembered feedrate, homing before
the first move, the range of each axis, power of the motors, and acknowledgements. A request that
passes goes to the planner. -/
namespace StepMotion

inductive MachineError where
  | outOfRange (axis : Axis) (position range : Float)
  | notHomed
  | noFeedrate
  | planner (cause : PlannerError)
  | motor (cause : MotorError)
  | io (reason : String)
  deriving DecidableEq

namespace MachineError

def positionNumber : Decimal.Layout :=
  { tie := .up, positional := none, pointZero := false, plus := false }

def message : MachineError → String
  | .outOfRange axis position range =>
    s!"Target {positionNumber.render position} mm on axis {axis.name} outside of range 0.."
      ++ s!"{positionNumber.render range} mm"
  | .notHomed => "Machine must be homed before moving"
  | .noFeedrate => "No feedrate given yet"
  | .planner cause => s!"Planner error: {cause.message}"
  | .motor cause => s!"Motor error: {cause.message}"
  | .io reason => s!"IO error: {reason}"

end MachineError

structure Machine (β : Type) where
  planner : Planner β
  sink : Option Sink := none
  feedrate : Option Float := none
  homed : Bool := false
  motorsOn : Bool := false

namespace Machine

variable {β : Type}

def make (config : MachineConfig) (wiring : Wiring) (backend : β) (sink : Option Sink) :
    Except MachineError (Machine β) := do
  let planner ← (Planner.make config wiring backend).mapError .planner
  return { planner, sink }

def config (machine : Machine β) : MachineConfig := machine.planner.config

def wiring (machine : Machine β) : Wiring := machine.planner.wiring

def position (machine : Machine β) : Register Float := machine.planner.position

/-- Whether a target lies in the range of an axis; an axis that is unbounded or not configured has
no range. -/
def inRange (limits : AxisLimits) (target : Float) : Bool :=
  !limits.isConfigured || limits.range < 0.0 || (0.0 ≤ target && target ≤ limits.range)

def rangeOffence? (config : MachineConfig) (target : Register Float) : Option MachineError :=
  (Axis.all.find? fun axis => !inRange (config.axes axis) (target axis)).map fun axis =>
    .outOfRange axis (target axis) (config.axes axis).range

/-- Why a request for a move is refused before anything is done. -/
def refusal? (machine : Machine β) (target : Register Float) : Option MachineError :=
  if machine.config.requireHoming && !machine.homed then some .notHomed
  else if machine.config.rangeCheck then rangeOffence? machine.config target
  else none

/-- The position of the machine when it stands on its home switches: the end of the range on an axis
that homes there, 0 on any other. -/
def homePosition (machine : Machine β) : Register Float :=
  .ofFn fun axis =>
    let range := (machine.config.axes axis).range
    match machine.wiring.homeSwitch? axis with
    | some switch => if switch.side = .max ∧ 0.0 ≤ range then range else 0.0
    | none => 0.0

def rapidFeedrate (config : MachineConfig) : Float :=
  (Axis.all.filter config.isConfigured).foldl
    (fun most axis => Binary64.greater most (config.axes axis).maxFeedrate) 0.0

def acknowledgement : String := "ok\n"

def acknowledge (machine : Machine β) : Attempt MachineError (Machine β) :=
  match machine.sink with
  | some sink =>
    if machine.config.acknowledgeLines then
      ((sink.write acknowledgement).andThen Sink.flush).within .io fun sink =>
        { machine with sink := some sink }
    else .done machine
  | none => .done machine

variable [MotorBackend β]

def setMotors (on : Bool) (machine : Machine β) : Machine β :=
  { machine with
    planner := { machine.planner with backend := MotorBackend.enable on machine.planner.backend }
    motorsOn := on }

def waitEmpty (machine : Machine β) : Attempt MachineError (Machine β) :=
  (MotorBackend.waitEmpty machine.planner.backend).within .motor fun backend =>
    { machine with planner := { machine.planner with backend := backend } }

def onPlanner (machine : Machine β) (attempt : Attempt PlannerError (Planner β)) :
    Attempt MachineError (Machine β) :=
  attempt.within .planner fun planner => { machine with planner := planner }

def finish (machine : Machine β) : Attempt MachineError (Machine β) :=
  (machine.onPlanner (machine.planner.halt.within .motor id)).andThen waitEmpty

def afterMove (machine : Machine β) : Attempt MachineError (Machine β) :=
  (if machine.config.synchronous then machine.finish else .done machine).andThen acknowledge

def moveAt (machine : Machine β) (feedrate : Float) (target : Register Float) :
    Attempt MachineError (Machine β) :=
  match machine.refusal? target with
  | some refusal => .failed refusal machine
  | none =>
    let machine := if machine.motorsOn then machine else machine.setMotors true
    let planned := machine.planner.enqueue target feedrate
    (machine.onPlanner (planned.within .motor id)).andThen afterMove

/-- A straight move. A feedrate given with it is remembered for later moves, even if it is
refused. -/
def coordinatedMove (machine : Machine β) (feedrate : Option Float) (target : Register Float) :
    Attempt MachineError (Machine β) :=
  let machine := { machine with feedrate := feedrate <|> machine.feedrate }
  match machine.feedrate with
  | some feedrate => machine.moveAt feedrate target
  | none => .failed .noFeedrate machine

def rapidMove (machine : Machine β) (target : Register Float) : Attempt MachineError (Machine β) :=
  let feedrate := rapidFeedrate machine.config
  if feedrate ≤ 0.0 then .failed .noFeedrate machine else machine.moveAt feedrate target

def setPosition (machine : Machine β) (position : Register Float) :
    Attempt MachineError (Machine β) :=
  machine.onPlanner (machine.planner.setPosition position)

def markHomed (machine : Machine β) : Attempt MachineError (Machine β) :=
  machine.finish.andThen fun machine =>
    (machine.setPosition machine.homePosition).andThen fun machine =>
      .done { machine with homed := true }

/-- Switches the motors on, or off once every move has been run. -/
def enableMotors (machine : Machine β) (on : Bool) : Attempt MachineError (Machine β) :=
  (if on then .done machine else machine.finish).andThen fun machine => .done (machine.setMotors on)

end Machine
end StepMotion
