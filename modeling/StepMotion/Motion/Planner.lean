import StepMotion.Motion.StepPosition
import StepMotion.Motion.Window
import StepMotion.Motor.Backend

/-! The lookahead planner. Moves enter a window in order; those whose speeds can no longer change
leave it at the front as segments for the backend. A move leaves the window only once the backend
took all of its segments. -/
namespace StepMotion

inductive PlannerError where
  | config (cause : ConfigError)
  | emptyLookahead
  | positionOutOfRange
  | motor (cause : MotorError)
  deriving DecidableEq, Repr

def PlannerError.message : PlannerError → String
  | .config cause => s!"Invalid machine configuration: {cause.message}"
  | .emptyLookahead => "Lookahead must hold at least one move"
  | .positionOutOfRange => "Position outside the representable step range"
  | .motor cause => s!"Motor backend error: {cause.message}"

inductive PlannerState where
  | idle
  | buffering
  | draining
  deriving DecidableEq, Repr

structure Planner (β : Type) where
  config : MachineConfig
  wiring : Wiring
  lookahead : Nat
  backend : β
  window : List Move := []
  /-- The speed into the first move, fixed by the segments already handed over. -/
  frontEntry : Float := 0.0
  /-- The target of the last accepted request, in mm. -/
  position : Register Float := .fill 0.0
  stepPosition : Steps := .zero
  state : PlannerState := .idle

namespace Planner

def defaultLookahead : Nat := 16

variable {β : Type}

def make (config : MachineConfig) (wiring : Wiring) (backend : β)
    (lookahead : Nat := defaultLookahead) : Except PlannerError (Planner β) := do
  config.validate.mapError .config
  if lookahead = 0 then throw .emptyLookahead
  return { config, wiring, lookahead, backend }

def push (planner : Planner β) (move : Move) : Planner β :=
  match planner.window.getLast? with
  | none =>
    { planner with window := Window.replan 0.0 [move], frontEntry := 0.0, state := .buffering }
  | some last =>
    let cap := Corner.speedCap planner.config.thresholdAngle
      last.direction last.cruise move.direction move.cruise
    { planner with
      window := Window.replan planner.frontEntry (planner.window ++ [{ move with entryCap := cap }])
      state := .buffering }

variable [MotorBackend β]

/-- Hands the first `count` moves over. A move that the backend refuses a segment of stays in front
of the window, although some of its segments may be taken. -/
def emitFront : Nat → Planner β → Attempt MotorError (Planner β)
  | 0, planner => .done planner
  | count + 1, planner =>
    match planner.window with
    | [] => .done planner
    | move :: rest =>
      let exit := Window.entrySpeed rest
      let sent := MotorBackend.enqueueAll (move.segments exit) planner.backend
      match sent.outcome with
      | .error error => .failed error { planner with backend := sent.state }
      | .ok () =>
        emitFront count { planner with window := rest, frontEntry := exit, backend := sent.state }

def emitSettled (planner : Planner β) : Attempt MotorError (Planner β) :=
  (emitFront (Window.settledCount planner.window) planner).andThen fun planner =>
    emitFront (planner.window.length - planner.lookahead) planner

def settle (planner : Planner β) : Planner β :=
  if planner.window.isEmpty then { planner with state := .idle } else planner

/-- Requests a straight move to `target` in mm at a feedrate in mm/s. A request that has no usable
feedrate or whose target has no step position changes nothing. One that is too short only moves the
position: its steps are made by the next move. -/
def enqueue (planner : Planner β) (target : Register Float) (feedrate : Float) :
    Attempt MotorError (Planner β) :=
  if !(Binary64.isFinite feedrate && 0.0 < feedrate) then .done planner
  else match stepsOf? planner.config planner.wiring target with
    | none => .done planner
    | some steps =>
      match Move.plan? planner.config (steps.sub planner.stepPosition) feedrate with
      | none => .done { planner with position := target }
      | some move =>
        (push { planner with position := target, stepPosition := steps } move).emitSettled.andThen
          fun planner => .done planner.settle

def halt (planner : Planner β) : Attempt MotorError (Planner β) :=
  if planner.window.isEmpty then .done planner.settle
  else
    let planned := { planner with
      window := Window.replan planner.frontEntry planner.window, state := .draining }
    let sent := emitFront planned.window.length planned
    match sent.outcome with
    | .error error => .failed error { sent.state with state := .buffering }
    | .ok () => .done { sent.state with frontEntry := 0.0, state := .idle }

def setPosition (planner : Planner β) (position : Register Float) :
    Attempt PlannerError (Planner β) :=
  match stepsOf? planner.config planner.wiring position with
  | none => .failed .positionOutOfRange planner
  | some steps =>
    (planner.halt.within .motor id).andThen fun planner =>
      .done { planner with position := position, stepPosition := steps }

def describedNumber : Decimal.Layout :=
  { tie := .up, positional := some (-4, 15), pointZero := true, plus := false }

def stateName : PlannerState → String
  | .idle => "Idle"
  | .buffering => "Buffering"
  | .draining => "Draining"

def describe (planner : Planner β) : String :=
  let values := ", ".intercalate (planner.position.toList.map describedNumber.render)
  "Planner \x7b state: " ++ stateName planner.state
    ++ ", queue_len: " ++ toString planner.window.length
    ++ ", lookahead: " ++ toString planner.lookahead
    ++ ", position: AxesRegister \x7b values: [" ++ values ++ "] \x7d \x7d"

end Planner
end StepMotion
