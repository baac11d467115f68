import StepMotion.Machine
import StepMotion.MoveList

/-! A session runs a move list on a machine: each request in order, up to the first that fails, and
then the motors off. -/
namespace StepMotion.Machine

variable {β : Type} [MotorBackend β]

/-- One request, an axis without a target keeping its position. -/
def perform (machine : Machine β) (request : MoveRequest) : Attempt MachineError (Machine β) :=
  let target := machine.position.override request.axes
  match request.kind with
  | .coordinated => machine.coordinatedMove request.feedrate target
  | .rapid => machine.rapidMove target
  | .home => machine.markHomed

def performAll (machine : Machine β) : List MoveRequest → Attempt MachineError (Machine β)
  | [] => .done machine
  | request :: rest => (machine.perform request).andThen fun machine => machine.performAll rest

def session (machine : Machine β) (requests : List MoveRequest) :
    Attempt MachineError (Machine β) :=
  (machine.performAll requests).andThen fun machine => machine.enableMotors false

end StepMotion.Machine
