import StepMotion.Attempt
import StepMotion.Segment

/-! What drives the motors. A backend takes segments in order, may refuse one, and can be waited
for. It is a state with three operations; each says what state it leaves also when it fails. -/
namespace StepMotion

inductive MotorError where
  | disabled
  | queueClosed
  | io (reason : String)
  deriving DecidableEq, Repr

def MotorError.message : MotorError → String
  | .disabled => "Motors are disabled"
  | .queueClosed => "Motor queue closed"
  | .io reason => s!"IO error: {reason}"

class MotorBackend (β : Type) where
  enqueue : Segment → β → Attempt MotorError β
  enable : Bool → β → β
  waitEmpty : β → Attempt MotorError β

namespace MotorBackend

def enqueueAll {β : Type} [MotorBackend β] : List Segment → β → Attempt MotorError β
  | [], backend => .done backend
  | segment :: rest, backend => (enqueue segment backend).andThen (enqueueAll rest)

end MotorBackend
end StepMotion
