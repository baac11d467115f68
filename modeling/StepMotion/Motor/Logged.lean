import StepMotion.Motor.Backend
import StepMotion.Text.Pad

/-! A backend that writes a line for every segment offered to it, accepted or not, and leaves the
rest to the backend inside. -/
namespace StepMotion

structure Logged (β : Type) where
  inner : β
  lines : Array String := #[]

namespace Logged

def line (number : Nat) (segment : Segment) : String :=
  let words := segment.stepWords fun axis steps => s!"{axis.name}={steps}"
  "#" ++ Text.alignLeft 5 (toString number) ++ " " ++ words
    ++ " v0=" ++ Decimal.fixed 1 segment.v0 ++ " v1=" ++ Decimal.fixed 1 segment.v1 ++ " steps/s"

variable {β : Type} [MotorBackend β]

instance : MotorBackend (Logged β) where
  enqueue segment logged :=
    let lines := logged.lines.push (line logged.lines.size segment)
    (MotorBackend.enqueue segment logged.inner).within id fun inner => ⟨inner, lines⟩
  enable on logged := { logged with inner := MotorBackend.enable on logged.inner }
  waitEmpty logged :=
    (MotorBackend.waitEmpty logged.inner).within id fun inner => { logged with inner := inner }

end Logged
end StepMotion
