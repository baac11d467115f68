import StepMotion.Motor.Recorder

/-! A recorder behind a link that carries a limited number of segments. Once they are used up it
neither takes a segment nor can be waited for, until it is given more. -/
namespace StepMotion

structure Limited where
  recorder : Recorder := {}
  remaining : Nat
  failure : MotorError
  enableCalls : Nat := 0

namespace Limited

def refill (limited : Limited) (count : Nat) : Limited := { limited with remaining := count }

instance : MotorBackend Limited where
  enqueue segment limited :=
    match limited.remaining with
    | 0 => .failed limited.failure limited
    | remaining + 1 =>
      (MotorBackend.enqueue segment limited.recorder).within id fun recorder =>
        { limited with recorder := recorder, remaining := remaining }
  enable on limited :=
    { limited with
      recorder := MotorBackend.enable on limited.recorder
      enableCalls := limited.enableCalls + 1 }
  waitEmpty limited :=
    if limited.remaining = 0 then .failed limited.failure limited
    else (MotorBackend.waitEmpty limited.recorder).within id fun recorder =>
      { limited with recorder := recorder }

end Limited
end StepMotion
