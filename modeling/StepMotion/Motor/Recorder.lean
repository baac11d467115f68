import StepMotion.Motor.Backend

/-! A backend that keeps every segment and refuses none. -/
namespace StepMotion

structure Recorder where
  segments : Array Segment := #[]
  enabled : Bool := false
  waits : Nat := 0

namespace Recorder

instance : MotorBackend Recorder where
  enqueue segment recorder := .done { recorder with segments := recorder.segments.push segment }
  enable on recorder := { recorder with enabled := on }
  waitEmpty recorder := .done { recorder with waits := recorder.waits + 1 }

def take (recorder : Recorder) : Array Segment × Recorder :=
  (recorder.segments, { recorder with segments := #[] })

end Recorder
end StepMotion
