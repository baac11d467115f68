import StepMotion.Binary64

/-! The speed profile of a straight move: up to three phases of constant acceleration between the
speeds at its ends. -/
namespace StepMotion

structure Phase where
  endsAt : Float
  v0 : Float
  v1 : Float

namespace Phase

def rampDistance (acceleration v0 v1 : Float) : Float := (v1 * v1 - v0 * v0) / (2.0 * acceleration)

def meetingSpeed (entry exit acceleration distance : Float) : Float :=
  Float.sqrt ((2.0 * acceleration * distance + entry * entry + exit * exit) / 2.0)

/-- Ramp up, cruise, ramp down, where the cruise speed can be reached; else two ramps that meet
below it; else one from `entry` to `exit`. -/
def trapezoid (entry exit cruise acceleration distance : Float) : List Phase :=
  let cruise := Binary64.greater (Binary64.greater cruise entry) exit
  let rise := rampDistance acceleration entry cruise
  let fall := rampDistance acceleration exit cruise
  if rise + fall ≤ distance then
    [⟨rise, entry, cruise⟩, ⟨distance - fall, cruise, cruise⟩, ⟨distance, cruise, exit⟩]
  else
    let peak := meetingSpeed entry exit acceleration distance
    if peak ≤ Binary64.greater entry exit then [⟨distance, entry, exit⟩]
    else
      [⟨Binary64.clamp (rampDistance acceleration entry peak) 0.0 distance, entry, peak⟩,
        ⟨distance, peak, exit⟩]

end Phase
end StepMotion
