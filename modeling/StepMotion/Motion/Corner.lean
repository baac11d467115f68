import StepMotion.Binary64
import StepMotion.Register

/-! Corners between straight moves. A sharp one is taken from rest; any other at no more than the
cruise speed of either move. -/
namespace StepMotion.Corner

def length (delta : Register Float) : Float :=
  Float.sqrt (Binary64.sum (Axis.all.map fun axis => delta axis * delta axis))

def unitVector (delta : Register Float) : Register Float :=
  if 0.0 < length delta then delta.map (· / length delta) else .fill 0.0

def degreesPerRadian : Float := 180.0 / 3.141592653589793

/-- The turn from one unit vector to the next in degrees: 0 straight on, 180 back. -/
def angle (a b : Register Float) : Float :=
  let cosine := Binary64.sum (Axis.all.map fun axis => a axis * b axis)
  Float.acos (Binary64.clamp cosine (-1.0) 1.0) * degreesPerRadian

def isSharp (threshold angle : Float) : Bool := threshold ≤ angle

def speedCap (threshold : Float) (a : Register Float) (cruiseA : Float) (b : Register Float)
    (cruiseB : Float) : Float :=
  if isSharp threshold (angle a b) then 0.0 else Binary64.lesser cruiseA cruiseB

end StepMotion.Corner
