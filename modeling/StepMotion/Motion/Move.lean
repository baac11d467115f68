import StepMotion.Config
import StepMotion.Motion.Corner
import StepMotion.Motion.Profile
import StepMotion.Segment

/-! A planned straight move and the segments it is made into. A move is planned in steps of its
defining axis; its segments share out the steps of every axis over the phases of its profile, with
the last phase ending exactly at the end of the move. -/
namespace StepMotion

/-- Distances are in steps of the defining axis, speeds in steps/s, the acceleration in steps/s². -/
structure Move where
  steps : Steps
  direction : Register Float
  distance : Float
  cruise : Float
  acceleration : Float
  /-- The highest speed at the corner before this move; zero is a stop. -/
  entryCap : Float
  entry : Float

namespace Move

def leastSteps : Nat := 2

def millimetres (config : MachineConfig) (steps : Steps) : Register Float :=
  .ofFn fun axis =>
    if steps axis = 0 then 0.0 else Float.ofInt (steps axis) / (config.axes axis).stepsPerMm

def leastLimit (direction : Register Float) (limit : Axis → Float) (start : Float) : Float :=
  Axis.all.foldl (fun least axis =>
    let part := (direction axis).abs
    if 0.0 < part then Binary64.lesser least (limit axis / part) else least) start

def plan? (config : MachineConfig) (steps : Steps) (feedrate : Float) : Option Move :=
  if steps.count < leastSteps then none
  else
    let delta := millimetres config steps
    let direction := Corner.unitVector delta
    let cruise := leastLimit direction (fun axis => (config.axes axis).maxFeedrate) feedrate
    let acceleration :=
      leastLimit direction (fun axis => (config.axes axis).acceleration) (1.0 / 0.0)
    let distance := Float.ofNat steps.count
    let stepsPerMm := distance / Corner.length delta
    some {
      steps := steps
      direction := direction
      distance := distance
      cruise := cruise * config.speedFactor * stepsPerMm
      acceleration := acceleration * stepsPerMm
      entryCap := 0.0
      entry := 0.0 }

def stopsBefore (move : Move) : Bool := move.entryCap == 0.0

def reachableFrom (move : Move) (speed : Float) : Float :=
  Float.sqrt (speed * speed + 2.0 * move.acceleration * move.distance)

def stepsAt (move : Move) (distance : Float) : Steps :=
  let fraction := distance / move.distance
  move.steps.map fun total => Binary64.nearestInt64 (Float.ofInt total * fraction)

def stretches (move : Move) (made : Steps) : List Phase → List Segment
  | [] => []
  | [phase] => [⟨phase.v0, phase.v1, move.steps.sub made⟩]
  | phase :: rest =>
    let reached := move.stepsAt phase.endsAt
    ⟨phase.v0, phase.v1, reached.sub made⟩ :: stretches move reached rest

/-- Leaves out the segments without a step. The speed into them, `held`, becomes the speed into the
next segment, and the last one goes on to `exit` if only empty ones follow it. -/
def joinEmpty (exit : Float) (held : Option Float) : List Segment → List Segment
  | [] => []
  | segment :: rest =>
    let v0 := held.getD segment.v0
    if segment.steps.isZero then joinEmpty exit (some v0) rest
    else if rest ≠ [] ∧ rest.all fun next => next.steps.isZero then
      [{ segment with v0 := v0, v1 := exit }]
    else { segment with v0 := v0 } :: joinEmpty exit none rest

def halfSteps (steps : Steps) : Steps :=
  steps.map fun total => Binary64.nearestInt64 (Float.ofInt total / 2.0)

def rampUpDown (move : Move) : List Segment :=
  let peak := Binary64.lesser (Float.sqrt (move.acceleration * move.distance)) move.cruise
  let up := halfSteps move.steps
  [⟨0.0, peak, up⟩, ⟨peak, 0.0, move.steps.sub up⟩]

/-- The segments of a move that is left at the speed `exit`. A single one from rest to rest would
not get anywhere and is made into two ramps. -/
def segments (move : Move) (exit : Float) : List Segment :=
  let phases := Phase.trapezoid move.entry exit move.cruise move.acceleration move.distance
  match joinEmpty exit none (move.stretches .zero phases) with
  | [only] => if only.v0 == 0.0 && only.v1 == 0.0 then move.rampUpDown else [only]
  | several => several

end Move
end StepMotion
