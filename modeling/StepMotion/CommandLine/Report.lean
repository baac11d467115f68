import StepMotion.Motor.Simulator
import StepMotion.Text.Pad

/-! What the command line prints about the segments of a session: a data record for each, or a table
with a total; and where a simulated machine ends up. -/
namespace StepMotion.CommandLine

def signed (n : Int) : String := if n < 0 then toString n else s!"+{n}"

def summaryRow (number : Nat) (segment : Segment) : String :=
  let words := segment.stepWords fun axis steps => axis.name ++ signed steps
  Text.alignRight 5 (toString number) ++ "  " ++ Text.alignLeft 40 words
    ++ " " ++ Text.alignRight 10 (Decimal.fixed 1 segment.v0)
    ++ " -> " ++ Text.alignRight 10 (Decimal.fixed 1 segment.v1) ++ " steps/s"

def summaryTotal (segments : List Segment) : String :=
  let seconds := Binary64.sum (segments.map Segment.duration)
  s!"{segments.length} segment(s), " ++ Decimal.fixed 3 seconds ++ " s"

def summary (segments : List Segment) : List String :=
  segments.zipIdx.map (fun entry => summaryRow entry.2 entry.1) ++ [summaryTotal segments]

def simulate (wiring : Wiring) (segments : List Segment) : Simulator :=
  let on := MotorBackend.enable true (Simulator.make wiring)
  let sent := MotorBackend.enqueueAll segments on
  MotorBackend.enable false (MotorBackend.waitEmpty sent.state).state

def motorRow (simulator : Simulator) (connector : Fin motorConnectors) : Option String :=
  let number := connector.val + 1
  (simulator.wiring.axisAt? number).map fun axis =>
    s!"motor {number} ({axis.name}): {simulator.positions[connector]} steps"

def simulation (simulator : Simulator) : List String :=
  (List.finRange motorConnectors).filterMap (motorRow simulator) ++
    [s!"simulated {simulator.executed} segment(s) in " ++ Decimal.fixed 3 simulator.elapsed ++ " s"]

end StepMotion.CommandLine
