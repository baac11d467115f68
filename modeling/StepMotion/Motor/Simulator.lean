import StepMotion.Motor.Backend
import StepMotion.Wiring

/-! A simulated machine. Segments wait in a queue of limited capacity; one that arrives at a full
queue lets the oldest run first. Each that runs moves the motors and takes its time. -/
namespace StepMotion

structure Simulator where
  wiring : Wiring
  capacity : Nat
  pending : List Segment := []
  positions : Vector Int motorConnectors := .replicate motorConnectors 0
  executed : Nat := 0
  elapsed : Float := 0.0
  enabled : Bool := false

namespace Simulator

def make (wiring : Wiring) (capacity : Nat := 64) : Simulator :=
  { wiring := wiring, capacity := max capacity 1 }

def execute (simulator : Simulator) (segment : Segment) : Simulator :=
  let deltas := simulator.wiring.motorSteps segment.steps
  { simulator with
    positions := simulator.positions.zipWith (· + ·) deltas
    elapsed := simulator.elapsed + segment.duration
    executed := simulator.executed + 1 }

def executeOldest (simulator : Simulator) (count : Nat) : Simulator :=
  let ran := (simulator.pending.take count).foldl execute simulator
  { ran with pending := simulator.pending.drop count }

def overflow (simulator : Simulator) : Nat := simulator.pending.length + 1 - simulator.capacity

instance : MotorBackend Simulator where
  enqueue segment simulator :=
    if simulator.enabled then
      let roomy := simulator.executeOldest simulator.overflow
      .done { roomy with pending := roomy.pending ++ [segment] }
    else .failed .disabled simulator
  enable on simulator := { simulator with enabled := on }
  waitEmpty simulator := .done (simulator.executeOldest simulator.pending.length)

end Simulator
end StepMotion
