import StepMotion.Motion.Move

/-! The window of moves whose speeds may still change. Planning runs over it twice: from the back,
so that every move can still stop by the end of the window, and from the front, so that no speed
is planned that cannot be reached. -/
namespace StepMotion.Window

def entrySpeed : List Move → Float
  | [] => 0.0
  | move :: _ => move.entry

/-- From the back: as fast into each move as its corner and the moves after it allow. -/
def planBackward : List Move → List Move
  | [] => []
  | move :: rest =>
    let rest := planBackward rest
    let fastest := move.reachableFrom (entrySpeed rest)
    { move with entry := Binary64.lesser move.entryCap fastest } :: rest

/-- From the front: no faster into each move than the move before it can get. -/
def planForward (reachable : Float) : List Move → List Move
  | [] => []
  | move :: rest =>
    let move := if reachable < move.entry then { move with entry := reachable } else move
    move :: planForward (move.reachableFrom move.entry) rest

def replan (frontEntry : Float) : List Move → List Move
  | [] => []
  | front :: rest =>
    let front := { front with entry := frontEntry }
    front :: planForward (front.reachableFrom frontEntry) (planBackward rest)

/-- The number of moves before the last stop inside the window. Nothing that comes later changes
their speeds. -/
def settledCount : List Move → Nat
  | [] => 0
  | _ :: rest => if rest.any Move.stopsBefore then settledCount rest + 1 else 0

end StepMotion.Window
