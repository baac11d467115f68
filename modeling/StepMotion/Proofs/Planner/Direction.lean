import StepMotion.Proofs.Motion.Direction
import StepMotion.Proofs.Planner.Soundness

/-! The direction of what a planner hands over. The segments of a move go on towards its end on every
axis as long as the phases of its profile end in order, which they do unless the cruise speed is
reached between two different speeds. There the two ramps may overlap by the last bits of a double,
and a segment makes a step back. -/
namespace StepMotion.Planner

open Binary64 Window

variable {β : Type} [MotorBackend β] {planner : Planner β}

/-- No segment leads back on any axis if the phases of its move are in order, as they are if the move
does not reach its cruise speed or is entered and left at the same speed. Whatever the phases are,
at most one step of a segment leads back. -/
theorem moves_go_on (h : planner.Reachable) (call : Call) :
    planner.offered call <+: (blocks (planner.planned call)).flatten ∧
    ∀ front move rest, planner.planned call = front ++ move :: rest → ∀ axis,
      (move.InOrder (entrySpeed rest) → (move.steps axis).natAbs ≤ 2 ^ 53 →
        move.GoesOn (entrySpeed rest) axis) ∧
      ((move.profile (entrySpeed rest)).length < 3 ∨ move.entry = entrySpeed rest →
        move.InOrder (entrySpeed rest)) ∧
      ((move.steps axis).natAbs ≤ 2 ^ 50 → ∀ segment ∈ move.segments (entrySpeed rest),
        segment.steps axis = 0 ∨ (segment.steps axis).sign = (move.steps axis).sign ∨
          segment.steps axis = -(move.steps axis).sign) := by
  have hoffered := offered_prefix h.planned call
  refine ⟨hoffered, fun front move rest hplanned axis => ?_⟩
  obtain ⟨hmove, hexit⟩ := h.sound.admissible_split h.planned hplanned
  have hmoves : move.steps ≠ .zero := h.moving_planned call move (by simp [hplanned])
  have hdistance := hmove.distance hmoves
  refine ⟨fun horder hsteps => ?_, fun hplain => ?_, fun hsteps segment hsegment => ?_⟩
  · exact Move.goesOn_of_along fun segment hsegment =>
      hmove.steady.along_of_inOrder hexit hdistance hsteps horder hsegment
  · exact hmove.steady.inOrder hexit hdistance hplain
  · rw [← or_assoc, ← along_iff]
    exact hmove.steady.along_or_one_back hexit hdistance hsteps hsegment

theorem moves_go_on_sample :
    ((sample.run [goTo 10.0]).offered .halt).map (fun segment => segment.steps .x) =
      [125, 750, 125] ∧
    ∃ move, (sample.run [goTo 10.0]).planned .halt = [move] ∧ move.steps .x = 1000 ∧
      move.InOrder 0.0 ∧ move.GoesOn 0.0 .x ∧ ∀ segment ∈ move.segments 0.0,
        segment.steps .x = 0 ∨ (segment.steps .x).sign = (move.steps .x).sign ∨
          segment.steps .x = -(move.steps .x).sign := by
  have hsteps : ((sample.run [goTo 10.0]).planned .halt).map (fun move => move.steps .x) =
      [1000] := by decide +kernel
  have horder : ∀ move ∈ (sample.run [goTo 10.0]).planned .halt, move.InOrder 0.0 := by
    decide +kernel
  obtain ⟨move, hplanned, hmove⟩ := List.map_eq_singleton_iff.mp hsteps
  have hreachable : (sample.run [goTo 10.0]).Reachable := Reachable.run (.make make_sample) _
  obtain ⟨-, hall⟩ := moves_go_on hreachable .halt
  obtain ⟨hgoesOn, -, hback⟩ := hall [] move [] hplanned .x
  have hinOrder := horder move (hplanned ▸ List.mem_singleton_self move)
  exact ⟨by decide +kernel, move, hplanned, hmove, hinOrder,
    hgoesOn hinOrder (by rw [hmove]; decide), hback (by rw [hmove]; decide)⟩

def coarseLimits : AxisLimits where
  stepsPerMm := 1.0
  maxFeedrate := 1e30
  acceleration := 8.0

def coarseSample : Planner Recorder :=
  { sample with config := { sample.config with axes := (Register.fill {}).set .x coarseLimits } }

theorem make_coarseSample :
    make coarseSample.config coarseSample.wiring coarseSample.backend 2 = .ok coarseSample :=
  make_of_valid (by decide +kernel) Nat.two_pos _ _

def goAt (x feedrate : Float) : Call := .enqueue ((Register.fill 0.0).set .x x) feedrate

def farCalls : List Call :=
  [goAt (-4503599627370496.0) 1.0, .halt, goAt 4503599627370499.0 1.0, .halt]

/-- Moves straight on, of which the second reaches its cruise speed where it has to slow down again,
by rounding one bit behind it. -/
def hurriedMoves : List Move :=
  [(2, 1.0), (3, 5.0), (2, 0.999999999999999)].filterMap fun (steps, feedrate) =>
    (Move.plan? coarseSample.config (Steps.zero.set .x steps) feedrate).map fun move =>
      { move with entryCap := lesser 1.0 feedrate }

theorem segments_lead_back :
    make coarseSample.config coarseSample.wiring coarseSample.backend 2 = .ok coarseSample ∧
    (coarseSample.queued farCalls).map (fun move => move.steps .x) =
      [-4503599627370496, 9007199254740995] ∧
    (coarseSample.emitted farCalls).map (fun segment => segment.steps .x) =
      [-2251799813685248, -2251799813685248, 9007199254740996, -1] ∧
    (blocks (replan 0.0 hurriedMoves)).map (fun block => block.map fun segment => segment.steps .x) =
      [[2], [2, -1, 2], [2]] := by
  refine ⟨make_coarseSample, ?_, ?_, ?_⟩ <;> decide +kernel

end StepMotion.Planner
