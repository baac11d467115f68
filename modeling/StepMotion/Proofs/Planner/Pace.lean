import StepMotion.Proofs.Motion.Pace
import StepMotion.Proofs.Planner.Soundness

/-! The pace of what a planner hands over. The speeds of a segment are step rates of the defining
axis of its move. On the ramps at both ends of a move no axis makes more steps than that one;
between them another one may be a step ahead, since every axis is rounded on its own. -/
namespace StepMotion.Planner

open Binary64 Window

variable {β : Type} [MotorBackend β] {planner : Planner β}

/-- In the ramp that a move starts with, and for moves of up to `2 ^ 25` steps in the one that it ends
with, no axis is ahead of the defining one. In between it is by at most one step, and for moves of
up to `2 ^ 50` steps by at most two. -/
theorem ramps_keep_pace (h : planner.Reachable) (call : Call) :
    planner.offered call <+: (blocks (planner.planned call)).flatten ∧
    ∀ front move rest, planner.planned call = front ++ move :: rest →
      let segments := move.segments (entrySpeed rest)
      (∀ first ∈ segments.head?, move.KeepsPace 0 first) ∧
      (move.steps.count ≤ 2 ^ 25 →
        (∀ last ∈ segments.getLast?, move.KeepsPace 0 last) ∧
        ∀ segment ∈ segments, move.KeepsPace 1 segment) ∧
      (move.steps.count ≤ 2 ^ 50 → ∀ segment ∈ segments, move.KeepsPace 2 segment) := by
  have hoffered := offered_prefix h.planned call
  refine ⟨hoffered, fun front move rest hplanned => ?_⟩
  obtain ⟨hmove, hexit⟩ := h.sound.admissible_split h.planned hplanned
  exact ⟨fun first hfirst => Move.keepsPace_first hmove hexit hfirst,
    fun hbound => ⟨fun last hlast => Move.keepsPace_last hmove hexit hbound hlast,
      fun segment hsegment => Move.keepsPace_one hmove hexit hbound hsegment⟩,
    fun hbound segment hsegment => Move.keepsPace_two hmove hexit hbound hsegment⟩

def planarSample : Planner Recorder :=
  { sample with
    config := { axes := ((Register.fill {}).set .x sampleLimits).set .y sampleLimits }
    wiring :=
      { motorsOf := sample.wiring.motorsOf.set .y [⟨1, false⟩]
        drives := sample.wiring.drives.set 1 (some .y) } }

theorem make_planarSample :
    make planarSample.config planarSample.wiring planarSample.backend 2 = .ok planarSample :=
  make_of_valid (by decide +kernel) Nat.two_pos _ _

/-- A request for 10 steps of one axis and 9 of the other, at almost the speed of two ramps. -/
def slantCall : Call := .enqueue (((Register.fill 0.0).set .x 0.1).set .y 0.09) 12.9

theorem ramps_keep_pace_sample :
    ((planarSample.run [slantCall]).offered .halt).map
      (fun segment => (segment.steps .x, segment.steps .y)) = [(5, 4), (0, 1), (5, 4)] ∧
    ∃ move, (planarSample.run [slantCall]).planned .halt = [move] ∧ move.steps.count = 10 ∧
      (∀ first ∈ (move.segments 0.0).head?, move.KeepsPace 0 first) ∧
      (∀ last ∈ (move.segments 0.0).getLast?, move.KeepsPace 0 last) ∧
      ∀ segment ∈ move.segments 0.0, move.KeepsPace 1 segment := by
  have hcounts : ((planarSample.run [slantCall]).planned .halt).map (fun move => move.steps.count) =
      [10] := by decide +kernel
  obtain ⟨move, hplanned, hcount⟩ := List.map_eq_singleton_iff.mp hcounts
  have hreachable : (planarSample.run [slantCall]).Reachable :=
    Reachable.run (.make make_planarSample) _
  obtain ⟨-, hall⟩ := ramps_keep_pace hreachable .halt
  obtain ⟨hfirst, hsmall, -⟩ := hall [] move [] hplanned
  obtain ⟨hlast, hone⟩ := hsmall (by rw [hcount]; decide)
  exact ⟨by decide +kernel, move, hplanned, hcount, hfirst, hlast, hone⟩

theorem plateau_outruns :
    make planarSample.config planarSample.wiring planarSample.backend 2 = .ok planarSample ∧
    (planarSample.queued [slantCall]).map (fun move => move.steps.definingAxis) = [.x] ∧
    (planarSample.emitted [slantCall, .halt]).map
      (fun segment => (segment.steps .x, segment.steps .y, segment.steps.count)) =
        [(5, 4, 5), (0, 1, 1), (5, 4, 5)] := by
  refine ⟨make_planarSample, ?_, ?_⟩ <;> decide +kernel

end StepMotion.Planner
