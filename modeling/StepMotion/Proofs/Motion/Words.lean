import StepMotion.Proofs.Motion.Steady

/-! A move in words of 64 bits. A program that counts in words stops where a difference does not fit
in one, and a clamp stops it where the bounds are not in order. Here such a step has no result. A
move from one step position to another gets through all of them, whatever its speeds. -/
namespace StepMotion

open Binary64

def word? (n : Int) : Option Int := if -2 ^ 63 ≤ n ∧ n < 2 ^ 63 then some n else none

theorem word?_eq {n : Int} (h : n.natAbs ≤ 2 ^ 55) : word? n = some n := by
  unfold word?
  rw [if_pos (by omega)]

example : word? (2 ^ 63) = none := by decide

def count? (m n : Nat) : Option Nat := if n ≤ m then some (m - n) else none

theorem count?_eq {m n : Nat} (h : n ≤ m) : count? m n = some (m - n) := if_pos h

/-- A clamp that needs its bounds to be numbers in order. -/
def Binary64.clamp? (x low high : Float) : Option Float :=
  if low ≤ high then some (clamp x low high) else none

theorem Binary64.clamp?_eq {low high : Float} (h : low ≤ high) (x : Float) :
    clamp? x low high = some (clamp x low high) := if_pos h

def Steps.sub? (s t : Steps) : Option Steps :=
  Register.all? <| .ofFn fun axis => word? (s axis - t axis)

theorem Steps.sub?_eq {s t : Steps} (hs : ∀ axis, (s axis).natAbs ≤ 2 ^ 54)
    (ht : ∀ axis, (t axis).natAbs ≤ 2 ^ 54) : s.sub? t = some (s.sub t) := by
  apply Register.all?_eq_some
  intro axis
  have hdifference : (s axis - t axis).natAbs ≤ 2 ^ 55 := by
    have hleft := hs axis
    have hright := ht axis
    omega
  rw [Register.get_ofFn, Steps.get_sub, word?_eq hdifference]

namespace Corner

def angle? (a b : Register Float) : Option Float :=
  let cosine := Binary64.sum (Axis.all.map fun axis => a axis * b axis)
  (clamp? cosine (-1.0) 1.0).map fun cosine => Float.acos cosine * degreesPerRadian

def speedCap? (threshold : Float) (a : Register Float) (cruiseA : Float) (b : Register Float)
    (cruiseB : Float) : Option Float :=
  (angle? a b).map fun angle => if isSharp threshold angle then 0.0 else lesser cruiseA cruiseB

theorem speedCap?_eq (threshold : Float) (a : Register Float) (cruiseA : Float)
    (b : Register Float) (cruiseB : Float) :
    speedCap? threshold a cruiseA b cruiseB = some (speedCap threshold a cruiseA b cruiseB) := by
  have hbounds : (-1.0 : Float) ≤ 1.0 := by decide +kernel
  simp only [speedCap?, angle?, clamp?_eq hbounds]
  rfl

end Corner

namespace Phase

def trapezoid? (entry exit cruise acceleration distance : Float) : Option (List Phase) :=
  let cruise := greater (greater cruise entry) exit
  let rise := rampDistance acceleration entry cruise
  let fall := rampDistance acceleration exit cruise
  if rise + fall ≤ distance then
    some [⟨rise, entry, cruise⟩, ⟨distance - fall, cruise, cruise⟩, ⟨distance, cruise, exit⟩]
  else
    let peak := meetingSpeed entry exit acceleration distance
    if peak ≤ greater entry exit then some [⟨distance, entry, exit⟩]
    else
      (clamp? (rampDistance acceleration entry peak) 0.0 distance).map fun turn =>
        [⟨turn, entry, peak⟩, ⟨distance, peak, exit⟩]

theorem trapezoid?_eq {distance : Float} (h : 0.0 ≤ distance)
    (entry exit cruise acceleration : Float) :
    trapezoid? entry exit cruise acceleration distance =
      some (trapezoid entry exit cruise acceleration distance) := by
  simp only [trapezoid?, trapezoid, clamp?_eq h]
  split
  · rfl
  · split <;> rfl

end Phase

namespace Move

def phases (move : Move) (exit : Float) : List Phase :=
  Phase.trapezoid move.entry exit move.cruise move.acceleration move.distance

/-- The steps of a move that is left at the speed `exit`, and all that its phases reach, are at most
as many as there are from one end of the step range to the other. -/
structure InBounds (move : Move) (exit : Float) : Prop where
  steps : ∀ axis, (move.steps axis).natAbs ≤ 2 ^ 54
  reached : ∀ phase ∈ move.phases exit, ∀ axis, (move.stepsAt phase.endsAt axis).natAbs ≤ 2 ^ 54

def stretches? (move : Move) (made : Steps) : List Phase → Option (List Segment)
  | [] => some []
  | [phase] => (move.steps.sub? made).map fun steps => [⟨phase.v0, phase.v1, steps⟩]
  | phase :: rest => do
    let reached := move.stepsAt phase.endsAt
    let steps ← reached.sub? made
    let later ← stretches? move reached rest
    return ⟨phase.v0, phase.v1, steps⟩ :: later

def rampUpDown? (move : Move) : Option (List Segment) := do
  let peak := lesser (Float.sqrt (move.acceleration * move.distance)) move.cruise
  let up := halfSteps move.steps
  let down ← move.steps.sub? up
  return [⟨0.0, peak, up⟩, ⟨peak, 0.0, down⟩]

def segments? (move : Move) (exit : Float) : Option (List Segment) := do
  let phases ← Phase.trapezoid? move.entry exit move.cruise move.acceleration move.distance
  let stretches ← move.stretches? .zero phases
  match joinEmpty exit none stretches with
  | [only] => if only.v0 == 0.0 && only.v1 == 0.0 then move.rampUpDown? else some [only]
  | several => some several

variable {move : Move}

theorem stretches?_eq (hsteps : ∀ axis, (move.steps axis).natAbs ≤ 2 ^ 54) {phases : List Phase}
    (hphases : ∀ phase ∈ phases, ∀ axis, (move.stepsAt phase.endsAt axis).natAbs ≤ 2 ^ 54)
    {made : Steps} (hmade : ∀ axis, (made axis).natAbs ≤ 2 ^ 54) :
    move.stretches? made phases = some (move.stretches made phases) := by
  fun_induction stretches move made phases with
  | case1 => rfl
  | case2 made phase =>
    rw [stretches?, Steps.sub?_eq hsteps hmade]
    rfl
  | case3 made phase rest hrest reached ih =>
    obtain ⟨hreached, hlater⟩ := List.forall_mem_cons.mp hphases
    rw [stretches?, Steps.sub?_eq hreached hmade, ih hlater hreached]
    · rfl
    · exact hrest

theorem rampUpDown?_eq (hsteps : ∀ axis, (move.steps axis).natAbs ≤ 2 ^ 54) :
    move.rampUpDown? = some move.rampUpDown := by
  have hhalf : ∀ axis, (halfSteps move.steps axis).natAbs ≤ 2 ^ 54 := by
    intro axis
    simp only [halfSteps, Register.get_map]
    exact natAbs_half_le (hsteps axis)
  rw [rampUpDown?, Steps.sub?_eq hsteps hhalf]
  rfl

namespace Admissible

variable (h : move.Admissible)

include h

theorem distance_nonneg : 0.0 ≤ move.distance := by
  rw [le_iff, value_zero, h.steady.distance]
  exact ⟨rfl, (nearest_ofNat _).isNaN, (unsigned_ofNat _).nonneg⟩

theorem natAbs_stepsAt_le {exit : Float} (hexit : Unsigned exit) {phase : Phase}
    (hphase : phase ∈ move.phases exit) (axis : Axis) :
    (move.stepsAt phase.endsAt axis).natAbs ≤ 2 ^ 54 := by
  obtain ⟨-, hnumber, hnonneg⟩ := le_iff.mp h.distance_nonneg
  rw [value_zero] at hnonneg
  have hunsigned : Unsigned move.distance := h.steady.distance ▸ unsigned_ofNat _
  obtain ⟨hlow, hhigh⟩ := Phase.endsAt_mem_of_mem_trapezoid h.steady.entry.nonneg hexit.nonneg
    h.steady.acceleration hnumber hnonneg hphase
  simp only [stepsAt, Register.get_map]
  exact natAbs_share_le (h.natAbs_le axis) (value_div_nonneg hlow hunsigned)
    (value_div_le_one hlow hunsigned hhigh)

theorem inBounds {exit : Float} (hexit : Unsigned exit) : move.InBounds exit :=
  ⟨h.natAbs_le, fun _ hphase => h.natAbs_stepsAt_le hexit hphase⟩

/-- All of a move fits in words. -/
theorem segments?_eq {exit : Float} (hexit : Unsigned exit) :
    move.segments? exit = some (move.segments exit) := by
  have hstart : ∀ axis, (Steps.zero axis).natAbs ≤ 2 ^ 54 := by simp
  have hstretches := stretches?_eq h.natAbs_le
    (fun _ hphase => h.natAbs_stepsAt_le hexit hphase) hstart
  unfold phases at hstretches
  simp only [segments?, segments, Phase.trapezoid?_eq h.distance_nonneg, hstretches,
    rampUpDown?_eq h.natAbs_le, Option.bind_eq_bind, Option.bind_some]
  generalize joinEmpty exit none _ = joined
  obtain _ | ⟨only, _ | ⟨next, rest⟩⟩ := joined
  · rfl
  · dsimp only
    split <;> rfl
  · rfl

end Admissible

end Move
end StepMotion
