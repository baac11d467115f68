import StepMotion.Proofs.Motion.Steady
import StepMotion.Proofs.Planner.Heading
import StepMotion.Proofs.Planner.Refusal

/-! What planning keeps of the quantities in the window. No speed in it has a minus sign, and no
move goes further than from one end of the step range to the other: that holds of every planner
for a valid configuration, whatever is requested of it. -/
namespace StepMotion

open Binary64

namespace Move

variable {move : Move}

theorem Steady.unsigned_reachableFrom (h : move.Steady) (speed : Float) :
    Unsigned (move.reachableFrom speed) := by
  have htwo : Unsigned 2.0 := NoMinus.finite _ _ _
  have hdistance : Unsigned move.distance := h.distance ▸ unsigned_ofNat _
  have hgain := (htwo.mul h.acceleration).mul hdistance
  exact ((unsigned_mul_self speed).add hgain).sqrt

theorem Steady.withEntry (h : move.Steady) {speed : Float} (hspeed : Unsigned speed) :
    ({ move with entry := speed } : Move).Steady :=
  ⟨h.distance, h.acceleration, h.cruise, h.entryCap, hspeed⟩

theorem Steady.withEntryCap (h : move.Steady) {cap : Float} (hcap : Unsigned cap) :
    ({ move with entryCap := cap } : Move).Steady :=
  ⟨h.distance, h.acceleration, h.cruise, hcap, h.entry⟩

theorem Admissible.withEntryCap (h : move.Admissible) {cap : Float} (hcap : Unsigned cap) :
    ({ move with entryCap := cap } : Move).Admissible :=
  ⟨h.steady.withEntryCap hcap, h.natAbs_le⟩

end Move

namespace Window

open Move

theorem keeps_steady : Keeps Steady Unsigned where
  rest := unsigned_zero
  speed h := h.entry
  given h hspeed := h.withEntry hspeed
  backward h _ := h.withEntry (h.entryCap.lesser (h.unsigned_reachableFrom _))
  forward hbefore _ h _ := h.withEntry (hbefore.unsigned_reachableFrom _)

theorem keeps_admissible : Keeps Admissible Unsigned where
  rest := unsigned_zero
  speed h := keeps_steady.speed h.steady
  given h hspeed := ⟨keeps_steady.given h.steady hspeed, h.natAbs_le⟩
  backward h hspeed := ⟨keeps_steady.backward h.steady hspeed, h.natAbs_le⟩
  forward hbefore hspeed h hlt :=
    ⟨keeps_steady.forward hbefore.steady hspeed h.steady hlt, h.natAbs_le⟩

theorem unsigned_entrySpeed {window : List Move} (h : ∀ move ∈ window, move.Steady) :
    Unsigned (entrySpeed window) :=
  keeps_steady.entrySpeed h

end Window

theorem natAbs_le_of_stepsOf? {config : MachineConfig} {wiring : Wiring}
    {position : Register Float} {steps : Steps} (h : stepsOf? config wiring position = some steps)
    (axis : Axis) : (steps axis).natAbs ≤ 2 ^ 53 := by
  by_cases hactive : isActive config wiring axis = true
  · exact (stepsOf?_active h hactive).2
  · rw [stepsOf?_inactive h (Bool.not_eq_true _ ▸ hactive)]
    exact Nat.zero_le _

namespace Planner

open Window

variable {β : Type} {planner : Planner β}

section Requests

variable {target : Register Float} {feedrate : Float} {move : Move}

theorem steady_of_requested (husable : planner.config.Usable)
    (hidle : ∀ axis, isActive planner.config planner.wiring axis = false →
      planner.stepPosition axis = 0)
    (h : planner.requested? target feedrate = some move) :
    move.Steady ∧
      ∀ axis, isActive planner.config planner.wiring axis = false → move.steps axis = 0 := by
  obtain ⟨⟨-, hfeedrate⟩, steps, hsteps, hmove, -⟩ := requested?_eq_some h
  have hinactive : ∀ axis, isActive planner.config planner.wiring axis = false →
      move.steps axis = 0 := by
    intro axis haxis
    rw [hmove, Steps.get_sub, stepsOf?_inactive hsteps haxis, hidle axis haxis]
    rfl
  refine ⟨Move.steady_of_plan? (requested?_plan h) husable (fun axis haxis => ?_) hfeedrate,
    hinactive⟩
  exact hinactive axis (by simp [isActive, haxis])

end Requests

section Push

variable {move : Move}

theorem unsigned_cornerCap {last : Move} (hlast : last.Steady) (hmove : move.Steady) :
    Unsigned (planner.cornerCap last move) := by
  unfold cornerCap Corner.speedCap
  split
  · exact unsigned_zero
  · exact hlast.cruise.lesser hmove.cruise

theorem Planned.window_push_unsigned (h : planner.Planned)
    (hsteady : ∀ move ∈ planner.window, move.Steady) (hmove : move.Steady) :
    ∃ cap, Unsigned cap ∧ (planner.push move).window =
      Window.replan planner.frontEntry (planner.window ++ [{ move with entryCap := cap }]) := by
  obtain ⟨cap, hcap, hwindow⟩ := window_push h move
  refine ⟨cap, ?_, hwindow⟩
  rcases hcap with rfl | ⟨last, hlast, rfl⟩
  · exact hmove.entryCap
  · exact unsigned_cornerCap (hsteady last hlast) hmove

end Push

/-- A heading for a valid configuration, towards a place that has steps. -/
structure Heading.Sound (heading : Heading) : Prop where
  usable : heading.config.Usable
  aimed : ∃ target, stepsOf? heading.config heading.wiring target = some heading.stepPosition

theorem Heading.Sound.natAbs_le {heading : Heading} (h : heading.Sound) (axis : Axis) :
    (heading.stepPosition axis).natAbs ≤ 2 ^ 53 := by
  obtain ⟨target, htarget⟩ := h.aimed
  exact natAbs_le_of_stepsOf? htarget axis

/-- What planning relies on, and what it keeps. -/
structure Sound (planner : Planner β) : Prop where
  heading : planner.heading.Sound
  window : ∀ move ∈ planner.window, move.Admissible

namespace Sound

variable (h : planner.Sound)

include h

theorem steady : ∀ move ∈ planner.window, move.Steady :=
  fun move hmove => (h.window move hmove).steady

theorem natAbs_sub_le {target : Register Float} {steps : Steps}
    (hsteps : stepsOf? planner.config planner.wiring target = some steps) (axis : Axis) :
    (steps axis - planner.stepPosition axis).natAbs ≤ 2 ^ 54 := by
  have htarget := natAbs_le_of_stepsOf? hsteps axis
  have hplace : (planner.stepPosition axis).natAbs ≤ 2 ^ 53 := h.heading.natAbs_le axis
  omega

theorem steady_of_added {call : Call} {move : Move} (hadded : planner.added? call = some move) :
    move.Steady ∧
      ∀ axis, isActive planner.config planner.wiring axis = false → move.steps axis = 0 := by
  cases call with
  | enqueue target feedrate =>
    obtain ⟨place, hplace⟩ := h.heading.aimed
    have hidle : ∀ axis, isActive planner.config planner.wiring axis = false →
        planner.stepPosition axis = 0 := fun axis haxis => stepsOf?_inactive hplace haxis
    exact steady_of_requested h.heading.usable hidle hadded
  | halt => contradiction
  | setPosition position => contradiction

theorem admissible_of_added {call : Call} {move : Move} (hadded : planner.added? call = some move) :
    move.Admissible := by
  cases call with
  | enqueue target feedrate =>
    obtain ⟨-, steps, hsteps, hmove, -⟩ := requested?_eq_some hadded
    refine ⟨(h.steady_of_added hadded).1, fun axis => ?_⟩
    rw [hmove, Steps.get_sub]
    exact h.natAbs_sub_le hsteps axis
  | halt => contradiction
  | setPosition position => contradiction

theorem admissible_added (call : Call) : ∀ move, planner.added? call = some move →
    move.Admissible ∧ ∀ last ∈ planner.window,
      ({ move with entryCap := planner.cornerCap last move } : Move).Admissible := by
  intro move hadded
  have hmove := h.admissible_of_added hadded
  exact ⟨hmove, fun last hlast =>
    hmove.withEntryCap (unsigned_cornerCap (h.window last hlast).steady hmove.steady)⟩

theorem admissible_planned (hplanned : planner.Planned) (call : Call) :
    ∀ move ∈ planner.planned call, move.Admissible :=
  hplanned.forall_mem_planned keeps_admissible h.window (h.admissible_added call)

theorem admissible_split (hplanned : planner.Planned) {call : Call} {front rest : List Move}
    {move : Move} (hwindow : planner.planned call = front ++ move :: rest) :
    move.Admissible ∧ Unsigned (entrySpeed rest) := by
  have hadmissible := h.admissible_planned hplanned call
  rw [hwindow, List.forall_mem_append, List.forall_mem_cons] at hadmissible
  obtain ⟨-, hmove, hrest⟩ := hadmissible
  exact ⟨hmove, unsigned_entrySpeed fun later hlater => (hrest later hlater).steady⟩

variable [MotorBackend β]

theorem perform (hplanned : planner.Planned) (call : Call) :
    (planner.perform call).state.Sound := by
  refine ⟨?_, hplanned.forall_mem_perform keeps_admissible h.window (h.admissible_added call)⟩
  · obtain hsame | ⟨target, aimed, hsteps, hturned | ⟨-, hshort⟩⟩ := planner.heading_perform call
    · rw [hsame]
      exact h.heading
    · rw [hturned]
      exact ⟨h.heading.usable, target, hsteps⟩
    · rw [hshort]
      exact ⟨h.heading.usable, h.heading.aimed⟩

end Sound

theorem Reachable.sound [MotorBackend β] (h : planner.Reachable) : planner.Sound := by
  induction h with
  | make hmake =>
    have husable := usable_of_make hmake
    obtain ⟨-, rfl⟩ := make_eq_ok hmake
    exact ⟨⟨husable, _, stepsOf?_origin _ husable⟩, List.forall_mem_nil _⟩
  | perform hreachable call ih => exact ih.perform hreachable.planned call
  | lend hreachable backend ih => exact ⟨ih.heading, ih.window⟩

end Planner
end StepMotion
