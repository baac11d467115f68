import StepMotion.Proofs.Motion.Limits
import StepMotion.Proofs.Planner.SharpCorners

/-! What is handed over gets somewhere. Each segment has a step to make, whatever is requested. It also
has a speed to make it with if the configuration and the feedrates are moderate: planning only makes
speeds of moves slower, and never slower than what can be reached over one of them. -/
namespace StepMotion

open Binary64

namespace Window

open Move

theorem keeps_moderate : Keeps Move.Moderate (Within (-613) 354) where
  rest := within_zero
  speed h := h.entry
  given h hspeed := { h with entry := hspeed }
  backward {move speed} h hspeed := by
    have hreach : Between (-613) 355 (move.reachableFrom speed) :=
      (h.reachableFrom hspeed).mono (by norm_num) (by norm_num)
    exact { h with entry := h.entryCap.lesser hreach }
  forward {before move speed} hbefore hspeed h hlt := by
    have hreach := hbefore.reachableFrom hspeed
    have hhigh := (lt_iff.mp hlt).2.2.le.trans h.entry.below.le_high
    exact { h with
      entry := .inr ⟨(two_zpow_le (by norm_num)).trans hreach.low_le, hhigh⟩ }

end Window

namespace Planner

open Window

variable {β : Type} {planner : Planner β} {call : Call}

/-- A request with a moderate feedrate, or with one that is ignored. -/
def Call.Moderate : Call → Prop
  | .enqueue _ feedrate =>
    Binary64.isFinite feedrate = true → 0.0 < feedrate → Binary64.Moderate feedrate
  | .halt => True
  | .setPosition _ => True

instance : DecidablePred Call.Moderate
  | .enqueue _ feedrate => inferInstanceAs (Decidable (_ → _ → Binary64.Moderate feedrate))
  | .halt => inferInstanceAs (Decidable True)
  | .setPosition _ => inferInstanceAs (Decidable True)

theorem Sound.moderate_of_added (h : planner.Sound) (hconfig : planner.config.Moderate)
    (hcall : call.Moderate) {move : Move} (hadded : planner.added? call = some move) :
    move.Moderate := by
  have hsteps := (h.admissible_of_added hadded).natAbs_le
  cases call with
  | enqueue target feedrate =>
    obtain ⟨⟨hfinite, hfeedrate⟩, -⟩ := requested?_eq_some hadded
    have hidle : ∀ axis, planner.config.isConfigured axis = false → move.steps axis = 0 :=
      fun axis haxis => (h.steady_of_added hadded).2 axis (by simp [isActive, haxis])
    exact Move.moderate_of_plan? hconfig hsteps hidle (hcall hfinite hfeedrate)
      (requested?_plan hadded)
  | halt => contradiction
  | setPosition position => contradiction

theorem within_cornerCap {last move : Move} (hlast : last.Moderate) (hmove : move.Moderate) :
    Within (-613) 354 (planner.cornerCap last move) := by
  unfold cornerCap Corner.speedCap
  split
  · exact within_zero
  · exact .inr (hlast.cruise.lesser hmove.cruise).1

theorem Sound.moderate_added (h : planner.Sound) (hconfig : planner.config.Moderate)
    (hwindow : ∀ move ∈ planner.window, move.Moderate) (hcall : call.Moderate) :
    ∀ move, planner.added? call = some move → move.Moderate ∧
      ∀ last ∈ planner.window,
        ({ move with entryCap := planner.cornerCap last move } : Move).Moderate := by
  intro move hadded
  have hmove := h.moderate_of_added hconfig hcall hadded
  exact ⟨hmove, fun last hlast =>
    { hmove with entryCap := within_cornerCap (hwindow last hlast) hmove }⟩

variable [MotorBackend β]

theorem config_run (planner : Planner β) (calls : List Call) :
    (planner.run calls).config = planner.config := by
  induction calls generalizing planner with
  | nil => rfl
  | cons call rest ih => exact (ih _).trans (planner.config_perform call).1

theorem Reachable.moderate_run (h : planner.Reachable) (hconfig : planner.config.Moderate)
    (hwindow : ∀ move ∈ planner.window, move.Moderate) {calls : List Call}
    (hcalls : ∀ call ∈ calls, call.Moderate) :
    ∀ move ∈ (planner.run calls).window, move.Moderate := by
  induction calls generalizing planner with
  | nil => exact hwindow
  | cons call rest ih =>
    rw [List.forall_mem_cons] at hcalls
    refine ih (h.perform call) ?_ ?_ hcalls.2
    · rwa [(planner.config_perform call).1]
    · exact h.planned.forall_mem_perform keeps_moderate hwindow
        (h.sound.moderate_added hconfig hwindow hcalls.1)

/-- What holds of each segment of each planned move holds of all that is offered. -/
theorem Reachable.forall_offered {P : Segment → Prop} (h : planner.Reachable)
    (hsegments : ∀ front move rest, planner.planned call = front ++ move :: rest →
      ∀ segment ∈ move.segments (entrySpeed rest), P segment) :
    ∀ segment ∈ planner.offered call, P segment := by
  intro segment hsegment
  have hoffered := offered_prefix h.planned call
  obtain ⟨front, move, rest, hplanned, hmem⟩ := exists_of_mem_blocks (hoffered.subset hsegment)
  exact hsegments front move rest hplanned segment hmem

theorem Reachable.steps_offered (h : planner.Reachable) (call : Call) :
    ∀ segment ∈ planner.offered call,
      segment.steps ≠ .zero ∧ ¬ segment.v0 < 0.0 ∧ ¬ segment.v1 < 0.0 := by
  refine h.forall_offered fun front move rest hplanned segment hsegment => ?_
  obtain ⟨hmove, hexit⟩ := h.sound.admissible_split h.planned hplanned
  have hleast := h.least_planned call move (by simp [hplanned])
  have hnonneg : ∀ {speed : Float}, 0 ≤ value speed → ¬ speed < 0.0 := fun hspeed hlt =>
    absurd ((lt_iff.mp hlt).2.2.trans_eq value_zero) hspeed.not_gt
  obtain ⟨hv0, hv1⟩ := hmove.steady.speeds_nonneg hexit segment hsegment
  exact ⟨Move.steps_ne_zero_of_mem_segments hleast hmove.natAbs_le segment hsegment, hnonneg hv0,
    hnonneg hv1⟩

theorem Reachable.moves_offered (h : planner.Reachable) (hconfig : planner.config.Moderate)
    (hwindow : ∀ move ∈ planner.window, move.Moderate) {call : Call} (hcall : call.Moderate) :
    ∀ segment ∈ planner.offered call, segment.Moves := by
  refine h.forall_offered fun front move rest hplanned => ?_
  obtain ⟨hmove, hexit⟩ := h.sound.admissible_split h.planned hplanned
  have hleast := h.least_planned call move (by simp [hplanned])
  have hmoderate := h.planned.forall_mem_planned keeps_moderate hwindow
    (h.sound.moderate_added hconfig hwindow hcall)
  rw [hplanned, List.forall_mem_append, List.forall_mem_cons] at hmoderate
  obtain ⟨-, hlimits, hrest⟩ := hmoderate
  exact hlimits.moves hmove hleast (keeps_moderate.entrySpeed hrest) hexit

/-- Every segment that is offered makes a step, at speeds that are not negative. Under moderate limits
and at moderate feedrates it takes a finite time. -/
theorem segments_move {config : MachineConfig} {wiring : Wiring} {backend : β} {lookahead : Nat}
    (hmake : make config wiring backend lookahead = .ok planner) (before : List Call) (call : Call) :
    ∀ segment ∈ (planner.run before).offered call,
      (∃ axis, segment.steps axis ≠ 0) ∧ ¬ segment.v0 < 0.0 ∧ ¬ segment.v1 < 0.0 ∧
      (config.Moderate → (∀ past ∈ before ++ [call], past.Moderate) → segment.Moves) := by
  intro segment hsegment
  have hstart : planner.Reachable := .make hmake
  obtain ⟨hsteps, hv0, hv1⟩ := (hstart.run before).steps_offered call segment hsegment
  refine ⟨?_, hv0, hv1, fun hconfig hcalls => ?_⟩
  · by_contra hnone
    exact hsteps (Register.ext fun axis => by simpa using not_exists.mp hnone axis)
  · obtain ⟨-, hplanner⟩ := make_eq_ok hmake
    have hsame : planner.config = config := by rw [hplanner]
    have hempty : ∀ move ∈ planner.window, move.Moderate := by
      rw [hplanner]
      exact List.forall_mem_nil _
    rw [← hsame] at hconfig
    rw [List.forall_mem_append, List.forall_mem_singleton] at hcalls
    have hkept : (planner.run before).config.Moderate := by rwa [config_run]
    exact (hstart.run before).moves_offered hkept (hstart.moderate_run hconfig hempty hcalls.1)
      hcalls.2 segment hsegment

theorem segments_move_sample :
    ((sample.run [goTo 10.0]).offered .halt).map (fun segment => segment.steps .x) =
      [125, 750, 125] ∧
    ∀ segment ∈ (sample.run [goTo 10.0]).offered .halt,
      (∃ axis, segment.steps axis ≠ 0) ∧ ¬ segment.v0 < 0.0 ∧ ¬ segment.v1 < 0.0 ∧
        segment.Moves := by
  have hx : ∀ axis, sample.config.isConfigured axis = true → axis = .x := by
    intro axis
    cases axis <;> decide +kernel
  have hlimits : sampleLimits.Moderate := by constructor <;> decide +kernel
  have hconfig : sample.config.Moderate := by
    refine ⟨by decide +kernel, fun axis haxis => ?_⟩
    rw [hx axis haxis]
    exact hlimits
  have hcalls : ∀ past ∈ [goTo 10.0] ++ [.halt], past.Moderate := by decide +kernel
  refine ⟨by decide +kernel, fun segment hsegment => ?_⟩
  obtain ⟨hsteps, hv0, hv1, hmoves⟩ := segments_move make_sample [goTo 10.0] .halt segment hsegment
  exact ⟨hsteps, hv0, hv1, hmoves hconfig hcalls⟩

/-- A request for the smallest of all feedrates, of which the speed factor leaves nothing. -/
theorem segments_rest :
    make slowSample.config slowSample.wiring slowSample.backend 2 = .ok slowSample ∧
    (slowSample.emitted [creepTo 10.0, .halt]).map (fun segment => segment.steps .x) =
      [500, 500] ∧
    ∀ segment ∈ slowSample.emitted [creepTo 10.0, .halt],
      segment.v0 = 0.0 ∧ segment.v1 = 0.0 ∧ segment.duration = 0.0 := by
  refine ⟨make_slowSample, ?_, ?_⟩ <;> decide +kernel

end Planner
end StepMotion
