import StepMotion.Proofs.Planner.Steering

/-! An axis that is not configured or drives no motor has no part in planning. Its limits and its
coordinates may be anything, infinite or not numbers: the same segments are handed over, and none of
them has a step on it. -/
namespace StepMotion

open Binary64

/-- Two configurations that plan alike on the axes in `active`. -/
structure MachineConfig.AgreesOn (active : Axis → Bool) (config other : MachineConfig) :
    Prop where
  speedFactor : other.speedFactor = config.speedFactor
  thresholdAngle : other.thresholdAngle = config.thresholdAngle
  stepsPerMm : ∀ axis, active axis = true →
    (other.axes axis).stepsPerMm = (config.axes axis).stepsPerMm
  maxFeedrate : ∀ axis, active axis = true →
    (other.axes axis).maxFeedrate = (config.axes axis).maxFeedrate
  acceleration : ∀ axis, active axis = true →
    (other.axes axis).acceleration = (config.axes axis).acceleration

/-- Two positions with the same coordinates on the axes in `active`. -/
def AgreeOn (active : Axis → Bool) (position other : Register Float) : Prop :=
  ∀ axis, active axis = true → other axis = position axis

namespace Move

theorem leastLimit_congr {direction : Register Float} {limit other : Axis → Float} (start : Float)
    (h : ∀ axis, 0.0 < (direction axis).abs → other axis = limit axis) :
    leastLimit direction other start = leastLimit direction limit start := by
  unfold leastLimit
  congr 1
  funext least axis
  dsimp only
  split
  · next hpart => rw [h axis hpart]
  · rfl

section Congruence

variable {active : Axis → Bool} {config other : MachineConfig} (h : config.AgreesOn active other)
  {steps : Steps} (hsteps : ∀ axis, active axis = false → steps axis = 0)

include h hsteps

theorem millimetres_congr : millimetres other steps = millimetres config steps := by
  ext1 axis
  rw [millimetres, millimetres, Register.get_ofFn, Register.get_ofFn]
  cases hactive : active axis with
  | false => rw [if_pos (hsteps axis hactive), if_pos (hsteps axis hactive)]
  | true => rw [h.stepsPerMm axis hactive]

omit h in
theorem active_of_part {axis : Axis}
    (hpart : 0.0 < (Corner.unitVector (millimetres config steps) axis).abs) :
    active axis = true := by
  cases hactive : active axis with
  | true => rfl
  | false =>
    refine absurd hpart (not_part_of_zero ?_)
    rw [millimetres, Register.get_ofFn, if_pos (hsteps axis hactive)]

theorem plan?_congr (feedrate : Float) :
    plan? other steps feedrate = plan? config steps feedrate := by
  have hspeed : ∀ start, leastLimit (Corner.unitVector (millimetres config steps))
      (fun axis => (other.axes axis).maxFeedrate) start =
        leastLimit (Corner.unitVector (millimetres config steps))
          (fun axis => (config.axes axis).maxFeedrate) start := fun start =>
    leastLimit_congr start fun axis hpart => h.maxFeedrate axis (active_of_part hsteps hpart)
  have hacceleration : ∀ start, leastLimit (Corner.unitVector (millimetres config steps))
      (fun axis => (other.axes axis).acceleration) start =
        leastLimit (Corner.unitVector (millimetres config steps))
          (fun axis => (config.axes axis).acceleration) start := fun start =>
    leastLimit_congr start fun axis hpart => h.acceleration axis (active_of_part hsteps hpart)
  unfold plan?
  rw [millimetres_congr h hsteps, h.speedFactor]
  simp only [hspeed, hacceleration]

end Congruence

section Shares

variable {move : Move} {axis : Axis} (h : move.steps axis = 0)

include h

theorem stepsAt_zero (distance : Float) : move.stepsAt distance axis = 0 := by
  have hvalue := value_zero_mul (distance / move.distance)
  have hshare : (move.stepsAt distance axis).natAbs ≤ 0 := by
    rw [stepsAt, Register.get_map, h]
    apply natAbs_nearestInt64_le (by decide)
    rw [show Float.ofInt 0 = 0.0 from rfl, hvalue, abs_zero, Nat.cast_zero]
  exact Int.natAbs_eq_zero.mp (Nat.le_zero.mp hshare)

theorem steps_stretches_zero {phases : List Phase} {made : Steps} (hmade : made axis = 0) :
    ∀ segment ∈ move.stretches made phases, segment.steps axis = 0 := by
  fun_induction stretches move made phases with
  | case1 => exact List.forall_mem_nil _
  | case2 made phase => simp [h, hmade]
  | case3 made phase rest hrest reached ih =>
    have hreached : reached axis = 0 := stepsAt_zero h phase.endsAt
    rw [List.forall_mem_cons]
    exact ⟨by simp [hreached, hmade], ih hreached⟩

theorem halfSteps_zero : halfSteps move.steps axis = 0 := by
  rw [halfSteps, Register.get_map, h]
  decide +kernel

theorem steps_segments_zero (exit : Float) :
    ∀ segment ∈ move.segments exit, segment.steps axis = 0 := by
  intro segment hsegment
  rcases steps_of_mem_segments hsegment with ⟨stretch, hstretch, hsame⟩ | hup | hdown
  · rw [← hsame]
    exact steps_stretches_zero h (Steps.get_zero axis) stretch hstretch
  · rw [hup, halfSteps_zero h]
  · rw [hdown, Steps.get_sub, h, halfSteps_zero h, Int.sub_zero]

end Shares
end Move

theorem Window.steps_blocks_zero {axis : Axis} {window : List Move}
    (h : ∀ move ∈ window, move.steps axis = 0) :
    ∀ segment ∈ (blocks window).flatten, segment.steps axis = 0 := by
  intro segment hsegment
  obtain ⟨front, move, rest, rfl, hmem⟩ := exists_of_mem_blocks hsegment
  exact Move.steps_segments_zero (h move (by simp)) _ segment hmem

theorem MotorCall.offered?_of_accepted? {call : MotorCall} {segment : Segment}
    (h : call.accepted? = some segment) : call.offered? = some segment := by
  cases call with
  | enqueue offered accepted =>
    cases accepted with
    | true => exact h
    | false => contradiction
  | enable on => contradiction
  | waitEmpty succeeded => contradiction

theorem Traced.accepted_subset_offered {β : Type} (traced : Traced β) :
    traced.accepted ⊆ traced.offered := by
  intro segment hsegment
  obtain ⟨call, hcall, haccepted⟩ := List.mem_filterMap.mp hsegment
  exact List.mem_filterMap.mpr ⟨call, hcall, MotorCall.offered?_of_accepted? haccepted⟩

namespace Planner

open Window

variable {β : Type} [MotorBackend β] {planner : Planner β} {axis : Axis}

section Still

def Still (axis : Axis) (planner : Planner β) : Prop :=
  ∀ move ∈ planner.window, move.steps axis = 0

variable (h : planner.Reachable) (hidle : isActive planner.config planner.wiring axis = false)
  (hstill : planner.Still axis)

include h hidle hstill

theorem steps_planned_zero (call : Call) :
    ∀ move ∈ planner.planned call, move.steps axis = 0 :=
  h.planned.forall_steps_planned (P := fun steps => steps axis = 0) hstill fun _ hadded =>
    (h.sound.steady_of_added hadded).2 axis hidle

theorem Still.perform (call : Call) : (planner.perform call).state.Still axis :=
  h.planned.forall_steps_perform (P := fun steps => steps axis = 0) hstill fun _ hadded =>
    (h.sound.steady_of_added hadded).2 axis hidle

theorem steps_sent_zero (call : Call) : ∀ segment ∈ planner.emitted [call],
    segment.steps axis = 0 := by
  intro segment hsegment
  have hoffered : segment ∈ planner.offered call := Traced.accepted_subset_offered _ hsegment
  have hplanned := offered_prefix h.planned call
  exact steps_blocks_zero (steps_planned_zero h hidle hstill call) segment
    (hplanned.subset hoffered)

theorem steps_emitted_zero (calls : List Call) : ∀ segment ∈ planner.emitted calls,
    segment.steps axis = 0 := by
  induction calls generalizing planner with
  | nil => exact List.forall_mem_nil _
  | cons call rest ih =>
    obtain ⟨out, hchanges, -⟩ := planner.perform_changes h.braked.1 call
    have hlater : isActive (planner.perform call).state.config (planner.perform call).state.wiring
        axis = false := by
      rwa [hchanges.lookahead.1, hchanges.wiring]
    rw [← List.singleton_append, emitted_append, List.forall_mem_append]
    exact ⟨steps_sent_zero h hidle hstill call,
      ih (h.perform call) hlater (Still.perform h hidle hstill call)⟩

end Still

section Alike

variable {config other : MachineConfig} {wiring wiring' : Wiring} {backend : β} {lookahead : Nat}
  {planner' : Planner β}

theorem parallel_of_agreesOn {active : Axis → Bool} (position position' : Register Float)
    (hactive : ∀ axis, isActive config wiring axis = active axis)
    (hactive' : ∀ axis, isActive other wiring' axis = active axis)
    (h : config.AgreesOn active other) :
    Heading.Parallel (AgreeOn active) .zero ⟨config, wiring, position, .zero⟩
      ⟨other, wiring', position', .zero⟩ where
  thresholdAngle := h.thresholdAngle
  stepsOf? target target' htarget := by
    have hsame : stepsOf? other wiring' target' = stepsOf? config wiring target := by
      unfold stepsOf?
      congr 2
      funext axis
      rw [hactive, hactive']
      split
      · next haxis => rw [htarget axis haxis, h.stepsPerMm axis haxis]
      · rfl
    have hzero : (fun steps : Steps => steps.add .zero) = id := by
      funext steps
      ext axis
      simp
    rw [hsame, hzero, Option.map_id_fun, id]
  plan? steps feedrate hsteps := Move.plan?_congr h
    (fun axis haxis => hsteps axis ((hactive axis).trans haxis)) feedrate
  idle _ _ := Steps.get_zero _
  stepPosition := by
    ext axis
    simp

/-- Two planners that agree on the active axes do the same on calls that agree there, whatever is
configured or requested of the others, and no segment makes a step on an axis that is not active. -/
theorem inactive_axes_do_not_matter
    (hmake : make config wiring backend lookahead = .ok planner)
    (hmake' : make other wiring' backend lookahead = .ok planner')
    (hactive : ∀ axis, isActive other wiring' axis = isActive config wiring axis)
    (hconfig : config.AgreesOn (isActive config wiring) other) {calls calls' : List Call}
    (hcalls : List.Forall₂ (Call.Alike (AgreeOn (isActive config wiring))) calls calls') :
    planner'.reports calls' = planner.reports calls ∧
    planner'.emitted calls' = planner.emitted calls ∧
    ∀ segment ∈ planner.emitted calls, ∀ axis, isActive config wiring axis = false →
      segment.steps axis = 0 := by
  have hreachable : planner.Reachable := .make hmake
  obtain ⟨-, hplanner⟩ := make_eq_ok hmake
  obtain ⟨-, hplanner'⟩ := make_eq_ok hmake'
  have hsteered : planner' = planner.steered planner'.heading := by
    rw [hplanner, hplanner']
    rfl
  have hparallel : Heading.Parallel (AgreeOn (isActive config wiring)) .zero planner.heading
      planner'.heading := by
    rw [hplanner, hplanner']
    exact parallel_of_agreesOn _ _ (fun _ => rfl) hactive hconfig
  have hreports : planner'.reports calls' = planner.reports calls := by
    rw [hsteered]
    exact hparallel.reports hcalls
  have hidle : ∀ axis, isActive config wiring axis = false →
      isActive planner.config planner.wiring axis = false := by
    rw [hplanner]
    exact fun _ haxis => haxis
  have hstill : ∀ axis, planner.Still axis := by
    rw [hplanner]
    exact fun _ => List.forall_mem_nil _
  refine ⟨hreports, ?_, fun segment hsegment axis haxis => ?_⟩
  · rw [emitted_eq_flatMap, emitted_eq_flatMap, hreports]
  · exact steps_emitted_zero hreachable (hidle axis haxis) (hstill axis) calls segment hsegment

def idleLimits : AxisLimits where
  stepsPerMm := 80.0
  maxFeedrate := 1e-3
  acceleration := 1e-3

def voidLimits : AxisLimits where
  range := 0.0 / 0.0
  maxFeedrate := 0.0 / 0.0
  acceleration := 0.0 / 0.0

/-- The sample among axes that do not move, one of them with a motor. -/
def crowdedSample : Planner Recorder :=
  { sample with
    config := { axes := ((Register.fill voidLimits).set .y idleLimits).set .x sampleLimits }
    wiring :=
      { motorsOf := sample.wiring.motorsOf.set .z [⟨3, true⟩]
        drives := sample.wiring.drives.set 3 (some .z) } }

theorem make_crowdedSample :
    make crowdedSample.config crowdedSample.wiring crowdedSample.backend 2 = .ok crowdedSample :=
  make_of_valid (by decide +kernel) Nat.two_pos _ _

def nowhereBut (x : Float) : Register Float :=
  ((Register.fill (0.0 / 0.0)).set .y (1.0 / 0.0)).set .x x

def strayCalls : List Call :=
  [.enqueue (nowhereBut 10.0) 50.0, .halt, .setPosition (nowhereBut 3.0),
    .enqueue (nowhereBut 0.0) 50.0, .halt]

theorem inactive_axes_do_not_matter_sample :
    (sample.emitted sampleCalls).length = 6 ∧
    crowdedSample.reports strayCalls = sample.reports sampleCalls ∧
    crowdedSample.emitted strayCalls = sample.emitted sampleCalls ∧
    ∀ segment ∈ sample.emitted sampleCalls, ∀ axis,
      isActive sample.config sample.wiring axis = false → segment.steps axis = 0 := by
  have hx : ∀ axis, isActive sample.config sample.wiring axis = true → axis = .x := by
    intro axis
    cases axis <;> decide +kernel
  have hagree : ∀ target x, target .x = x →
      AgreeOn (isActive sample.config sample.wiring) target (nowhereBut x) := by
    intro target x htarget axis haxis
    rw [hx axis haxis, htarget]
    rfl
  have hlimits : ∀ axis, isActive sample.config sample.wiring axis = true →
      crowdedSample.config.axes axis = sample.config.axes axis := by
    intro axis haxis
    rw [hx axis haxis]
    rfl
  have hcalls : List.Forall₂ (Call.Alike (AgreeOn (isActive sample.config sample.wiring)))
      sampleCalls strayCalls :=
    .cons (.enqueue (hagree _ _ rfl) 50.0) <| .cons .halt <|
      .cons (.setPosition (hagree _ _ rfl)) <| .cons (.enqueue (hagree _ _ rfl) 50.0) <|
      .cons .halt .nil
  refine ⟨by decide +kernel, inactive_axes_do_not_matter make_sample make_crowdedSample
    (fun axis => ?_) ⟨rfl, rfl, ?_, ?_, ?_⟩ hcalls⟩
  · cases axis <;> decide +kernel
  · exact fun axis haxis => congrArg AxisLimits.stepsPerMm (hlimits axis haxis)
  · exact fun axis haxis => congrArg AxisLimits.maxFeedrate (hlimits axis haxis)
  · exact fun axis haxis => congrArg AxisLimits.acceleration (hlimits axis haxis)

end Alike
end Planner
end StepMotion
