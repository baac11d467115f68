import StepMotion.Proofs.Planner.SharpCorners

/-! Two planners that differ only in where they lead. The window does not look at the heading, so
they stay alike in everything else as long as every target asks for the same steps of both. -/
namespace StepMotion.Planner

variable {β : Type}

def steered (heading : Heading) (planner : Planner β) : Planner β :=
  { planner with
    config := heading.config
    wiring := heading.wiring
    position := heading.position
    stepPosition := heading.stepPosition }

section Laws

variable (planner : Planner β) (heading : Heading)

@[simp] theorem window_steered : (planner.steered heading).window = planner.window := rfl

theorem settle_steered : (planner.steered heading).settle = planner.settle.steered heading := by
  unfold settle steered
  by_cases hempty : planner.window.isEmpty <;> simp only [hempty, ↓reduceIte, Bool.false_eq_true]

/-- Of the heading, a move that enters the window only meets the threshold for corners. -/
theorem push_steered (h : heading.config.thresholdAngle = planner.config.thresholdAngle)
    (move : Move) : (planner.steered heading).push move = (planner.push move).steered heading := by
  unfold push
  rw [window_steered]
  cases planner.window.getLast? with
  | none => rfl
  | some last => simp only [steered, h]

end Laws

section Emission

variable [MotorBackend β]

theorem emitFront_steered (count : Nat) (planner : Planner β) (heading : Heading) :
    emitFront count (planner.steered heading) =
      (emitFront count planner).map (steered heading) := by
  induction count generalizing planner with
  | zero => rfl
  | succ count ih =>
    cases hwindow : planner.window with
    | nil =>
      rw [emitFront_of_empty _ hwindow, emitFront_of_empty _ (by exact hwindow)]
      rfl
    | cons move rest =>
      by_cases hsent : (planner.offer move rest).Succeeds
      · rw [emitFront_of_accepted count hwindow hsent,
          emitFront_of_accepted count (by exact hwindow) (by exact hsent)]
        exact ih (planner.goOn rest (planner.offer move rest).state)
      · rw [emitFront_of_refused count hwindow hsent,
          emitFront_of_refused count (by exact hwindow) (by exact hsent)]
        rfl

theorem emitSettled_steered (planner : Planner β) (heading : Heading) :
    (planner.steered heading).emitSettled = planner.emitSettled.map (steered heading) := by
  unfold emitSettled
  rw [window_steered, emitFront_steered]
  apply Attempt.map_andThen (steered heading)
  intro left
  exact emitFront_steered _ left heading

theorem halt_steered (planner : Planner β) (heading : Heading) :
    (planner.steered heading).halt = planner.halt.map (steered heading) := by
  by_cases hempty : planner.window = []
  · rw [halt_of_idle hempty, halt_of_idle (by exact hempty), settle_steered]
    rfl
  · have hdrained : (planner.steered heading).drained =
        planner.drained.map (steered heading) := emitFront_steered _ planner.draining heading
    by_cases hsent : planner.drained.Succeeds
    · rw [halt_of_accepted hempty hsent,
        halt_of_accepted (by exact hempty) (by rw [hdrained]; exact hsent), hdrained]
      rfl
    · rw [halt_of_refused hempty hsent,
        halt_of_refused (by exact hempty) (by rw [hdrained]; exact hsent), hdrained]
      rfl

end Emission

/-- Calls of the same kind and with the same feedrate, at positions that are related by `R`. -/
inductive Call.Alike (R : Register Float → Register Float → Prop) : Call → Call → Prop where
  | enqueue {target target' : Register Float} (h : R target target') (feedrate : Float) :
      Alike R (.enqueue target feedrate) (.enqueue target' feedrate)
  | halt : Alike R .halt .halt
  | setPosition {position position' : Register Float} (h : R position position') :
      Alike R (.setPosition position) (.setPosition position')

/-- Related positions are as many steps away from one heading as from the other, which is `offset`
further, and the same moves are planned for these steps. -/
structure Heading.Parallel (R : Register Float → Register Float → Prop) (offset : Steps)
    (heading other : Heading) : Prop where
  thresholdAngle : other.config.thresholdAngle = heading.config.thresholdAngle
  stepsOf? : ∀ target target', R target target' →
    StepMotion.stepsOf? other.config other.wiring target' =
      (StepMotion.stepsOf? heading.config heading.wiring target).map (·.add offset)
  plan? : ∀ steps feedrate,
    (∀ axis, isActive heading.config heading.wiring axis = false → steps axis = 0) →
      Move.plan? other.config steps feedrate = Move.plan? heading.config steps feedrate
  idle : ∀ axis, isActive heading.config heading.wiring axis = false →
    heading.stepPosition axis = 0
  stepPosition : other.stepPosition = heading.stepPosition.add offset

namespace Heading.Parallel

variable {R : Register Float → Register Float → Prop} {offset : Steps}

section Turns

variable {heading other : Heading} (h : Parallel R offset heading other)

include h

theorem repose (position position' : Register Float) :
    Parallel R offset { heading with position := position }
      { other with position := position' } :=
  ⟨h.thresholdAngle, h.stepsOf?, h.plan?, h.idle, h.stepPosition⟩

theorem turn {target : Register Float} {steps : Steps}
    (hsteps : StepMotion.stepsOf? heading.config heading.wiring target = some steps)
    (position position' : Register Float) :
    Parallel R offset ⟨heading.config, heading.wiring, position, steps⟩
      ⟨other.config, other.wiring, position', steps.add offset⟩ :=
  ⟨h.thresholdAngle, h.stepsOf?, h.plan?, fun _ haxis => stepsOf?_inactive hsteps haxis, rfl⟩

end Turns

variable {planner : Planner β} {other : Heading} (h : Parallel R offset planner.heading other)
  {target target' : Register Float} (htarget : R target target')

include h htarget

theorem aimed? (feedrate : Float) :
    (planner.steered other).aimed? target' feedrate =
      (planner.aimed? target feedrate).map (·.add offset) := by
  unfold Planner.aimed?
  split
  · exact h.stepsOf? target target' htarget
  · rfl

theorem requested? (feedrate : Float) :
    (planner.steered other).requested? target' feedrate =
      planner.requested? target feedrate := by
  rw [requested?_eq, requested?_eq, h.aimed? htarget]
  cases haimed : planner.aimed? target feedrate with
  | none => rfl
  | some steps =>
    have hsteps := aimed?_eq_some haimed
    have hdifference : (steps.add offset).sub (planner.steered other).stepPosition =
        steps.sub planner.stepPosition := by
      have hplace : (planner.steered other).stepPosition = planner.stepPosition.add offset :=
        h.stepPosition
      ext axis
      rw [hplace]
      simp only [Steps.get_sub, Steps.get_add]
      omega
    rw [Option.map_some, Option.bind_some, Option.bind_some, hdifference]
    apply h.plan?
    intro axis haxis
    have hplace : planner.stepPosition axis = 0 := h.idle axis haxis
    rw [Steps.get_sub, stepsOf?_inactive hsteps haxis, hplace]
    rfl

variable [MotorBackend β]

theorem enqueue (feedrate : Float) :
    ∃ next, (planner.steered other).enqueue target' feedrate =
        (planner.enqueue target feedrate).map (steered next) ∧
      Parallel R offset (planner.enqueue target feedrate).state.heading next := by
  have haimed' := h.aimed? htarget feedrate
  have hrequest' := h.requested? htarget feedrate
  cases haimed : planner.aimed? target feedrate with
  | none =>
    rw [haimed] at haimed'
    rw [enqueue_of_unaimed haimed, enqueue_of_unaimed haimed']
    exact ⟨other, rfl, h⟩
  | some steps =>
    rw [haimed] at haimed'
    cases hrequest : planner.requested? target feedrate with
    | none =>
      rw [hrequest] at hrequest'
      rw [enqueue_of_short haimed hrequest, enqueue_of_short haimed' hrequest']
      exact ⟨{ other with position := target' }, rfl, h.repose target target'⟩
    | some move =>
      rw [hrequest] at hrequest'
      have hplace : (planner.steered other).stepPosition.add move.steps =
          (planner.stepPosition.add move.steps).add offset := by
        have hother : (planner.steered other).stepPosition = planner.stepPosition.add offset :=
          h.stepPosition
        ext axis
        rw [hother]
        simp only [Steps.get_add]
        omega
      have hsteps := aimed?_eq_some (aimed?_of_requested hrequest)
      let next : Heading := ⟨other.config, other.wiring, target',
        (planner.stepPosition.add move.steps).add offset⟩
      refine ⟨next, ?_, ?_⟩
      · rw [enqueue_of_requested hrequest, enqueue_of_requested hrequest', hplace]
        let reached := planner.stepPosition.add move.steps
        have hpush : ((planner.steered other).aim target' (reached.add offset)).push move =
            ((planner.aim target reached).push move).steered next :=
          push_steered (planner.aim target reached) next h.thresholdAngle move
        rw [hpush, emitSettled_steered]
        apply Attempt.map_andThen (steered next)
        intro left
        exact congrArg Attempt.done (settle_steered left next)
      · rw [heading_enqueue_of_requested hrequest]
        exact h.turn hsteps target target'

theorem setPosition :
    ∃ next, (planner.steered other).setPosition target' =
        (planner.setPosition target).map (steered next) ∧
      Parallel R offset (planner.setPosition target).state.heading next := by
  have hsteps' := h.stepsOf? target target' htarget
  cases hsteps : StepMotion.stepsOf? planner.config planner.wiring target with
  | none =>
    have hnone : StepMotion.stepsOf? planner.heading.config planner.heading.wiring target = none :=
      hsteps
    rw [hnone] at hsteps'
    rw [setPosition_of_out_of_range hsteps, setPosition_of_out_of_range (by exact hsteps')]
    exact ⟨other, rfl, h⟩
  | some steps =>
    have hsome : StepMotion.stepsOf? planner.heading.config planner.heading.wiring target =
        some steps := hsteps
    rw [hsome] at hsteps'
    have hhalt := halt_steered planner other
    have hheading := planner.heading_halt
    by_cases hdone : planner.halt.Succeeds
    · have hdone' : (planner.steered other).halt.Succeeds := by
        rw [hhalt]
        exact hdone
      rw [setPosition_of_halted hsteps hdone, setPosition_of_halted (by exact hsteps') hdone',
        hhalt]
      refine ⟨⟨other.config, other.wiring, target', steps.add offset⟩, rfl, ?_⟩
      have hconfig := congrArg Heading.config hheading
      have hwiring := congrArg Heading.wiring hheading
      have hturned := h.turn hsome target target'
      rw [← hconfig, ← hwiring] at hturned
      exact hturned
    · have hdone' : ¬ (planner.steered other).halt.Succeeds := by
        rw [hhalt]
        exact hdone
      rw [setPosition_of_refused hsteps hdone, setPosition_of_refused (by exact hsteps') hdone',
        hhalt]
      refine ⟨other, rfl, ?_⟩
      have hsame : (planner.halt.within PlannerError.motor id).state.heading = planner.heading :=
        hheading
      rw [hsame]
      exact h

end Heading.Parallel

/-- What can be seen of a planner in the course of a call. -/
structure Report where
  outcome : Except PlannerError Unit
  sent : List Segment
  state : PlannerState
  waiting : Nat

section Reports

variable [MotorBackend β]

def report (planner : Planner β) (call : Call) : Report where
  outcome := (planner.perform call).outcome
  sent := planner.emitted [call]
  state := (planner.perform call).state.state
  waiting := (planner.perform call).state.window.length

def reports (planner : Planner β) : List Call → List Report
  | [] => []
  | call :: rest => planner.report call :: reports (planner.perform call).state rest

theorem emitted_eq_flatMap (planner : Planner β) (calls : List Call) :
    planner.emitted calls = (planner.reports calls).flatMap Report.sent := by
  induction calls generalizing planner with
  | nil => rfl
  | cons call rest ih =>
    rw [reports, List.flatMap_cons, ← ih]
    exact planner.emitted_append [call] rest

variable {R : Register Float → Register Float → Prop} {offset : Steps} {planner : Planner β}
  {other : Heading}

namespace Heading.Parallel

/-- Alike calls do the same under both headings, up to the heading. -/
theorem perform (h : Parallel R offset planner.heading other) {call call' : Call}
    (hcall : Call.Alike R call call') :
    ∃ next, (planner.steered other).perform call' = (planner.perform call).map (steered next) ∧
      Parallel R offset (planner.perform call).state.heading next := by
  cases hcall with
  | enqueue htarget feedrate =>
    obtain ⟨next, hsame, hnext⟩ := h.enqueue htarget feedrate
    refine ⟨next, ?_, hnext⟩
    rw [Planner.perform, hsame]
    rfl
  | halt =>
    refine ⟨other, ?_, ?_⟩
    · rw [Planner.perform, halt_steered]
      rfl
    · have hheading : (planner.perform .halt).state.heading = planner.heading :=
        planner.heading_halt
      rw [hheading]
      exact h
  | setPosition hposition => exact h.setPosition hposition

theorem report (h : Parallel R offset planner.heading other) {call call' : Call}
    (hcall : Call.Alike R call call') :
    (planner.steered other).report call' = planner.report call := by
  have hsent : (planner.steered other).emitted [call'] = planner.emitted [call] := by
    have htraced : Parallel R offset planner.traced.heading other := h
    obtain ⟨next, hsame, -⟩ := htraced.perform hcall
    unfold emitted
    exact congrArg (·.state.backend.accepted) hsame
  obtain ⟨next, hsame, -⟩ := h.perform hcall
  unfold Planner.report
  rw [hsame, hsent]
  rfl

theorem reports (h : Parallel R offset planner.heading other) {calls calls' : List Call}
    (hcalls : List.Forall₂ (Call.Alike R) calls calls') :
    (planner.steered other).reports calls' = planner.reports calls := by
  induction hcalls generalizing planner other with
  | nil => rfl
  | cons hcall hrest ih =>
    obtain ⟨next, hsame, hnext⟩ := h.perform hcall
    rw [Planner.reports, Planner.reports, h.report hcall, hsame]
    exact congrArg (_ :: ·) (ih hnext)

end Heading.Parallel

end Reports

end StepMotion.Planner
