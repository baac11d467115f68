import StepMotion.Proofs.Planner.Changes

/-! Where a planner leads: the position that it reports and the step position that its moves end at.
Only three kinds of call change it, and each is said here once. -/
namespace StepMotion

open Binary64

namespace Planner

variable {β : Type}

section Requests

def aimed? (planner : Planner β) (target : Register Float) (feedrate : Float) : Option Steps :=
  if isFinite feedrate && 0.0 < feedrate then stepsOf? planner.config planner.wiring target
  else none

variable {planner : Planner β} {target : Register Float} {feedrate : Float}

theorem requested?_eq (planner : Planner β) (target : Register Float) (feedrate : Float) :
    planner.requested? target feedrate = (planner.aimed? target feedrate).bind fun steps =>
      Move.plan? planner.config (steps.sub planner.stepPosition) feedrate := by
  unfold requested? aimed?
  split <;> rfl

theorem aimed?_eq_some {steps : Steps} (h : planner.aimed? target feedrate = some steps) :
    stepsOf? planner.config planner.wiring target = some steps := by
  unfold aimed? at h
  split at h
  · exact h
  · contradiction

theorem aimed?_of_requested {move : Move} (h : planner.requested? target feedrate = some move) :
    planner.aimed? target feedrate = some (planner.stepPosition.add move.steps) := by
  rw [requested?_eq] at h
  obtain ⟨steps, haimed, hplan⟩ := Option.bind_eq_some_iff.mp h
  rw [haimed, (Move.plan?_eq_some hplan).1]
  congr 1
  ext axis
  simp only [Steps.get_add, Steps.get_sub]
  omega

theorem natAbs_le_one_of_ignored {steps : Steps}
    (haimed : planner.aimed? target feedrate = some steps)
    (h : planner.requested? target feedrate = none) (axis : Axis) :
    (steps axis - planner.stepPosition axis).natAbs ≤ 1 := by
  rw [requested?_eq, haimed, Option.bind_some] at h
  unfold Move.plan? at h
  split at h
  · next hcount =>
    have haxis := (steps.sub planner.stepPosition).natAbs_le_count axis
    rw [Steps.get_sub] at haxis
    exact haxis.trans (Nat.le_of_lt_succ hcount)
  · contradiction

variable [MotorBackend β]

theorem enqueue_of_unaimed (h : planner.aimed? target feedrate = none) :
    planner.enqueue target feedrate = .done planner := by
  unfold aimed? at h
  unfold enqueue
  by_cases husable : isFinite feedrate && 0.0 < feedrate
  · rw [if_pos husable] at h
    simp only [husable, h, Bool.not_true, Bool.false_eq_true, ↓reduceIte]
  · simp only [husable, Bool.not_false, ↓reduceIte]

theorem enqueue_of_short {steps : Steps} (haimed : planner.aimed? target feedrate = some steps)
    (h : planner.requested? target feedrate = none) :
    planner.enqueue target feedrate = .done { planner with position := target } := by
  rw [requested?_eq, haimed, Option.bind_some] at h
  unfold aimed? at haimed
  unfold enqueue
  split at haimed
  · next husable => simp only [husable, haimed, h, Bool.not_true, Bool.false_eq_true, ↓reduceIte]
  · contradiction

end Requests

/-- Where a planner leads, and what it measures requests by. -/
structure Heading where
  config : MachineConfig
  wiring : Wiring
  position : Register Float
  stepPosition : Steps

def heading (planner : Planner β) : Heading :=
  ⟨planner.config, planner.wiring, planner.position, planner.stepPosition⟩

theorem heading_push (planner : Planner β) (move : Move) :
    (planner.push move).heading = planner.heading := by
  unfold push
  split <;> rfl

theorem heading_settle (planner : Planner β) : planner.settle.heading = planner.heading := by
  unfold settle
  split <;> rfl

section Calls

variable [MotorBackend β] {planner : Planner β}

theorem heading_emitFront (count : Nat) (planner : Planner β) :
    (emitFront count planner).state.heading = planner.heading := by
  rw [emitFront_frame]
  rfl

theorem heading_enqueue_of_requested {target : Register Float} {feedrate : Float} {move : Move}
    (h : planner.requested? target feedrate = some move) :
    (planner.enqueue target feedrate).state.heading =
      ⟨planner.config, planner.wiring, target, planner.stepPosition.add move.steps⟩ := by
  let pushed := (planner.aim target (planner.stepPosition.add move.steps)).push move
  have hsettled : pushed.emitSettled.state.heading = pushed.heading := by
    rw [emitSettled_frame]
    rfl
  have hpushed : pushed.heading =
      ⟨planner.config, planner.wiring, target, planner.stepPosition.add move.steps⟩ :=
    heading_push _ move
  rw [enqueue_of_requested h, ← hpushed, ← hsettled]
  exact Attempt.state_andThen
    (P := fun left : Planner β => left.heading = pushed.emitSettled.state.heading)
    rfl fun _ => heading_settle _

theorem heading_halt (planner : Planner β) : planner.halt.state.heading = planner.heading := by
  by_cases hempty : planner.window = []
  · rw [halt_of_idle hempty]
    exact heading_settle planner
  · have hdrained : planner.drained.state.heading = planner.heading :=
      heading_emitFront planner.draining.window.length planner.draining
    by_cases hsent : planner.drained.Succeeds
    · rw [halt_of_accepted hempty hsent]
      exact hdrained
    · rw [halt_of_refused hempty hsent]
      exact hdrained

/-- A call leaves the heading, or it takes a target that the moves then lead to, or it takes one
that they are at most a step away from. -/
theorem heading_perform (planner : Planner β) (call : Call) :
    (planner.perform call).state.heading = planner.heading ∨
    ∃ target aimed, stepsOf? planner.config planner.wiring target = some aimed ∧
      ((planner.perform call).state.heading = ⟨planner.config, planner.wiring, target, aimed⟩ ∨
        (∀ axis, (aimed axis - planner.stepPosition axis).natAbs ≤ 1) ∧
          (planner.perform call).state.heading =
            ⟨planner.config, planner.wiring, target, planner.stepPosition⟩) := by
  cases call with
  | enqueue target feedrate =>
    simp only [perform, Attempt.within, id]
    cases haimed : planner.aimed? target feedrate with
    | none =>
      rw [enqueue_of_unaimed haimed]
      exact .inl rfl
    | some aimed =>
      refine .inr ⟨target, aimed, aimed?_eq_some haimed, ?_⟩
      cases hrequest : planner.requested? target feedrate with
      | none =>
        rw [enqueue_of_short haimed hrequest]
        exact .inr ⟨natAbs_le_one_of_ignored haimed hrequest, rfl⟩
      | some move =>
        rw [heading_enqueue_of_requested hrequest]
        rw [aimed?_of_requested hrequest] at haimed
        rw [Option.some.inj haimed]
        exact .inl rfl
  | halt => exact .inl (heading_halt planner)
  | setPosition position =>
    simp only [perform]
    cases hsteps : stepsOf? planner.config planner.wiring position with
    | none =>
      rw [setPosition_of_out_of_range hsteps]
      exact .inl rfl
    | some steps =>
      have hhalt := heading_halt planner
      by_cases hdone : planner.halt.Succeeds
      · rw [setPosition_of_halted hsteps hdone]
        refine .inr ⟨position, steps, hsteps, .inl ?_⟩
        have hconfig := congrArg Heading.config hhalt
        have hwiring := congrArg Heading.wiring hhalt
        exact congrArg₂ (fun config wiring => (⟨config, wiring, position, steps⟩ : Heading))
          hconfig hwiring
      · rw [setPosition_of_refused hsteps hdone]
        exact .inl hhalt

theorem config_perform (planner : Planner β) (call : Call) :
    (planner.perform call).state.config = planner.config ∧
      (planner.perform call).state.wiring = planner.wiring := by
  have hsame : ∀ heading : Heading, (planner.perform call).state.heading = heading →
      heading.config = planner.config → heading.wiring = planner.wiring →
        (planner.perform call).state.config = planner.config ∧
          (planner.perform call).state.wiring = planner.wiring := by
    rintro heading rfl hconfig hwiring
    exact ⟨hconfig, hwiring⟩
  obtain hkept | ⟨target, aimed, -, hturned | ⟨-, hshort⟩⟩ := planner.heading_perform call
  · exact hsame _ hkept rfl rfl
  · exact hsame _ hturned rfl rfl
  · exact hsame _ hshort rfl rfl

end Calls

end Planner
end StepMotion
