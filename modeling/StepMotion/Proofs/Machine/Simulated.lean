import StepMotion.Proofs.Machine.Powered
import StepMotion.Proofs.Motor.Simulation

/-! A machine over a simulated backend never fails because of the motors: it hands segments over
only while they are on, and then the backend takes all of them. -/
namespace StepMotion.Machine

open MotorBackend

variable {β : Type}

def failure? : MachineError → Option MotorError
  | .motor cause => some cause
  | .planner (.motor cause) => some cause
  | _ => none

/-- If an attempt fails, then not because of the motors. -/
def Unfailing (attempt : Attempt MachineError (Machine β)) : Prop :=
  ∀ error, attempt.outcome = .error error → failure? error = none

theorem unfailing_of_succeeds {attempt : Attempt MachineError (Machine β)}
    (h : attempt.Succeeds) : Unfailing attempt :=
  Attempt.errsWith_of_succeeds h

theorem Unfailing.andThen {attempt : Attempt MachineError (Machine β)}
    {next : Machine β → Attempt MachineError (Machine β)} (h : Unfailing attempt)
    (hnext : attempt.Succeeds → Unfailing (next attempt.state)) :
    Unfailing (attempt.andThen next) :=
  Attempt.ErrsWith.andThen h hnext

theorem unfailing_failed {error : MachineError} (h : failure? error = none) (machine : Machine β) :
    Unfailing (.failed error machine) :=
  Attempt.errsWith_failed (P := fun error => failure? error = none) h machine

theorem unfailing_acknowledge (machine : Machine β) : Unfailing machine.acknowledge :=
  errsWith_acknowledge (fun _ => rfl) machine

theorem failure_of_refusal {machine : Machine β} {target : Register Float} {error : MachineError}
    (h : machine.refusal? target = some error) : failure? error = none := by
  unfold refusal? rangeOffence? at h
  split at h
  · obtain rfl : .notHomed = error := Option.some.inj h
    rfl
  · split at h
    · obtain ⟨axis, -, rfl⟩ := Option.map_eq_some_iff.mp h
      rfl
    · contradiction

def Enabled (simulator : Simulator) : Prop := simulator.enabled = true

theorem lasts_enabled : Lasts Enabled where
  kept segment simulator h := by
    rw [Simulator.enqueue_of_enabled h]
    exact (simulator.enabled_executeOldest _).trans h
  enable _ _ := rfl
  wait simulator h := (simulator.enabled_executeOldest _).trans h

theorem enabled_enable (simulator : Simulator) : Enabled (enable true simulator) := rfl

variable {machine : Machine Simulator}

theorem Powered.finish (h : Powered Enabled machine) : machine.finish.Succeeds := by
  have hhalt : machine.planner.halt.Succeeds := Planner.halt_of_accepting
    fun hwindow => Simulator.accepting_of_enabled (h.on (h.moves hwindow))
  unfold Machine.finish
  rw [Attempt.andThen_of_succeeds (by simpa [onPlanner] using hhalt)]
  rfl

theorem Powered.unfailing_afterMove (h : Powered Enabled machine) : Unfailing machine.afterMove := by
  refine Unfailing.andThen (unfailing_of_succeeds ?_) fun _ => unfailing_acknowledge _
  split
  · exact h.finish
  · exact Attempt.succeeds_done _

theorem Powered.unfailing_moveAt (h : Powered Enabled machine) (feedrate : Float)
    (target : Register Float) : Unfailing (machine.moveAt feedrate target) := by
  unfold moveAt
  split
  · next refusal hrefusal => exact unfailing_failed (failure_of_refusal hrefusal) machine
  · next hallowed =>
    have hmoved : ∀ powered : Machine Simulator, Powered Enabled powered →
        powered.motorsOn = true → powered.refusal? target = none →
        Unfailing ((powered.onPlanner ((powered.planner.enqueue target feedrate).within
          .motor id)).andThen afterMove) := by
      intro powered hpowered hon hpassed
      have henqueue : (powered.planner.enqueue target feedrate).Succeeds :=
        Planner.enqueue_of_accepting (Simulator.accepting_of_enabled (hpowered.on hon)) target
          feedrate
      refine Unfailing.andThen (unfailing_of_succeeds (by simpa [onPlanner] using henqueue))
        fun _ => ?_
      exact (hpowered.deed lasts_enabled enabled_enable
        (.move feedrate hon hpassed)).unfailing_afterMove
    dsimp only
    split
    · next hon => exact hmoved machine h hon hallowed
    · exact hmoved (machine.setMotors true)
        (h.deed lasts_enabled enabled_enable (.switchOn machine)) rfl hallowed

theorem Powered.unfailing_setPosition (h : Powered Enabled machine) (position : Register Float) :
    Unfailing (machine.setPosition position) := by
  have hhalt : machine.planner.halt.Succeeds := Planner.halt_of_accepting
    fun hwindow => Simulator.accepting_of_enabled (h.on (h.moves hwindow))
  cases hsteps : stepsOf? machine.config machine.wiring position with
  | none =>
    rw [setPosition_of_out_of_range hsteps]
    exact unfailing_failed rfl machine
  | some steps =>
    rw [setPosition_of_halted hsteps hhalt]
    exact unfailing_of_succeeds rfl

theorem Powered.unfailing_operate (h : Powered Enabled machine) (operation : Operation) :
    Unfailing (machine.operate operation) := by
  cases operation with
  | coordinatedMove feedrate target =>
    have hremembered : Powered Enabled { machine with feedrate := feedrate <|> machine.feedrate } :=
      h.deed lasts_enabled enabled_enable (.note machine _ machine.sink machine.homed)
    change Unfailing (machine.coordinatedMove feedrate target)
    unfold coordinatedMove
    dsimp only
    split
    · exact hremembered.unfailing_moveAt _ target
    · exact unfailing_failed rfl _
  | rapidMove target =>
    change Unfailing (machine.rapidMove target)
    unfold rapidMove
    dsimp only
    split
    · exact unfailing_failed rfl machine
    · exact h.unfailing_moveAt _ target
  | markHomed =>
    refine Unfailing.andThen (unfailing_of_succeeds h.finish) fun _ => ?_
    have hfinished := h.deeds lasts_enabled enabled_enable machine.deeds_finish
    refine Unfailing.andThen (hfinished.unfailing_setPosition _) fun _ => ?_
    exact unfailing_of_succeeds (Attempt.succeeds_done _)
  | setPosition position => exact h.unfailing_setPosition position
  | enableMotors on =>
    refine Unfailing.andThen (unfailing_of_succeeds ?_) fun _ =>
      unfailing_of_succeeds (Attempt.succeeds_done _)
    split
    · exact Attempt.succeeds_done _
    · exact h.finish
  | finish => exact unfailing_of_succeeds h.finish

end StepMotion.Machine
