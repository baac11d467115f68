import StepMotion.Machine
import StepMotion.Proofs.Planner.Changes

/-! Runs of a machine: sequences of operations, whatever their outcomes. Every operation is a
sequence of deeds, but for the two that set the position and the one that switches the motors off,
which have a machine at rest to begin with. -/
namespace StepMotion.Machine

open Planner

variable {β γ : Type}

theorem make_eq_ok {config : MachineConfig} {wiring : Wiring} {backend : β} {sink : Option Sink}
    {machine : Machine β} (h : make config wiring backend sink = .ok machine) :
    ∃ planner, Planner.make config wiring backend = .ok planner ∧ machine = { planner, sink } := by
  unfold make at h
  cases hplanner : Planner.make config wiring backend with
  | error error => simp [hplanner, Except.mapError, bind, Except.bind] at h
  | ok planner =>
    simp only [hplanner, Except.mapError, bind, Except.bind] at h
    exact ⟨planner, rfl, (Except.ok.inj h).symm⟩

theorem make_of_valid {config : MachineConfig} (hvalid : config.firstOffence? = none)
    (wiring : Wiring) (backend : β) (sink : Option Sink) : make config wiring backend sink =
      .ok { planner := { config, wiring, lookahead := defaultLookahead, backend }, sink } := by
  unfold make
  rw [Planner.make_of_valid hvalid (by decide)]
  rfl

theorem state_acknowledge (machine : Machine β) : machine.acknowledge.state =
    { machine with sink := machine.acknowledge.state.sink } := by
  unfold acknowledge
  split
  · split <;> rfl
  · rfl

theorem errsWith_acknowledge {P : MachineError → Prop} (h : ∀ reason, P (.io reason))
    (machine : Machine β) : machine.acknowledge.ErrsWith P := by
  unfold acknowledge
  split
  · split
    · exact Attempt.errsWith_within _ h _
    · exact Attempt.errsWith_of_succeeds (Attempt.succeeds_done _)
  · exact Attempt.errsWith_of_succeeds (Attempt.succeeds_done _)

inductive Operation where
  | coordinatedMove (feedrate : Option Float) (target : Register Float)
  | rapidMove (target : Register Float)
  | markHomed
  | setPosition (position : Register Float)
  | enableMotors (on : Bool)
  | finish

section Runs

variable [MotorBackend β]

def operate (machine : Machine β) : Operation → Attempt MachineError (Machine β)
  | .coordinatedMove feedrate target => machine.coordinatedMove feedrate target
  | .rapidMove target => machine.rapidMove target
  | .markHomed => machine.markHomed
  | .setPosition position => machine.setPosition position
  | .enableMotors on => machine.enableMotors on
  | .finish => machine.finish

def run (machine : Machine β) : List Operation → Machine β
  | [] => machine
  | operation :: rest => (machine.operate operation).state.run rest

theorem run_append (machine : Machine β) (first second : List Operation) :
    machine.run (first ++ second) = (machine.run first).run second := by
  induction first generalizing machine with
  | nil => rfl
  | cons operation rest ih => exact ih (machine.operate operation).state

end Runs

section Morphism

def map (f : β → γ) (machine : Machine β) : Machine γ :=
  { planner := machine.planner.map f
    sink := machine.sink
    feedrate := machine.feedrate
    homed := machine.homed
    motorsOn := machine.motorsOn }

theorem acknowledge_map (f : β → γ) (machine : Machine β) :
    (machine.map f).acknowledge = machine.acknowledge.map (map f) := by
  obtain ⟨planner, sink, feedrate, homed, motorsOn⟩ := machine
  cases sink with
  | none => rfl
  | some sink =>
    by_cases hlines : planner.config.acknowledgeLines <;>
      simp only [acknowledge, map, config, Planner.map, hlines, Bool.false_eq_true, ↓reduceIte] <;>
      rfl

variable [MotorBackend β] [MotorBackend γ] {f : β → γ} (hf : MotorBackend.Morphism f)

include hf

theorem setMotors_map (on : Bool) (machine : Machine β) :
    (machine.map f).setMotors on = (machine.setMotors on).map f := by
  simp only [setMotors, map, Planner.map, hf.enable]

theorem waitEmpty_map (machine : Machine β) :
    (machine.map f).waitEmpty = machine.waitEmpty.map (map f) := by
  have hwait := hf.waitEmpty machine.planner.backend
  unfold waitEmpty
  change (MotorBackend.waitEmpty (f machine.planner.backend)).within _ _ = _
  rw [hwait]
  rfl

theorem finish_map (machine : Machine β) :
    (machine.map f).finish = machine.finish.map (map f) := by
  have hhalt := halt_map hf machine.planner
  unfold finish
  change ((machine.map f).onPlanner (((machine.planner.map f).halt).within _ id)).andThen _ = _
  rw [hhalt]
  exact Attempt.map_andThen (map f) (machine.onPlanner (machine.planner.halt.within .motor id))
    fun state => waitEmpty_map hf state

theorem afterMove_map (machine : Machine β) :
    (machine.map f).afterMove = machine.afterMove.map (map f) := by
  have hconfig : (machine.map f).config = machine.config := rfl
  unfold afterMove
  rw [hconfig, finish_map hf]
  split
  · exact Attempt.map_andThen (map f) machine.finish fun state => acknowledge_map f state
  · exact acknowledge_map f machine

theorem moveAt_map (machine : Machine β) (feedrate : Float) (target : Register Float) :
    (machine.map f).moveAt feedrate target = (machine.moveAt feedrate target).map (map f) := by
  have hrefusal : (machine.map f).refusal? target = machine.refusal? target := rfl
  have hon : (machine.map f).motorsOn = machine.motorsOn := rfl
  unfold moveAt
  rw [hrefusal, hon]
  cases machine.refusal? target with
  | some refusal => rfl
  | none =>
    have hpowered : (if machine.motorsOn then machine.map f else (machine.map f).setMotors true) =
        (if machine.motorsOn then machine else machine.setMotors true).map f := by
      rw [setMotors_map hf]
      split <;> rfl
    dsimp only
    rw [hpowered]
    generalize (if machine.motorsOn then machine else machine.setMotors true) = powered
    change (Machine.onPlanner _ ((Planner.enqueue (powered.planner.map f) target feedrate).within
      _ id)).andThen _ = _
    rw [enqueue_map hf]
    exact Attempt.map_andThen (map f)
      (powered.onPlanner ((powered.planner.enqueue target feedrate).within .motor id))
      fun state => afterMove_map hf state

theorem setPosition_map (machine : Machine β) (position : Register Float) :
    (machine.map f).setPosition position = (machine.setPosition position).map (map f) := by
  unfold setPosition
  change (machine.map f).onPlanner ((machine.planner.map f).setPosition position) = _
  rw [Planner.setPosition_map hf]
  rfl

theorem coordinatedMove_map (machine : Machine β) (feedrate : Option Float)
    (target : Register Float) : (machine.map f).coordinatedMove feedrate target =
      (machine.coordinatedMove feedrate target).map (map f) := by
  have hremembered : (machine.map f).feedrate = machine.feedrate := rfl
  unfold coordinatedMove
  dsimp only
  rw [hremembered]
  cases feedrate <|> machine.feedrate with
  | none => rfl
  | some speed => exact moveAt_map hf { machine with feedrate := some speed } speed target

theorem rapidMove_map (machine : Machine β) (target : Register Float) :
    (machine.map f).rapidMove target = (machine.rapidMove target).map (map f) := by
  have hconfig : (machine.map f).config = machine.config := rfl
  unfold rapidMove
  dsimp only
  rw [hconfig, moveAt_map hf]
  split <;> rfl

theorem markHomed_map (machine : Machine β) :
    (machine.map f).markHomed = machine.markHomed.map (map f) := by
  unfold markHomed
  rw [finish_map hf]
  refine Attempt.map_andThen (map f) machine.finish fun state => ?_
  change ((state.map f).setPosition state.homePosition).andThen _ = _
  rw [setPosition_map hf]
  exact Attempt.map_andThen (map f) (state.setPosition state.homePosition) fun _ => rfl

theorem enableMotors_map (machine : Machine β) (on : Bool) :
    (machine.map f).enableMotors on = (machine.enableMotors on).map (map f) := by
  unfold enableMotors
  rw [finish_map hf]
  cases on with
  | true => exact congrArg Attempt.done (setMotors_map hf true machine)
  | false =>
    exact Attempt.map_andThen (map f) machine.finish
      fun state => congrArg Attempt.done (setMotors_map hf false state)

theorem operate_map (machine : Machine β) (operation : Operation) :
    (machine.map f).operate operation = (machine.operate operation).map (map f) := by
  cases operation with
  | coordinatedMove feedrate target => exact coordinatedMove_map hf machine feedrate target
  | rapidMove target => exact rapidMove_map hf machine target
  | markHomed => exact markHomed_map hf machine
  | setPosition position => exact setPosition_map hf machine position
  | enableMotors on => exact enableMotors_map hf machine on
  | finish => exact finish_map hf machine

theorem run_map (machine : Machine β) (operations : List Operation) :
    (machine.map f).run operations = (machine.run operations).map f := by
  induction operations generalizing machine with
  | nil => rfl
  | cons operation rest ih =>
    rw [run, operate_map hf]
    exact ih (machine.operate operation).state

end Morphism

def traced (machine : Machine β) : Machine (Traced β) := machine.map (⟨·, []⟩)

variable [MotorBackend β]

theorem run_traced (machine : Machine β) (operations : List Operation) :
    (machine.traced.run operations).map Traced.inner = machine.run operations := by
  rw [← run_map Traced.inner_morphism]
  rfl

/-- One deed of a machine, with the place that it jumps to. -/
inductive Deed : Machine β → List (Register Float) → Machine β → Prop where
  | note (machine : Machine β) (feedrate : Option Float) (sink : Option Sink) (homed : Bool) :
      Deed machine [] { machine with feedrate := feedrate, sink := sink, homed := homed }
  | switchOn (machine : Machine β) : Deed machine [] (machine.setMotors true)
  | move {machine : Machine β} {target : Register Float} (feedrate : Float)
      (hon : machine.motorsOn = true) (hallowed : machine.refusal? target = none) :
      Deed machine [] { machine with planner := (machine.planner.enqueue target feedrate).state }
  | halt (machine : Machine β) :
      Deed machine [] { machine with planner := machine.planner.halt.state }
  | wait (machine : Machine β) : Deed machine [] machine.waitEmpty.state
  | jump {machine : Machine β} {position : Register Float} {steps : Steps}
      (hempty : machine.planner.window = [])
      (hsteps : stepsOf? machine.config machine.wiring position = some steps) :
      Deed machine [position] { machine with planner := machine.planner.aim position steps }

inductive Deeds : Machine β → List (Register Float) → Machine β → Prop where
  | refl (machine : Machine β) : Deeds machine [] machine
  | step {first second third : Machine β} {jumps jumps' : List (Register Float)}
      (hdeed : Deed first jumps second) (hrest : Deeds second jumps' third) :
      Deeds first (jumps ++ jumps') third

namespace Deeds

theorem single {first second : Machine β} {jumps : List (Register Float)}
    (h : Deed first jumps second) : Deeds first jumps second := by
  have hstep := step h (refl second)
  rwa [List.append_nil] at hstep

theorem trans {first second third : Machine β} {jumps jumps' : List (Register Float)}
    (h : Deeds first jumps second) (h' : Deeds second jumps' third) :
    Deeds first (jumps ++ jumps') third := by
  induction h with
  | refl => exact h'
  | step hdeed hrest ih =>
    rw [List.append_assoc]
    exact step hdeed (ih h')

theorem preserves {P : Machine β → Prop}
    (hP : ∀ {first second : Machine β} {jumps : List (Register Float)},
      Deed first jumps second → P first → P second)
    {first second : Machine β} {jumps : List (Register Float)} (h : Deeds first jumps second)
    (hfirst : P first) : P second := by
  induction h with
  | refl => exact hfirst
  | step hdeed hrest ih => exact ih (hP hdeed hfirst)

theorem andThen {machine : Machine β} {attempt : Attempt MachineError (Machine β)}
    {next : Machine β → Attempt MachineError (Machine β)} (h : Deeds machine [] attempt.state)
    (hnext : attempt.Succeeds → Deeds attempt.state [] (next attempt.state).state) :
    Deeds machine [] (attempt.andThen next).state :=
  Attempt.state_andThen h fun hdone => h.trans (hnext hdone)

end Deeds

theorem deeds_finish (machine : Machine β) : Deeds machine [] machine.finish.state :=
  Deeds.andThen (.single (.halt machine)) fun _ => .single (.wait _)

theorem deeds_acknowledge (machine : Machine β) : Deeds machine [] machine.acknowledge.state := by
  rw [state_acknowledge]
  exact .single (.note machine machine.feedrate _ machine.homed)

theorem deeds_afterMove (machine : Machine β) : Deeds machine [] machine.afterMove.state := by
  refine Deeds.andThen ?_ fun _ => deeds_acknowledge _
  split
  · exact deeds_finish machine
  · exact .refl machine

theorem deeds_moveAt (machine : Machine β) (feedrate : Float) (target : Register Float) :
    Deeds machine [] (machine.moveAt feedrate target).state := by
  unfold moveAt
  split
  · exact .refl machine
  · next hallowed =>
    have hmoved : ∀ powered : Machine β, powered.motorsOn = true → powered.refusal? target = none →
        Deeds powered [] ((powered.onPlanner ((powered.planner.enqueue target feedrate).within
          .motor id)).andThen afterMove).state :=
      fun powered hon hpowered =>
        Deeds.andThen (.single (.move feedrate hon hpowered)) fun _ => deeds_afterMove _
    dsimp only
    split
    · next hon => exact hmoved machine hon hallowed
    · exact .step (.switchOn machine) (hmoved (machine.setMotors true) rfl hallowed)

theorem deeds_coordinatedMove (machine : Machine β) (feedrate : Option Float)
    (target : Register Float) :
    Deeds machine [] (machine.coordinatedMove feedrate target).state := by
  have hremembered := Deed.note machine (feedrate <|> machine.feedrate) machine.sink machine.homed
  unfold coordinatedMove
  dsimp only
  split
  · exact .step hremembered (deeds_moveAt _ _ target)
  · exact .single hremembered

theorem deeds_rapidMove (machine : Machine β) (target : Register Float) :
    Deeds machine [] (machine.rapidMove target).state := by
  unfold rapidMove
  dsimp only
  split
  · exact .refl machine
  · exact deeds_moveAt machine _ target

section Rest

variable {machine : Machine β}

theorem finish_of_succeeds (h : machine.finish.Succeeds) :
    machine.planner.halt.Succeeds ∧ machine.finish =
      waitEmpty { machine with planner := machine.planner.halt.state } := by
  have hhalt := (Attempt.succeeds_andThen.mp h).1
  refine ⟨by simpa [onPlanner] using hhalt, ?_⟩
  unfold finish
  rw [Attempt.andThen_of_succeeds hhalt]
  rfl

theorem window_finish (h : machine.finish.Succeeds) : machine.finish.state.planner.window = [] := by
  obtain ⟨hhalt, hfinish⟩ := finish_of_succeeds h
  obtain ⟨-, -, hwindow⟩ := machine.planner.halt_changes
  rw [hfinish]
  exact hwindow hhalt

end Rest

section SetPosition

variable {machine : Machine β} {position : Register Float}

theorem setPosition_of_out_of_range (h : stepsOf? machine.config machine.wiring position = none) :
    machine.setPosition position = .failed (.planner .positionOutOfRange) machine :=
  congrArg machine.onPlanner (Planner.setPosition_of_out_of_range h)

theorem setPosition_of_halted {steps : Steps}
    (hsteps : stepsOf? machine.config machine.wiring position = some steps)
    (h : machine.planner.halt.Succeeds) : machine.setPosition position =
      .done { machine with planner := machine.planner.halt.state.aim position steps } :=
  congrArg machine.onPlanner (Planner.setPosition_of_halted hsteps h)

theorem setPosition_of_refused {steps : Steps}
    (hsteps : stepsOf? machine.config machine.wiring position = some steps)
    (h : ¬ machine.planner.halt.Succeeds) :
    machine.setPosition position = machine.onPlanner (machine.planner.halt.within .motor id) :=
  congrArg machine.onPlanner (Planner.setPosition_of_refused hsteps h)

end SetPosition

theorem deeds_setPosition (machine : Machine β) (position : Register Float) :
    Deeds machine (if (machine.setPosition position).Succeeds then [position] else [])
      (machine.setPosition position).state := by
  have hhalted := Deeds.single (.halt machine)
  cases hsteps : stepsOf? machine.config machine.wiring position with
  | none =>
    rw [setPosition_of_out_of_range hsteps, if_neg (Attempt.not_succeeds_failed _ _)]
    exact .refl machine
  | some steps =>
    by_cases hdone : machine.planner.halt.Succeeds
    · obtain ⟨out, hchanges, hwindow⟩ := machine.planner.halt_changes
      rw [setPosition_of_halted hsteps hdone, if_pos (Attempt.succeeds_done _)]
      refine hhalted.trans (.single (.jump (hwindow hdone) ?_))
      have hconfig : machine.planner.halt.state.config = machine.planner.config :=
        hchanges.lookahead.1
      change stepsOf? machine.planner.halt.state.config machine.planner.halt.state.wiring _ = _
      rw [hconfig, hchanges.wiring]
      exact hsteps
    · rw [setPosition_of_refused hsteps hdone, if_neg (by simpa [onPlanner] using hdone)]
      exact hhalted

theorem markHomed_of_finished {machine : Machine β} (h : machine.finish.Succeeds) :
    machine.markHomed = (machine.finish.state.setPosition machine.finish.state.homePosition).andThen
      fun machine => .done { machine with homed := true } := by
  unfold markHomed
  rw [Attempt.andThen_of_succeeds h]

theorem markHomed_of_succeeds {machine : Machine β} (h : machine.markHomed.Succeeds) :
    machine.finish.state.planner.halt.Succeeds ∧ ∃ steps,
      stepsOf? machine.finish.state.config machine.finish.state.wiring
        machine.finish.state.homePosition = some steps ∧
      machine.markHomed.state.planner =
        machine.finish.state.planner.halt.state.aim machine.finish.state.homePosition steps := by
  have hfinish : machine.finish.Succeeds := (Attempt.succeeds_andThen.mp h).1
  have hhalt : machine.finish.state.planner.halt.Succeeds := by
    rw [halt_of_idle (window_finish hfinish)]
    exact Attempt.succeeds_done _
  refine ⟨hhalt, ?_⟩
  rw [markHomed_of_finished hfinish] at h ⊢
  generalize machine.finish.state = finished at h hhalt ⊢
  cases hsteps : stepsOf? finished.config finished.wiring finished.homePosition with
  | none =>
    rw [setPosition_of_out_of_range hsteps, Attempt.andThen_failed] at h
    exact absurd h (Attempt.not_succeeds_failed _ _)
  | some steps =>
    rw [setPosition_of_halted hsteps hhalt]
    exact ⟨steps, rfl, rfl⟩

theorem deeds_markHomed (machine : Machine β) :
    Deeds machine (if machine.markHomed.Succeeds then [machine.finish.state.homePosition] else [])
      machine.markHomed.state := by
  by_cases hfinish : machine.finish.Succeeds
  · have hset := deeds_setPosition machine.finish.state machine.finish.state.homePosition
    rw [markHomed_of_finished hfinish]
    by_cases hdone :
        (machine.finish.state.setPosition machine.finish.state.homePosition).Succeeds
    · rw [if_pos hdone] at hset
      rw [Attempt.andThen_of_succeeds hdone, if_pos (Attempt.succeeds_done _)]
      exact (deeds_finish machine).trans (hset.trans (.single (.note _ _ _ true)))
    · rw [if_neg hdone] at hset
      rw [Attempt.andThen_of_not_succeeds hdone, if_neg hdone]
      exact (deeds_finish machine).trans hset
  · unfold markHomed
    rw [Attempt.andThen_of_not_succeeds hfinish, if_neg hfinish]
    exact deeds_finish machine

def jumps (machine : Machine β) : Operation → List (Register Float)
  | .setPosition position => if (machine.setPosition position).Succeeds then [position] else []
  | .markHomed => if machine.markHomed.Succeeds then [machine.finish.state.homePosition] else []
  | _ => []

theorem jumps_map [MotorBackend γ] {f : β → γ} (hf : MotorBackend.Morphism f)
    (machine : Machine β) (operation : Operation) :
    (machine.map f).jumps operation = machine.jumps operation := by
  cases operation with
  | markHomed =>
    simp only [jumps, markHomed_map hf, finish_map hf, Attempt.map]
    rfl
  | setPosition position => simp only [jumps, setPosition_map hf, Attempt.succeeds_map]
  | _ => rfl

/-- Every operation is a sequence of deeds, unless it switches the motors off at its end. -/
theorem operate_deeds (machine : Machine β) (operation : Operation) :
    Deeds machine (machine.jumps operation) (machine.operate operation).state ∨
      (operation = .enableMotors false ∧ machine.finish.Succeeds ∧
        machine.operate operation = .done (machine.finish.state.setMotors false)) := by
  cases operation with
  | coordinatedMove feedrate target => exact .inl (deeds_coordinatedMove machine feedrate target)
  | rapidMove target => exact .inl (deeds_rapidMove machine target)
  | markHomed => exact .inl (deeds_markHomed machine)
  | setPosition position => exact .inl (deeds_setPosition machine position)
  | enableMotors on =>
    simp only [operate, enableMotors]
    cases on with
    | true => exact .inl (.single (.switchOn machine))
    | false =>
      by_cases hfinish : machine.finish.Succeeds
      · right
        refine ⟨rfl, hfinish, ?_⟩
        rw [if_neg Bool.false_ne_true, Attempt.andThen_of_succeeds hfinish]
      · left
        rw [if_neg Bool.false_ne_true, Attempt.andThen_of_not_succeeds hfinish]
        exact deeds_finish machine
  | finish => exact .inl (deeds_finish machine)

end StepMotion.Machine
