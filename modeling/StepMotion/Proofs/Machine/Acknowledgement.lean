import StepMotion.Proofs.Machine.Power
import StepMotion.Proofs.Machine.Standing
import StepMotion.Proofs.Planner.Tally

/-! Acknowledgements. Every move that succeeds is answered, once and at its very end, and nothing
else is. Where moves are waited for, all that was requested up to one has been handed over and run
by the time of its answer, whatever failed before. -/
namespace StepMotion

/-- The sink after a number of acknowledgements, each of them a line of its own. -/
def Sink.acknowledged (sink : Sink) (count : Nat) : Sink :=
  { sink with text := sink.text ++ String.join (List.replicate count "ok\n") }

@[simp] theorem Sink.acknowledged_zero (sink : Sink) : sink.acknowledged 0 = sink := by
  simp [acknowledged]

theorem Sink.acknowledged_add (sink : Sink) (first second : Nat) :
    (sink.acknowledged first).acknowledged second = sink.acknowledged (first + second) := by
  simp only [acknowledged, List.replicate_add, String.join_append, String.append_assoc]

namespace Machine

open MotorBackend
open Planner (Tally BlockOf)

variable {β γ : Type}

section Sink

/-- A machine that is to acknowledge moves, with a sink that never fails. -/
structure Answers (sink : Sink) (machine : Machine β) : Prop where
  acknowledgeLines : machine.config.acknowledgeLines = true
  written : machine.sink = some sink
  room : sink.room = none
  flushes : sink.flushes = true

namespace Answers

variable {sink : Sink} {machine later : Machine β} (h : Answers sink machine)

include h

theorem of_standing (hstanding : later.standing = machine.standing) : Answers sink later where
  acknowledgeLines :=
    (congrArg (·.config.acknowledgeLines) hstanding).trans h.acknowledgeLines
  written := (congrArg Standing.sink hstanding).trans h.written
  room := h.room
  flushes := h.flushes

theorem acknowledge :
    machine.acknowledge = .done { machine with sink := some (sink.acknowledged 1) } := by
  obtain ⟨text, room, flushes⟩ := sink
  obtain rfl : room = none := h.room
  obtain rfl : flushes = true := h.flushes
  unfold Machine.acknowledge
  rw [h.written]
  dsimp only
  rw [if_pos h.acknowledgeLines]
  have hone : (⟨text, none, true⟩ : Sink).acknowledged 1 =
      ⟨text ++ acknowledgement, none, true⟩ := by
    simp [Sink.acknowledged, acknowledgement]
  rw [hone]
  rfl

theorem acknowledged (count : Nat) :
    Answers (sink.acknowledged count)
      { machine with sink := some (sink.acknowledged count) } where
  acknowledgeLines := h.acknowledgeLines
  written := rfl
  room := h.room
  flushes := h.flushes

end Answers

variable [MotorBackend β]

def Moves (machine : Machine β) (operation : Operation) : Prop :=
  operation.isMove = true ∧ (machine.operate operation).Succeeds

instance (machine : Machine β) (operation : Operation) :
    Decidable (machine.Moves operation) :=
  inferInstanceAs (Decidable (_ ∧ _))

/-- The number of moves in a run that succeed. -/
def movesMade (machine : Machine β) : List Operation → Nat
  | [] => 0
  | operation :: rest =>
    (if machine.Moves operation then 1 else 0) +
      movesMade (machine.operate operation).state rest

variable {sink : Sink} {machine : Machine β}

theorem Answers.operate (h : Answers sink machine) (operation : Operation) :
    Answers (sink.acknowledged (if machine.Moves operation then 1 else 0))
      (machine.operate operation).state := by
  by_cases hmove : operation.isMove = true
  · have htold := (machine.standing_told operation).1
    obtain ⟨-, error, hrefused⟩ | ⟨feedrate, target, -, hallowed⟩ := machine.move_cases hmove
    · have hsilent : ¬ machine.Moves operation := fun hmoves => by
        have hfailed := hmoves.2
        rw [hrefused] at hfailed
        exact Attempt.not_succeeds_failed _ _ hfailed
      rw [if_neg hsilent, Sink.acknowledged_zero, hrefused]
      exact h.of_standing htold
    · have hcarried := h.of_standing
        (((machine.told operation).standing_carryOut feedrate target).trans htold)
      by_cases hdone : ((machine.told operation).carryOut feedrate target).Succeeds
      · rw [Attempt.andThen_of_succeeds hdone, hcarried.acknowledge] at hallowed
        have hmoves : machine.Moves operation := ⟨hmove, by
          rw [hallowed]
          exact Attempt.succeeds_done _⟩
        rw [if_pos hmoves, hallowed]
        exact hcarried.acknowledged 1
      · rw [Attempt.andThen_of_not_succeeds hdone] at hallowed
        have hsilent : ¬ machine.Moves operation := fun hmoves => by
          have hfailed := hmoves.2
          rw [hallowed] at hfailed
          exact hdone hfailed
        rw [if_neg hsilent, Sink.acknowledged_zero, hallowed]
        exact hcarried
  · rw [if_neg fun hmoves => hmove hmoves.1, Sink.acknowledged_zero]
    refine ⟨?_, ?_, h.room, h.flushes⟩
    · rw [config_operate]
      exact h.acknowledgeLines
    · rw [machine.sink_of_rest (Bool.not_eq_true _ ▸ hmove)]
      exact h.written

theorem Answers.run (h : Answers sink machine) (operations : List Operation) :
    Answers (sink.acknowledged (machine.movesMade operations)) (machine.run operations) := by
  induction operations generalizing sink machine with
  | nil =>
    rw [movesMade, Sink.acknowledged_zero]
    exact h
  | cons operation rest ih =>
    rw [movesMade, ← Sink.acknowledged_add]
    exact ih (h.operate operation)

end Sink

section Queued

variable [MotorBackend β]

def queued (machine : Machine β) : List Operation → List Move
  | [] => []
  | operation :: rest => machine.added operation ++ queued (machine.operate operation).state rest

theorem queued_append (machine : Machine β) (first second : List Operation) :
    machine.queued (first ++ second) =
      machine.queued first ++ (machine.run first).queued second := by
  induction first generalizing machine with
  | nil => rfl
  | cons operation rest ih =>
    rw [List.cons_append, queued, queued, ih, List.append_assoc]
    rfl

theorem queued_map [MotorBackend γ] {f : β → γ} (hf : MotorBackend.Morphism f)
    (machine : Machine β) (operations : List Operation) :
    (machine.map f).queued operations = machine.queued operations := by
  induction operations generalizing machine with
  | nil => rfl
  | cons operation rest ih =>
    have hadded : (machine.map f).added operation = machine.added operation := by
      cases operation <;> rfl
    rw [queued, queued, hadded, operate_map hf]
    exact congrArg _ (ih (machine.operate operation).state)

theorem queued_traced (machine : Machine β) (operations : List Operation) :
    machine.traced.queued operations = machine.queued operations :=
  (queued_map Traced.inner_morphism machine.traced operations).symm

end Queued

section Tally

variable [MotorBackend β] {machine : Machine (Traced β)} {moves : List Move}

omit [MotorBackend β] in
theorem tally_andThen {attempt : Attempt MachineError (Machine (Traced β))}
    {next : Machine (Traced β) → Attempt MachineError (Machine (Traced β))}
    (h : Tally moves attempt.state.planner)
    (hnext : Tally moves (next attempt.state).state.planner) :
    Tally moves (attempt.andThen next).state.planner :=
  Attempt.state_andThen (P := fun later : Machine (Traced β) => Tally moves later.planner) h
    fun _ => hnext

theorem tally_finish (h : Tally moves machine.planner) :
    Tally moves machine.finish.state.planner := by
  have hhalted : Tally moves (machine.planner.perform .halt).state := h.perform_of_none rfl
  exact tally_andThen hhalted (hhalted.lend (Traced.accepted_waitEmpty _))

theorem tally_setPosition (h : Tally moves machine.planner) (position : Register Float) :
    Tally moves (machine.setPosition position).state.planner := by
  have hset : Tally moves (machine.planner.perform (.setPosition position)).state :=
    h.perform_of_none rfl
  exact hset

theorem tally_carryOut (h : Tally moves machine.planner) (feedrate : Float)
    (target : Register Float) :
    Tally (moves ++ (machine.planner.requested? target feedrate).toList)
      (machine.carryOut feedrate target).state.planner := by
  unfold carryOut
  dsimp only
  generalize hpowered : (if machine.motorsOn then machine else machine.setMotors true) = powered
  have hlent : Tally moves powered.planner := by
    rw [← hpowered]
    split
    · exact h
    · exact h.lend (Traced.accepted_enable true _)
  have hrequest : powered.planner.requested? target feedrate =
      machine.planner.requested? target feedrate := by
    rw [← hpowered]
    split <;> rfl
  have hmoved := hlent.perform (.enqueue target feedrate)
  rw [Planner.added?, hrequest] at hmoved
  apply tally_andThen hmoved
  split
  · exact tally_finish hmoved
  · exact hmoved

omit [MotorBackend β] in
theorem planner_acknowledge (machine : Machine β) :
    machine.acknowledge.state.planner = machine.planner := by
  rw [state_acknowledge]

theorem tally_operate (h : Tally moves machine.planner) (operation : Operation) :
    Tally (moves ++ machine.added operation) (machine.operate operation).state.planner := by
  cases hmove : operation.isMove with
  | true =>
    have htold := (machine.standing_told operation).2
    obtain ⟨hnone, error, hrefused⟩ | ⟨feedrate, target, hadded, hallowed⟩ :=
      machine.move_cases hmove
    · rw [hnone, List.append_nil, hrefused]
      exact htold ▸ h
    · rw [← htold] at h hadded
      have hcarried := tally_carryOut h feedrate target
      rw [hadded, hallowed]
      apply tally_andThen hcarried
      rw [planner_acknowledge]
      exact hcarried
  | false =>
    rw [machine.added_of_not_move hmove, List.append_nil]
    have hfinished := tally_finish h
    cases operation with
    | coordinatedMove feedrate target => contradiction
    | rapidMove target => contradiction
    | markHomed =>
      have hset := tally_setPosition hfinished machine.finish.state.homePosition
      exact tally_andThen hfinished (tally_andThen hset hset)
    | setPosition position => exact tally_setPosition h position
    | enableMotors on =>
      cases on with
      | true => exact h.lend (Traced.accepted_enable true _)
      | false => exact tally_andThen hfinished (hfinished.lend (Traced.accepted_enable false _))
    | finish => exact hfinished

theorem tally_run (h : Tally moves machine.planner) (operations : List Operation) :
    Tally (moves ++ machine.queued operations) (machine.run operations).planner := by
  induction operations generalizing machine moves with
  | nil =>
    rw [queued, List.append_nil]
    exact h
  | cons operation rest ih =>
    rw [queued, ← List.append_assoc]
    exact ih (tally_operate h operation)

end Tally

section Waiting

variable [MotorBackend β]

/-- All steps of the moves were handed over, and waited for with the last call of the backend. -/
structure Waited (moves : List Move) (machine : Machine (Traced β)) : Prop where
  state : machine.planner.state = .idle
  window : machine.planner.window = []
  calls : ∃ earlier, machine.calls = earlier ++ [.waitEmpty true] ∧
    ∃ blocks, List.Forall₂ BlockOf blocks moves ∧
      blocks.flatten.Sublist (earlier.filterMap MotorCall.accepted?)

variable {machine : Machine (Traced β)} {moves : List Move}

theorem waited_of_finish (hdone : machine.finish.Succeeds)
    (h : Tally moves machine.finish.state.planner) : Waited moves machine.finish.state := by
  obtain ⟨earlier, hcalls⟩ := List.getLast?_eq_some_iff.mp (getLast_calls_finish hdone)
  obtain ⟨blocks, hblocks, hsent⟩ := h.handedOver (window_finish hdone)
  have haccepted : machine.finish.state.planner.backend.accepted =
      earlier.filterMap MotorCall.accepted? := by
    change machine.finish.state.calls.filterMap MotorCall.accepted? = _
    rw [hcalls, List.filterMap_append]
    exact List.append_nil _
  rw [haccepted] at hsent
  refine ⟨?_, window_finish hdone, earlier, hcalls, blocks, hblocks, hsent⟩
  obtain ⟨hhalt, hfinish⟩ := finish_of_succeeds hdone
  rw [hfinish]
  exact Planner.state_halt hhalt

theorem carryOut_synchronous {machine : Machine β} {feedrate : Float} {target : Register Float}
    (hsynchronous : machine.config.synchronous = true)
    (h : (machine.carryOut feedrate target).Succeeds) :
    ∃ moved : Machine β, (machine.carryOut feedrate target).state = moved.finish.state ∧
      moved.finish.Succeeds := by
  unfold carryOut at h ⊢
  dsimp only at h ⊢
  generalize hpowered : (if machine.motorsOn then machine else machine.setMotors true) = powered
    at h ⊢
  obtain ⟨htaken, hfinished⟩ := Attempt.succeeds_andThen.mp h
  have hconfig : (powered.onPlanner
      (powered.planner.perform (.enqueue target feedrate))).state.config.synchronous = true := by
    have hstanding := powered.standing_perform (.enqueue target feedrate)
    refine (congrArg (·.config.synchronous) hstanding).trans ?_
    rw [← hpowered]
    split <;> exact hsynchronous
  rw [Attempt.andThen_of_succeeds htaken]
  rw [if_pos hconfig] at hfinished ⊢
  exact ⟨_, rfl, hfinished⟩

/-- At the end of a synchronous move that succeeds, everything was waited for. -/
theorem waited_of_moves (h : Tally moves machine.planner)
    (hsynchronous : machine.config.synchronous = true) {operation : Operation}
    (hmoves : machine.Moves operation) :
    ∃ ready : Machine (Traced β), machine.operate operation = ready.acknowledge ∧
      ready.sink = machine.sink ∧ Waited (moves ++ machine.added operation) ready := by
  obtain ⟨hmove, hdone⟩ := hmoves
  obtain ⟨hstanding, hplanner⟩ := machine.standing_told operation
  obtain ⟨-, error, hrefused⟩ | ⟨feedrate, target, hadded, hallowed⟩ := machine.move_cases hmove
  · rw [hrefused] at hdone
    exact absurd hdone (Attempt.not_succeeds_failed _ _)
  · rw [hallowed] at hdone
    have hcarried := (Attempt.succeeds_andThen.mp hdone).1
    have hsame : (machine.told operation).config.synchronous = true :=
      (congrArg (·.config.synchronous) hstanding).trans hsynchronous
    obtain ⟨moved, hmoved, hfinished⟩ := carryOut_synchronous hsame hcarried
    rw [← hplanner] at h hadded
    have htally := tally_carryOut h feedrate target
    have hstays := ((machine.told operation).standing_carryOut feedrate target).trans hstanding
    rw [hallowed, Attempt.andThen_of_succeeds hcarried, hadded]
    refine ⟨_, rfl, congrArg Standing.sink hstays, ?_⟩
    rw [hmoved] at htally ⊢
    exact waited_of_finish hfinished htally

/-- A sink that never fails gets one line for each move that succeeds, and nothing else. On a
synchronous machine the line is written after all steps of the moves so far were waited for. -/
theorem moves_acknowledged {config : MachineConfig} {wiring : Wiring} {backend : β} {sink : Sink}
    {machine : Machine β} (hmake : make config wiring backend (some sink) = .ok machine)
    (hlines : config.acknowledgeLines = true) (hroom : sink.room = none)
    (hflushes : sink.flushes = true) (operations : List Operation) :
    (machine.run operations).sink = some (sink.acknowledged (machine.movesMade operations)) ∧
    (∀ operation, ((machine.run operations).operate operation).state.sink =
      (machine.run operations).sink.map fun written =>
        written.acknowledged (if (machine.run operations).Moves operation then 1 else 0)) ∧
    (config.synchronous = true → ∀ operation, (machine.run operations).Moves operation →
      ∃ ready : Machine (Traced β),
        (machine.traced.run operations).operate operation = ready.acknowledge ∧
        ready.sink = (machine.run operations).sink ∧
        Waited (machine.queued (operations ++ [operation])) ready) := by
  have hplanner : machine.planner.Planned ∧ machine.planner.window = [] ∧
      0 < machine.planner.lookahead ∧ machine.config = config ∧ machine.sink = some sink := by
    obtain ⟨planner, hplanner, rfl⟩ := make_eq_ok hmake
    obtain ⟨hlookahead, rfl⟩ := Planner.make_eq_ok hplanner
    exact ⟨(Planner.Reachable.make hplanner).planned, rfl, hlookahead, rfl, rfl⟩
  obtain ⟨hplanned, hempty, hlookahead, hconfig, hsink⟩ := hplanner
  have hanswers : Answers sink machine := ⟨hconfig ▸ hlines, hsink, hroom, hflushes⟩
  have hafter := hanswers.run operations
  refine ⟨hafter.written, fun operation => ?_, fun hsynchronous operation hmoves => ?_⟩
  · rw [hafter.written, (hafter.operate operation).written]
    rfl
  · have htally : Tally [] machine.traced.planner :=
      .start hlookahead (hplanned.frame rfl rfl) hempty
    have hsame := machine.run_traced operations
    have hstays : (machine.traced.run operations).config.synchronous = true := by
      rw [config_run]
      exact hconfig ▸ hsynchronous
    have hmovesTraced : (machine.traced.run operations).Moves operation := by
      refine ⟨hmoves.1, ?_⟩
      have hdone := hmoves.2
      rwa [← hsame, operate_map Traced.inner_morphism] at hdone
    obtain ⟨ready, hready, hsilent, hwaited⟩ :=
      waited_of_moves (tally_run htally operations) hstays hmovesTraced
    refine ⟨ready, hready, hsilent.trans (congrArg Machine.sink hsame), ?_⟩
    have hqueued : machine.queued (operations ++ [operation]) =
        [] ++ machine.traced.queued operations ++
          (machine.traced.run operations).added operation := by
      rw [← queued_traced, queued_append, queued, queued, List.append_nil]
      rfl
    rw [hqueued]
    exact hwaited

def answeringSample : Machine Recorder where
  planner :=
    { config := { Planner.sample.config with synchronous := true }
      wiring := Planner.sample.wiring
      lookahead := Planner.defaultLookahead
      backend := {} }
  sink := some {}

theorem make_answeringSample :
    make answeringSample.config answeringSample.wiring answeringSample.planner.backend (some {}) =
      .ok answeringSample :=
  make_of_valid (by decide +kernel) _ _ _

def answeringOperations : List Operation :=
  [.coordinatedMove none (.fill 5.0), .coordinatedMove (some 50.0) (.fill 10.0), .markHomed]

theorem moves_acknowledged_sample :
    (answeringSample.run answeringOperations).sink = some { text := "ok\n" } ∧
    ((answeringSample.run answeringOperations).operate (.rapidMove (.fill 2.0))).state.sink =
      some { text := "ok\nok\n" } ∧
    (answeringSample.queued (answeringOperations ++ [.rapidMove (.fill 2.0)])).length = 2 ∧
    ∃ ready : Machine (Traced Recorder),
      (answeringSample.traced.run answeringOperations).operate (.rapidMove (.fill 2.0)) =
        ready.acknowledge ∧
      Waited (answeringSample.queued (answeringOperations ++ [.rapidMove (.fill 2.0)])) ready := by
  obtain ⟨hsink, hstep, hwaits⟩ :=
    moves_acknowledged make_answeringSample rfl rfl rfl answeringOperations
  have hmade : answeringSample.movesMade answeringOperations = 1 := by decide +kernel
  have hmoves : (answeringSample.run answeringOperations).Moves (.rapidMove (.fill 2.0)) := by
    decide +kernel
  rw [hmade] at hsink
  obtain ⟨ready, hready, -, hwaited⟩ := hwaits rfl _ hmoves
  have hone : Sink.acknowledged {} 1 = { text := "ok\n" } := rfl
  have htwo : Sink.acknowledged {} 2 = { text := "ok\nok\n" } := rfl
  rw [hone] at hsink
  refine ⟨hsink, ?_, by decide +kernel, ready, hready, hwaited⟩
  rw [hstep, hsink, ← hone, if_pos hmoves, Option.map_some, Sink.acknowledged_add, htwo]

end Waiting

end Machine
end StepMotion
