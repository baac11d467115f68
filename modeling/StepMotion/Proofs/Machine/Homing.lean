import StepMotion.Motor.Limited
import StepMotion.Proofs.Machine.Power
import StepMotion.Proofs.Machine.Standing

/-! Homing before the first move. A machine that has to be homed refuses every move until it was
marked homed, and until then hands nothing over, acknowledges nothing and has its motors on only if
they were switched on. Once homed it stays so. -/
namespace StepMotion.Machine

open MotorBackend

variable {β : Type} [MotorBackend β]

section Homed

variable {machine : Machine β}

theorem homed_operate (machine : Machine β) (operation : Operation) :
    (machine.operate operation).state.homed = true ↔
      machine.homed = true ∨ operation = .markHomed ∧ machine.markHomed.Succeeds := by
  by_cases hmark : operation = .markHomed
  · subst hmark
    by_cases hdone : machine.markHomed.Succeeds
    · have hhomed : machine.markHomed.state.homed = true :=
        congrArg Standing.homed (standing_markHomed hdone)
      simp [operate, hhomed, hdone]
    · have hhomed : machine.markHomed.state.homed = machine.homed :=
        congrArg Standing.homed (standing_markHomed_of_failed hdone)
      simp [operate, hhomed, hdone]
  · have hhomed : (machine.operate operation).state.homed = machine.homed := by
      cases hmove : operation.isMove with
      | true => exact congrArg Standing.homed (machine.standing_of_move hmove)
      | false => exact congrArg Standing.homed (machine.standing_of_rest hmove hmark)
    simp [hhomed, hmark]

/-- In the course of a run the machine was marked homed. -/
def Homes (machine : Machine β) (operations : List Operation) : Prop :=
  ∃ done rest, operations = done ++ .markHomed :: rest ∧ (machine.run done).markHomed.Succeeds

theorem homes_concat (machine : Machine β) (operations : List Operation) (operation : Operation) :
    machine.Homes (operations ++ [operation]) ↔ machine.Homes operations ∨
      operation = .markHomed ∧ (machine.run operations).markHomed.Succeeds := by
  constructor
  · rintro ⟨done, rest, heq, hdone⟩
    rcases List.eq_nil_or_concat rest with rfl | ⟨initial, last, rfl⟩
    · obtain ⟨rfl, hlast⟩ := List.append_inj' heq rfl
      exact .inr ⟨List.singleton_inj.mp hlast, hdone⟩
    · rw [List.concat_eq_append, ← List.cons_append, ← List.append_assoc] at heq
      exact .inl ⟨done, initial, (List.append_inj' heq rfl).1, hdone⟩
  · rintro (⟨done, rest, rfl, hdone⟩ | ⟨rfl, hdone⟩)
    · exact ⟨done, rest ++ [operation], by simp, hdone⟩
    · exact ⟨operations, [], rfl, hdone⟩

theorem run_concat (machine : Machine β) (operations : List Operation) (operation : Operation) :
    machine.run (operations ++ [operation]) = ((machine.run operations).operate operation).state :=
  machine.run_append operations [operation]

theorem homed_run (machine : Machine β) (operations : List Operation) :
    (machine.run operations).homed = true ↔ machine.homed = true ∨ machine.Homes operations := by
  induction operations using List.reverseRecOn with
  | nil => simp [run, Homes]
  | append_singleton operations operation ih =>
    rw [run_concat, homed_operate, ih, homes_concat, or_assoc]

end Homed

section Locked

/-- A machine that has to be homed before it moves, and holds no move. -/
structure Locked (machine : Machine β) : Prop where
  requireHoming : machine.config.requireHoming = true
  homed : machine.homed = false
  window : machine.planner.window = []

namespace Locked

section Refusals

variable {machine : Machine β} (h : machine.Locked)

include h

omit [MotorBackend β] in
theorem refusal (target : Register Float) : machine.refusal? target = some .notHomed := by
  unfold refusal?
  rw [h.requireHoming, h.homed]
  rfl

omit [MotorBackend β] in
theorem told (operation : Operation) : (machine.told operation).Locked := by
  cases operation <;> exact ⟨h.requireHoming, h.homed, h.window⟩

theorem operate_move {operation : Operation} (hmove : operation.isMove = true) :
    machine.operate operation = .failed .notHomed (machine.told operation) ∨
      machine.operate operation = .failed .noFeedrate (machine.told operation) := by
  cases hasked : machine.asked? operation with
  | none => exact .inr (operate_of_unasked hmove hasked)
  | some move =>
    rw [operate_of_asked hasked, moveAt_of_refused ((h.told operation).refusal move.2)]
    exact .inl rfl

theorem finish : machine.finish = waitEmpty { machine with planner := machine.planner.settle } := by
  unfold Machine.finish
  rw [Planner.halt_of_idle h.window]
  rfl

theorem setPosition (position : Register Float) :
    machine.setPosition position = .failed (.planner .positionOutOfRange) machine ∨
      ∃ steps, machine.setPosition position =
        .done { machine with planner := machine.planner.settle.aim position steps } := by
  have hhalt := Planner.halt_of_idle h.window
  cases hsteps : stepsOf? machine.config machine.wiring position with
  | none => exact .inl (setPosition_of_out_of_range hsteps)
  | some steps =>
    refine .inr ⟨steps, ?_⟩
    rw [setPosition_of_halted hsteps (by rw [hhalt]; exact Attempt.succeeds_done _), hhalt]
    rfl

theorem finished : machine.finish.state.Locked where
  requireHoming := (congrArg (·.config.requireHoming) machine.standing_finish).trans h.requireHoming
  homed := (congrArg Standing.homed machine.standing_finish).trans h.homed
  window := by
    rw [h.finish]
    exact machine.planner.settle_window.trans h.window

end Refusals

/-- Calls that hand nothing over, and that switch the motors on only if the operation is to. -/
def Harmless (operation : Operation) (new : List MotorCall) : Prop :=
  (∀ segment accepted, .enqueue segment accepted ∉ new) ∧
    (.enable true ∈ new → operation = .enableMotors true ∧ new = [.enable true])

theorem harmless_nil (operation : Operation) : Harmless operation [] :=
  ⟨fun _ _ => List.not_mem_nil, fun hon => absurd hon List.not_mem_nil⟩

def Unstirred (machine later : Machine (Traced β)) : Prop :=
  later.planner.window = [] ∧ later.calls = machine.calls

section Calls

variable {machine : Machine (Traced β)} (h : machine.Locked)

include h

theorem calls_finish : ∃ succeeded,
    machine.finish.state.calls = machine.calls ++ [.waitEmpty succeeded] := by
  rw [h.finish]
  change ∃ _, (MotorBackend.waitEmpty machine.planner.settle.backend).state.calls = _
  rw [machine.planner.settle_backend, calls_waitEmpty]
  exact ⟨_, rfl⟩

theorem of_setPosition (position : Register Float) :
    Unstirred machine (machine.setPosition position).state := by
  obtain hfailed | ⟨steps, hset⟩ := h.setPosition position
  · rw [hfailed]
    exact ⟨h.window, rfl⟩
  · rw [hset]
    exact ⟨machine.planner.settle_window.trans h.window,
      congrArg Traced.calls machine.planner.settle_backend⟩

theorem of_markHomed : Unstirred machine.finish.state machine.markHomed.state := by
  have hset := h.finished.of_setPosition machine.finish.state.homePosition
  apply Attempt.state_andThen
  · exact ⟨h.finished.window, rfl⟩
  · intro hfinished
    exact Attempt.state_andThen hset fun _ => hset

/-- Whatever is done to a locked machine, nothing enters the window and nothing is handed over. -/
theorem operate (operation : Operation) :
    (machine.operate operation).state.planner.window = [] ∧
      ∃ new, (machine.operate operation).state.calls = machine.calls ++ new ∧
        Harmless operation new := by
  have hmoves : operation.isMove = true → (machine.operate operation).state.planner.window = [] ∧
      ∃ new, (machine.operate operation).state.calls = machine.calls ++ new ∧
        Harmless operation new := by
    intro hmove
    have htold : (machine.told operation).calls = machine.calls :=
      congrArg (fun planner => planner.backend.calls) (machine.standing_told operation).2
    obtain hrefused | hrefused := h.operate_move hmove <;>
    · rw [hrefused]
      exact ⟨(h.told operation).window, [], htold.trans (List.append_nil _).symm,
        harmless_nil operation⟩
  obtain ⟨succeeded, hcalls⟩ := h.calls_finish
  cases operation with
  | coordinatedMove feedrate target => exact hmoves rfl
  | rapidMove target => exact hmoves rfl
  | markHomed =>
    obtain ⟨hwindow, hsame⟩ := h.of_markHomed
    exact ⟨hwindow, _, hsame.trans hcalls, by simp [Harmless]⟩
  | setPosition position =>
    obtain ⟨hwindow, hsame⟩ := h.of_setPosition position
    exact ⟨hwindow, [], hsame.trans (List.append_nil _).symm, harmless_nil _⟩
  | enableMotors on =>
    cases on with
    | true => exact ⟨h.window, [.enable true], rfl, by simp [Harmless]⟩
    | false =>
      simp only [Machine.operate, enableMotors, Bool.false_eq_true, ↓reduceIte]
      by_cases hfinish : machine.finish.Succeeds
      · rw [Attempt.andThen_of_succeeds hfinish]
        refine ⟨h.finished.window, [.waitEmpty succeeded, .enable false], ?_, by simp [Harmless]⟩
        change machine.finish.state.calls ++ [.enable false] = _
        rw [hcalls, List.append_assoc]
        rfl
      · rw [Attempt.andThen_of_not_succeeds hfinish]
        exact ⟨h.finished.window, _, hcalls, by simp [Harmless]⟩
  | finish => exact ⟨h.finished.window, _, hcalls, by simp [Harmless]⟩

theorem standing_operate_of_locked {operation : Operation}
    (hhomed : (machine.operate operation).state.homed = false) :
    (machine.operate operation).state.standing = machine.standing := by
  cases hmove : operation.isMove with
  | true =>
    obtain hrefused | hrefused := h.operate_move hmove <;>
    · rw [hrefused]
      exact (machine.standing_told operation).1
  | false =>
    by_cases hmark : operation = .markHomed
    · subst hmark
      apply standing_markHomed_of_failed
      intro hdone
      have hmarked := (homed_operate machine .markHomed).mpr (.inr ⟨rfl, hdone⟩)
      exact absurd (hhomed.symm.trans hmarked) Bool.false_ne_true
    · exact machine.standing_of_rest hmove hmark

end Calls

end Locked

/-- What the backend heard of a machine that was not homed in the course of a run. -/
structure Gated (machine : Machine (Traced β)) (operations : List Operation) : Prop where
  locked : (machine.run operations).Locked
  standing : (machine.run operations).standing = machine.standing
  enqueue : ∀ segment accepted, .enqueue segment accepted ∉ (machine.run operations).calls
  enable : ∀ before after, (machine.run operations).calls = before ++ .enable true :: after →
    ∃ done rest, operations = done ++ .enableMotors true :: rest ∧
      (machine.run done).calls = before

theorem gated_run {machine : Machine (Traced β)} (h : machine.Locked) (hcalls : machine.calls = [])
    {operations : List Operation} (hhomed : (machine.run operations).homed = false) :
    Gated machine operations := by
  induction operations using List.reverseRecOn with
  | nil => exact ⟨h, rfl, by simp [run, hcalls], by simp [run, hcalls]⟩
  | append_singleton operations operation ih =>
    have hstep := machine.run_concat operations operation
    rw [hstep] at hhomed
    have hbefore : (machine.run operations).homed = false := by
      by_contra hhome
      rw [Bool.not_eq_false] at hhome
      have hlater := (homed_operate _ operation).mpr (.inl hhome)
      exact absurd (hhomed.symm.trans hlater) Bool.false_ne_true
    have hgated := ih hbefore
    have hstanding := (hgated.locked.standing_operate_of_locked hhomed).trans hgated.standing
    obtain ⟨hwindow, new, hnew, hnothing, hon⟩ := hgated.locked.operate operation
    constructor
    · rw [hstep]
      refine ⟨?_, hhomed, hwindow⟩
      exact (congrArg (·.config.requireHoming) hstanding).trans h.requireHoming
    · rw [hstep]
      exact hstanding
    · intro segment accepted
      rw [hstep, hnew, List.mem_append, not_or]
      exact ⟨hgated.enqueue segment accepted, hnothing segment accepted⟩
    · intro before after hsplit
      rw [hstep, hnew] at hsplit
      by_cases hearlier : before.length < (machine.run operations).calls.length
      · obtain ⟨behind, hbehind⟩ := eq_append_of_append_eq hsplit hearlier
        obtain ⟨done, rest, rfl, hdone⟩ := hgated.enable before behind hbehind
        exact ⟨done, rest ++ [operation], by simp, hdone⟩
      · obtain ⟨rfl, rfl⟩ := hon (mem_of_append_eq hsplit (not_lt.mp hearlier))
        have hlength := congrArg List.length hsplit
        simp only [List.length_append, List.length_cons, List.length_nil] at hlength
        exact ⟨operations, [], rfl, (List.append_inj hsplit (by omega)).1⟩

omit [MotorBackend β] in
theorem homePosition_congr {machine other : Machine β} (hconfig : machine.config = other.config)
    (hwiring : machine.wiring = other.wiring) : machine.homePosition = other.homePosition := by
  unfold homePosition
  rw [hconfig, hwiring]

theorem markHomed_rests {machine : Machine β} (h : machine.markHomed.Succeeds) :
    machine.markHomed.state.planner.state = .idle ∧
    machine.markHomed.state.planner.window = [] ∧
    machine.markHomed.state.position = machine.markHomed.state.homePosition := by
  obtain ⟨hhalt, steps, hsteps, hplanner⟩ := markHomed_of_succeeds h
  obtain ⟨out, hchanges, hempty⟩ := machine.finish.state.planner.halt_changes
  have hmarked := standing_markHomed h
  have hfinished := machine.standing_finish
  have hhome : machine.finish.state.homePosition = machine.markHomed.state.homePosition :=
    homePosition_congr
      ((congrArg Standing.config hfinished).trans (congrArg Standing.config hmarked).symm)
      ((congrArg Standing.wiring hfinished).trans (congrArg Standing.wiring hmarked).symm)
  rw [← hhome, position, hplanner]
  exact ⟨Planner.state_halt hhalt, hempty hhalt, rfl⟩

omit [MotorBackend β] in
theorem locked_of_make {config : MachineConfig} {wiring : Wiring} {backend : β}
    {sink : Option Sink} {machine : Machine β}
    (hmake : make config wiring backend sink = .ok machine)
    (hrequire : config.requireHoming = true) : machine.traced.Locked := by
  obtain ⟨planner, hplanner, rfl⟩ := make_eq_ok hmake
  obtain ⟨-, rfl⟩ := Planner.make_eq_ok hplanner
  exact ⟨hrequire, rfl, rfl⟩

/-- Until it is marked homed, a machine that requires homing refuses every move, hands nothing over,
writes nothing and has its motors switched on only on request. Being marked homed takes it to rest
at the home position, and is never undone. -/
theorem homing_gate {config : MachineConfig} {wiring : Wiring} {backend : β} {sink : Option Sink}
    {machine : Machine β} (hmake : make config wiring backend sink = .ok machine)
    (hrequire : config.requireHoming = true) (operations : List Operation) :
    (¬ machine.Homes operations →
      (machine.run operations).homed = false ∧
      (machine.run operations).sink = sink ∧
      (machine.run operations).planner.window = [] ∧
      (∀ operation, operation.isMove = true →
        ((machine.run operations).operate operation).outcome = .error .notHomed ∨
          ((machine.run operations).operate operation).outcome = .error .noFeedrate) ∧
      (∀ segment accepted, .enqueue segment accepted ∉ (machine.traced.run operations).calls) ∧
      ∀ before after, (machine.traced.run operations).calls = before ++ .enable true :: after →
        ∃ done rest, operations = done ++ .enableMotors true :: rest ∧
          (machine.traced.run done).calls = before) ∧
    (¬ (machine.run operations).markHomed.Succeeds →
      (machine.run operations).markHomed.state.homed = (machine.run operations).homed) ∧
    ((machine.run operations).markHomed.Succeeds →
      (machine.run operations).markHomed.state.homed = true ∧
      (machine.run operations).markHomed.state.planner.state = .idle ∧
      (machine.run operations).markHomed.state.planner.window = [] ∧
      (machine.run operations).markHomed.state.position =
        (machine.run operations).markHomed.state.homePosition) ∧
    ((machine.run operations).homed = true →
      ∀ later, (machine.run (operations ++ later)).homed = true) := by
  refine ⟨fun hnever => ?_, fun hfailed => ?_, fun hdone => ?_, fun hhomed later => ?_⟩
  · have hlocked := locked_of_make hmake hrequire
    have hstart : machine.homed = false ∧ machine.sink = sink := by
      obtain ⟨planner, -, rfl⟩ := make_eq_ok hmake
      exact ⟨rfl, rfl⟩
    have hhomed : (machine.run operations).homed = false := by
      rw [← Bool.not_eq_true, homed_run, hstart.1]
      exact fun h => h.elim Bool.false_ne_true hnever
    have hsame := machine.run_traced operations
    have hgated := gated_run hlocked rfl ((congrArg homed hsame).trans hhomed)
    have hreached : (machine.run operations).Locked := by
      rw [← hsame]
      exact ⟨hgated.locked.requireHoming, hgated.locked.homed, hgated.locked.window⟩
    refine ⟨hhomed, ?_, hreached.window, fun operation hmove => ?_, hgated.enqueue, hgated.enable⟩
    · rw [← hstart.2, ← hsame]
      exact congrArg Standing.sink hgated.standing
    · obtain hrefused | hrefused := hreached.operate_move hmove
      · exact .inl (congrArg Attempt.outcome hrefused)
      · exact .inr (congrArg Attempt.outcome hrefused)
  · exact congrArg Standing.homed (standing_markHomed_of_failed hfailed)
  · exact ⟨congrArg Standing.homed (standing_markHomed hdone), markHomed_rests hdone⟩
  · rw [run_append, homed_run]
    exact .inl hhomed

def lockedSample {γ : Type} (backend : γ) : Machine γ where
  planner :=
    { config := { Planner.sample.config with requireHoming := true }
      wiring := Planner.sample.wiring
      lookahead := Planner.defaultLookahead
      backend := backend }
  sink := some {}

theorem make_lockedSample {γ : Type} (backend : γ) :
    make (lockedSample backend).config (lockedSample backend).wiring backend (some {}) =
      .ok (lockedSample backend) := by
  have hvalid : (lockedSample ()).config.firstOffence? = none := by decide +kernel
  exact make_of_valid hvalid _ _ _

def lockedOperations : List Operation :=
  [.rapidMove (.fill 10.0), .setPosition (.fill 3.0), .enableMotors true,
    .coordinatedMove (some 50.0) (.fill 10.0), .enableMotors false]

def brokenLink : Limited where
  remaining := 0
  failure := .queueClosed

theorem homing_gate_sample :
    ((lockedSample ({} : Recorder)).traced.run lockedOperations).calls.length = 3 ∧
    ((lockedSample ({} : Recorder)).run lockedOperations).sink = some {} ∧
    (∀ segment accepted, .enqueue segment accepted ∉
      ((lockedSample ({} : Recorder)).traced.run lockedOperations).calls) ∧
    ((lockedSample ({} : Recorder)).run lockedOperations).markHomed.state.homed = true ∧
    (∀ later, ((lockedSample ({} : Recorder)).run
      ((lockedOperations ++ [.markHomed]) ++ later)).homed = true) ∧
    (lockedSample brokenLink).markHomed.state.homed = false := by
  have hnever : ¬ (lockedSample ({} : Recorder)).Homes lockedOperations := by
    intro hhomes
    have hhomed := (homed_run _ lockedOperations).mpr (.inr hhomes)
    exact absurd hhomed (by decide +kernel)
  obtain ⟨hlocked, -, hmarked, -⟩ :=
    homing_gate (make_lockedSample ({} : Recorder)) rfl lockedOperations
  obtain ⟨-, -, -, hlasts⟩ :=
    homing_gate (make_lockedSample ({} : Recorder)) rfl (lockedOperations ++ [.markHomed])
  obtain ⟨-, hfailed, -⟩ := homing_gate (make_lockedSample brokenLink) rfl []
  obtain ⟨-, hsink, -, -, hnothing, -⟩ := hlocked hnever
  exact ⟨by decide +kernel, hsink, hnothing, (hmarked (by decide +kernel)).1,
    hlasts (by decide +kernel), hfailed (by decide +kernel)⟩

end Locked

end StepMotion.Machine
