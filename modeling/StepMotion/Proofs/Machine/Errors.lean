import StepMotion.Proofs.Machine.Standing

/-! Why an operation fails. A move is refused before anything is done, for the want of a feedrate or
by a policy; every other error is passed on from the planner, the motors or the sink. -/
namespace StepMotion

namespace MachineError

def passedOn : MachineError → Bool
  | .planner _ => true
  | .motor _ => true
  | .io _ => true
  | _ => false

end MachineError

namespace Machine

variable {β σ ε : Type}

section Policies

variable {config : MachineConfig} {target : Register Float} {error : MachineError}

theorem rangeOffence?_eq_none :
    rangeOffence? config target = none ↔
      ∀ axis, inRange (config.axes axis) (target axis) = true := by
  simp [rangeOffence?, List.find?_eq_none]

theorem rangeOffence?_eq_some (h : rangeOffence? config target = some error) :
    ∃ axis, inRange (config.axes axis) (target axis) = false ∧
      error = .outOfRange axis (target axis) (config.axes axis).range := by
  obtain ⟨axis, hfind, rfl⟩ := Option.map_eq_some_iff.mp h
  exact ⟨axis, by simpa using List.find?_some hfind, rfl⟩

theorem refusal?_eq_some {machine : Machine β} (h : machine.refusal? target = some error) :
    error = .notHomed ∨
      machine.config.rangeCheck = true ∧ rangeOffence? machine.config target = some error := by
  unfold refusal? at h
  split at h
  · exact .inl (Option.some.inj h).symm
  · split at h
    · next hcheck => exact .inr ⟨hcheck, h⟩
    · contradiction

theorem rangeOffence?_of_allowed {machine : Machine β} (h : machine.refusal? target = none)
    (hcheck : machine.config.rangeCheck = true) : rangeOffence? machine.config target = none := by
  unfold refusal? at h
  rw [if_pos hcheck] at h
  split at h
  · contradiction
  · exact h

end Policies

section Errors

/-- An attempt that fails only with what the planner, the motors or the sink met. -/
def PassesOn (attempt : Attempt MachineError (Machine β)) : Prop :=
  attempt.ErrsWith fun error => error.passedOn = true

theorem passesOn_done (machine : Machine β) : PassesOn (.done machine) :=
  Attempt.errsWith_of_succeeds (Attempt.succeeds_done _)

theorem PassesOn.andThen {attempt : Attempt MachineError (Machine β)}
    {next : Machine β → Attempt MachineError (Machine β)} (h : PassesOn attempt)
    (hnext : ∀ machine, PassesOn (next machine)) : PassesOn (attempt.andThen next) :=
  Attempt.ErrsWith.andThen h fun _ => hnext attempt.state

theorem passesOn_within (attempt : Attempt ε σ) {cause : ε → MachineError}
    (h : ∀ error, (cause error).passedOn = true) (put : σ → Machine β) :
    PassesOn (attempt.within cause put) :=
  Attempt.errsWith_within (P := fun error => MachineError.passedOn error = true) attempt h put

theorem passesOn_onPlanner (machine : Machine β) (attempt : Attempt PlannerError (Planner β)) :
    PassesOn (machine.onPlanner attempt) :=
  passesOn_within attempt (fun _ => rfl) _

theorem passesOn_acknowledge (machine : Machine β) : PassesOn machine.acknowledge :=
  errsWith_acknowledge (fun _ => rfl) machine

variable [MotorBackend β]

theorem passesOn_finish (machine : Machine β) : PassesOn machine.finish :=
  (machine.passesOn_onPlanner _).andThen fun _ => passesOn_within _ (fun _ => rfl) _

theorem passesOn_carryOut (machine : Machine β) (feedrate : Float) (target : Register Float) :
    PassesOn (machine.carryOut feedrate target) := by
  refine (passesOn_onPlanner _ _).andThen fun moved => ?_
  split
  · exact moved.passesOn_finish
  · exact passesOn_done moved

theorem passesOn_markHomed (machine : Machine β) : PassesOn machine.markHomed :=
  machine.passesOn_finish.andThen fun finished =>
    (finished.passesOn_onPlanner _).andThen passesOn_done

theorem passesOn_enableMotors (machine : Machine β) (on : Bool) :
    PassesOn (machine.enableMotors on) := by
  refine PassesOn.andThen ?_ fun finished => passesOn_done _
  split
  · exact passesOn_done machine
  · exact machine.passesOn_finish

theorem passesOn_of_rest (machine : Machine β) {operation : Operation}
    (hmove : operation.isMove = false) : PassesOn (machine.operate operation) := by
  cases operation with
  | coordinatedMove feedrate target => contradiction
  | rapidMove target => contradiction
  | markHomed => exact machine.passesOn_markHomed
  | setPosition position => exact machine.passesOn_onPlanner _
  | enableMotors on => exact machine.passesOn_enableMotors on
  | finish => exact machine.passesOn_finish

omit [MotorBackend β] in
theorem refusal?_told (machine : Machine β) (operation : Operation) (target : Register Float) :
    (machine.told operation).refusal? target = machine.refusal? target := by
  cases operation <;> rfl

/-- A move that is asked for fails with its refusal, or in being carried out. -/
theorem error_of_asked {machine : Machine β} {operation : Operation} {feedrate : Float}
    {target : Register Float} (hasked : machine.asked? operation = some (feedrate, target)) :
    (machine.operate operation).ErrsWith fun error =>
      error.passedOn = true ∨ machine.refusal? target = some error := by
  rw [operate_of_asked hasked]
  have hsame := machine.refusal?_told operation target
  cases hrefusal : machine.refusal? target with
  | some refusal =>
    rw [hrefusal] at hsame
    rw [moveAt_of_refused hsame]
    exact Attempt.errsWith_failed (.inr rfl) _
  | none =>
    rw [hrefusal] at hsame
    rw [moveAt_of_allowed hsame]
    have hpasses := (passesOn_carryOut (machine.told operation) feedrate target).andThen
      passesOn_acknowledge
    exact fun error herror => .inl (hpasses error herror)

end Errors

end Machine
end StepMotion
