import StepMotion.Session
import StepMotion.Proofs.Machine.Operations

/-! Sessions. A request asks for one operation on the machine as it then stands, and a session fails
with the first request that does, or in switching the motors off. -/
namespace StepMotion.Machine

variable {β : Type}

def operationOf (machine : Machine β) (request : MoveRequest) : Operation :=
  match request.kind with
  | .coordinated => .coordinatedMove request.feedrate (machine.position.override request.axes)
  | .rapid => .rapidMove (machine.position.override request.axes)
  | .home => .markHomed

theorem operationOf_ne_setPosition (machine : Machine β) (request : MoveRequest)
    (position : Register Float) : machine.operationOf request ≠ .setPosition position := by
  unfold operationOf
  cases request.kind <;> simp

variable [MotorBackend β]

theorem perform_eq (machine : Machine β) (request : MoveRequest) :
    machine.perform request = machine.operate (machine.operationOf request) := by
  unfold perform operationOf
  cases request.kind <;> rfl

theorem performAll_preserves {P : Machine β → Prop}
    (hP : ∀ machine request, P machine → P (machine.perform request).state)
    {machine : Machine β} (h : P machine) (requests : List MoveRequest) :
    P (machine.performAll requests).state := by
  induction requests generalizing machine with
  | nil => exact h
  | cons request rest ih =>
    exact Attempt.state_andThen (hP machine request h) fun _ => ih (hP machine request h)

theorem error_of_performAll {machine : Machine β} {requests : List MoveRequest}
    {error : MachineError} (h : (machine.performAll requests).outcome = .error error) :
    ∃ done request rest, requests = done ++ request :: rest ∧
      (machine.performAll done).Succeeds ∧
      ((machine.performAll done).state.perform request).outcome = .error error := by
  induction requests generalizing machine with
  | nil => contradiction
  | cons request rest ih =>
    by_cases hfirst : (machine.perform request).Succeeds
    · rw [performAll, Attempt.andThen_of_succeeds hfirst] at h
      obtain ⟨done, failing, later, rfl, hdone, herror⟩ := ih h
      have hfollowing : machine.performAll (request :: done) =
          (machine.perform request).state.performAll done := Attempt.andThen_of_succeeds hfirst _
      exact ⟨request :: done, failing, later, rfl, by rwa [hfollowing], by rwa [hfollowing]⟩
    · rw [performAll, Attempt.andThen_of_not_succeeds hfirst] at h
      exact ⟨[], request, rest, rfl, Attempt.succeeds_done machine, h⟩

end StepMotion.Machine
