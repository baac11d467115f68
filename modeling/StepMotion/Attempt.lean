/-! An operation on a state that may fail. The state afterwards is there in either case: what was
done before a failure stays done. -/
namespace StepMotion

structure Attempt (ε σ : Type) where
  outcome : Except ε Unit
  state : σ

namespace Attempt

variable {ε ε' σ τ : Type}

def done (state : σ) : Attempt ε σ := ⟨.ok (), state⟩

def failed (error : ε) (state : σ) : Attempt ε σ := ⟨.error error, state⟩

def andThen (attempt : Attempt ε σ) (next : σ → Attempt ε σ) : Attempt ε σ :=
  match attempt.outcome with
  | .ok () => next attempt.state
  | .error error => failed error attempt.state

def within (attempt : Attempt ε σ) (cause : ε → ε') (put : σ → τ) : Attempt ε' τ :=
  ⟨attempt.outcome.mapError cause, put attempt.state⟩

@[simp] theorem andThen_done (state : σ) (next : σ → Attempt ε σ) :
    (done state).andThen next = next state := rfl

@[simp] theorem andThen_failed (error : ε) (state : σ) (next : σ → Attempt ε σ) :
    (failed error state).andThen next = failed error state := rfl

end Attempt
end StepMotion
