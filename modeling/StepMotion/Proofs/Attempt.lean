import Mathlib
import StepMotion.Attempt

/-! Laws of attempts: when one succeeds, what it fails with, and how a sequence of them looks through
a map of states. -/
namespace StepMotion

theorem bind_eq_ok {ε α β : Type} {first : Except ε α} {next : α → Except ε β} {result : β} :
    (first >>= next) = .ok result ↔ ∃ value, first = .ok value ∧ next value = .ok result := by
  cases first with
  | error error => exact ⟨fun h => by contradiction, fun ⟨_, h, _⟩ => by contradiction⟩
  | ok value =>
    exact ⟨fun h => ⟨value, rfl, h⟩, fun ⟨_, hvalue, hnext⟩ => by rwa [Except.ok.inj hvalue]⟩

theorem foldlM_keeps {ε α σ : Type} {step : σ → α → Except ε σ} {P : σ → Prop}
    (hstep : ∀ state entry next, step state entry = .ok next → P state → P next)
    {entries : List α} {state last : σ} (h : entries.foldlM step state = .ok last)
    (hstate : P state) : P last := by
  induction entries generalizing state with
  | nil => exact Except.ok.inj h ▸ hstate
  | cons entry rest ih =>
    obtain ⟨next, hnext, hrest⟩ := bind_eq_ok.mp h
    exact ih hrest (hstep state entry next hnext hstate)

namespace Attempt

variable {ε ε' σ τ υ : Type}

def map (f : σ → τ) (attempt : Attempt ε σ) : Attempt ε τ := ⟨attempt.outcome, f attempt.state⟩

def Succeeds (attempt : Attempt ε σ) : Prop := attempt.outcome = .ok ()

instance (attempt : Attempt ε σ) : Decidable attempt.Succeeds :=
  match h : attempt.outcome with
  | .ok () => isTrue h
  | .error _ => isFalse (by simp [Succeeds, h])

@[simp] theorem succeeds_map (f : σ → τ) (attempt : Attempt ε σ) :
    (attempt.map f).Succeeds ↔ attempt.Succeeds := Iff.rfl

@[simp] theorem succeeds_done (state : σ) : (done state : Attempt ε σ).Succeeds := rfl

@[simp] theorem not_succeeds_failed (error : ε) (state : σ) :
    ¬ (failed error state).Succeeds := by
  simp [Succeeds, failed]

@[simp] theorem succeeds_within (attempt : Attempt ε σ) (cause : ε → ε') (put : σ → τ) :
    (attempt.within cause put).Succeeds ↔ attempt.Succeeds := by
  obtain ⟨outcome, state⟩ := attempt
  cases outcome <;> simp [Succeeds, within, Except.mapError]

theorem map_andThen (f : σ → τ) (attempt : Attempt ε σ) {next : σ → Attempt ε σ}
    {next' : τ → Attempt ε τ} (h : ∀ state, next' (f state) = (next state).map f) :
    (attempt.map f).andThen next' = (attempt.andThen next).map f := by
  obtain ⟨outcome, state⟩ := attempt
  cases outcome with
  | error error => rfl
  | ok => exact h state

theorem andThen_of_succeeds {attempt : Attempt ε σ} (h : attempt.Succeeds)
    (next : σ → Attempt ε σ) : attempt.andThen next = next attempt.state := by
  unfold andThen
  rw [h]

theorem andThen_of_not_succeeds {attempt : Attempt ε σ} (h : ¬ attempt.Succeeds)
    (next : σ → Attempt ε σ) : attempt.andThen next = attempt := by
  obtain ⟨outcome, state⟩ := attempt
  cases outcome with
  | error error => rfl
  | ok => exact absurd rfl h

theorem andThen_keeps {P : Attempt ε σ → Prop} {attempt : Attempt ε σ} {next : σ → Attempt ε σ}
    (h : P attempt) (hnext : attempt.Succeeds → P (next attempt.state)) :
    P (attempt.andThen next) := by
  by_cases hdone : attempt.Succeeds
  · rw [andThen_of_succeeds hdone]
    exact hnext hdone
  · rw [andThen_of_not_succeeds hdone]
    exact h

theorem state_andThen {P : σ → Prop} {attempt : Attempt ε σ} {next : σ → Attempt ε σ}
    (h : P attempt.state) (hnext : attempt.Succeeds → P (next attempt.state).state) :
    P (attempt.andThen next).state :=
  andThen_keeps (P := fun attempt => P attempt.state) h hnext

theorem andThen_assoc (attempt : Attempt ε σ) (second third : σ → Attempt ε σ) :
    (attempt.andThen second).andThen third =
      attempt.andThen fun state => (second state).andThen third := by
  obtain ⟨outcome, state⟩ := attempt
  cases outcome <;> rfl

theorem succeeds_andThen {attempt : Attempt ε σ} {next : σ → Attempt ε σ} :
    (attempt.andThen next).Succeeds ↔ attempt.Succeeds ∧ (next attempt.state).Succeeds := by
  by_cases hdone : attempt.Succeeds
  · simp [andThen_of_succeeds hdone, hdone]
  · simp [andThen_of_not_succeeds hdone, hdone]

section Errors

def ErrsWith (P : ε → Prop) (attempt : Attempt ε σ) : Prop :=
  ∀ error, attempt.outcome = .error error → P error

variable {P : ε → Prop} {attempt : Attempt ε σ}

theorem errsWith_of_succeeds (h : attempt.Succeeds) : attempt.ErrsWith P := by
  intro error herror
  rw [h] at herror
  contradiction

theorem errsWith_failed {error : ε} (h : P error) (state : σ) :
    (failed error state).ErrsWith P := by
  intro other hother
  obtain rfl : error = other := Except.error.inj hother
  exact h

theorem ErrsWith.andThen {next : σ → Attempt ε σ} (h : attempt.ErrsWith P)
    (hnext : attempt.Succeeds → (next attempt.state).ErrsWith P) :
    (attempt.andThen next).ErrsWith P :=
  andThen_keeps (P := ErrsWith P) h hnext

theorem errsWith_within (attempt : Attempt ε' σ) {cause : ε' → ε} (h : ∀ error, P (cause error))
    (put : σ → τ) : (attempt.within cause put).ErrsWith P := by
  obtain ⟨outcome, state⟩ := attempt
  cases outcome with
  | error error => exact errsWith_failed (h error) (put state)
  | ok => exact errsWith_of_succeeds rfl

end Errors

end Attempt
end StepMotion
