import StepMotion.Motor.Backend
import StepMotion.Proofs.Attempt

/-! A backend with the list of calls that it received. A traced backend answers as the one inside
does: forgetting the list is a morphism of backends. -/
namespace StepMotion

/-- A map under which every operation answers alike and leads to corresponding states. -/
structure MotorBackend.Morphism {β γ : Type} [MotorBackend β] [MotorBackend γ] (f : β → γ) :
    Prop where
  enqueue : ∀ segment backend,
    MotorBackend.enqueue segment (f backend) = (MotorBackend.enqueue segment backend).map f
  enable : ∀ on backend, MotorBackend.enable on (f backend) = f (MotorBackend.enable on backend)
  waitEmpty : ∀ backend,
    MotorBackend.waitEmpty (f backend) = (MotorBackend.waitEmpty backend).map f

inductive MotorCall where
  | enqueue (segment : Segment) (accepted : Bool)
  | enable (on : Bool)
  | waitEmpty (succeeded : Bool)

namespace MotorCall

def accepted? : MotorCall → Option Segment
  | .enqueue segment true => some segment
  | _ => none

def offered? : MotorCall → Option Segment
  | .enqueue segment _ => some segment
  | _ => none

def refused? : MotorCall → Option Segment
  | .enqueue segment false => some segment
  | _ => none

/-- The calls that offer segments one after the other, the last ones in vain. -/
def handing (sent refused : List Segment) : List MotorCall :=
  sent.map (.enqueue · true) ++ refused.map (.enqueue · false)

@[simp] theorem filterMap_accepted_handing (sent refused : List Segment) :
    (handing sent refused).filterMap accepted? = sent := by
  simp [handing, List.filterMap_map, Function.comp_def, accepted?]

@[simp] theorem filterMap_offered_handing (sent refused : List Segment) :
    (handing sent refused).filterMap offered? = sent ++ refused := by
  simp [handing, List.filterMap_map, Function.comp_def, offered?]

end MotorCall

structure Traced (β : Type) where
  inner : β
  calls : List MotorCall := []

namespace Traced

variable {β : Type}

def accepted (traced : Traced β) : List Segment := traced.calls.filterMap MotorCall.accepted?

def offered (traced : Traced β) : List Segment := traced.calls.filterMap MotorCall.offered?

variable [MotorBackend β]

instance : MotorBackend (Traced β) where
  enqueue segment traced :=
    let answer := MotorBackend.enqueue segment traced.inner
    ⟨answer.outcome, ⟨answer.state, traced.calls ++ [.enqueue segment (decide answer.Succeeds)]⟩⟩
  enable on traced := ⟨MotorBackend.enable on traced.inner, traced.calls ++ [.enable on]⟩
  waitEmpty traced :=
    let answer := MotorBackend.waitEmpty traced.inner
    ⟨answer.outcome, ⟨answer.state, traced.calls ++ [.waitEmpty (decide answer.Succeeds)]⟩⟩

theorem accepted_enqueue_of_succeeds {segment : Segment} {traced : Traced β}
    (h : (MotorBackend.enqueue segment traced.inner).Succeeds) :
    (MotorBackend.enqueue segment traced).state.accepted = traced.accepted ++ [segment] := by
  simp [MotorBackend.enqueue, accepted, MotorCall.accepted?, h]

theorem accepted_enqueue_of_refused {segment : Segment} {traced : Traced β}
    (h : ¬ (MotorBackend.enqueue segment traced.inner).Succeeds) :
    (MotorBackend.enqueue segment traced).state.accepted = traced.accepted := by
  simp [MotorBackend.enqueue, accepted, MotorCall.accepted?, h]

@[simp] theorem accepted_enable (on : Bool) (traced : Traced β) :
    (MotorBackend.enable on traced).accepted = traced.accepted := by
  simp [MotorBackend.enable, accepted, MotorCall.accepted?]

@[simp] theorem accepted_waitEmpty (traced : Traced β) :
    (MotorBackend.waitEmpty traced).state.accepted = traced.accepted := by
  simp [MotorBackend.waitEmpty, accepted, MotorCall.accepted?]

theorem inner_morphism : MotorBackend.Morphism (inner : Traced β → β) where
  enqueue _ _ := rfl
  enable _ _ := rfl
  waitEmpty _ := rfl

def after (before : List MotorCall) (traced : Traced β) : Traced β :=
  ⟨traced.inner, before ++ traced.calls⟩

omit [MotorBackend β] in
theorem after_calls (traced : Traced β) : after traced.calls ⟨traced.inner, []⟩ = traced := by
  rw [after, List.append_nil]

theorem after_morphism (before : List MotorCall) :
    MotorBackend.Morphism (after before : Traced β → Traced β) where
  enqueue segment traced := by
    simp only [MotorBackend.enqueue, Attempt.map, after, List.append_assoc]
    rfl
  enable on traced := by
    simp only [MotorBackend.enable, after, List.append_assoc]
  waitEmpty traced := by
    simp only [MotorBackend.waitEmpty, Attempt.map, after, List.append_assoc]
    rfl

variable {γ : Type} [MotorBackend γ]

def map (f : β → γ) (traced : Traced β) : Traced γ := ⟨f traced.inner, traced.calls⟩

theorem map_morphism {f : β → γ} (hf : MotorBackend.Morphism f) :
    MotorBackend.Morphism (map f) where
  enqueue segment traced := by
    simp only [MotorBackend.enqueue, map, hf.enqueue]
    rfl
  enable on traced := by
    simp only [MotorBackend.enable, map, hf.enable]
  waitEmpty traced := by
    simp only [MotorBackend.waitEmpty, map, hf.waitEmpty]
    rfl

end Traced

namespace MotorBackend

variable {β : Type} [MotorBackend β]

theorem enqueueAll_cons (segment : Segment) (rest : List Segment) (backend : β) :
    enqueueAll (segment :: rest) backend = (enqueue segment backend).andThen (enqueueAll rest) :=
  rfl

section Calls

open MotorCall

variable {segments : List Segment} {traced : Traced β}

theorem calls_enqueue (segment : Segment) (traced : Traced β) :
    (enqueue segment traced).state.calls =
      traced.calls ++ [.enqueue segment (decide (enqueue segment traced).Succeeds)] := rfl

theorem calls_enable (on : Bool) (traced : Traced β) :
    (enable on traced).calls = traced.calls ++ [.enable on] := rfl

theorem calls_waitEmpty (traced : Traced β) :
    (waitEmpty traced).state.calls =
      traced.calls ++ [.waitEmpty (decide (waitEmpty traced).Succeeds)] := rfl

theorem calls_enqueueAll_of_succeeds (h : (enqueueAll segments traced).Succeeds) :
    (enqueueAll segments traced).state.calls = traced.calls ++ handing segments [] := by
  induction segments generalizing traced with
  | nil => exact (List.append_nil _).symm
  | cons segment rest ih =>
    rw [enqueueAll_cons] at h ⊢
    by_cases hsegment : (enqueue segment traced).Succeeds
    · rw [Attempt.andThen_of_succeeds hsegment] at h ⊢
      rw [ih h, calls_enqueue, decide_eq_true hsegment, List.append_assoc]
      rfl
    · rw [Attempt.andThen_of_not_succeeds hsegment] at h
      exact absurd h hsegment

theorem accepted_enqueueAll (h : (enqueueAll segments traced).Succeeds) :
    (enqueueAll segments traced).state.accepted = traced.accepted ++ segments := by
  rw [Traced.accepted, calls_enqueueAll_of_succeeds h, List.filterMap_append,
    filterMap_accepted_handing]
  rfl

theorem calls_enqueueAll_of_refused (h : ¬ (enqueueAll segments traced).Succeeds) :
    ∃ part segment rest, segments = part ++ segment :: rest ∧
      (enqueueAll segments traced).state.calls = traced.calls ++ handing part [segment] := by
  induction segments generalizing traced with
  | nil => exact absurd rfl h
  | cons first others ih =>
    rw [enqueueAll_cons] at h ⊢
    by_cases hfirst : (enqueue first traced).Succeeds
    · rw [Attempt.andThen_of_succeeds hfirst] at h ⊢
      obtain ⟨part, segment, rest, rfl, hcalls⟩ := ih h
      refine ⟨first :: part, segment, rest, rfl, ?_⟩
      rw [hcalls, calls_enqueue, decide_eq_true hfirst, List.append_assoc]
      rfl
    · rw [Attempt.andThen_of_not_succeeds hfirst]
      refine ⟨[], first, others, rfl, ?_⟩
      rw [calls_enqueue, decide_eq_false hfirst]
      rfl

end Calls

/-- What handing a segment over keeps, taken or not. -/
def Kept (P : β → Prop) : Prop := ∀ segment backend, P backend → P (enqueue segment backend).state

theorem Kept.enqueueAll {P : β → Prop} (h : Kept P) (segments : List Segment) {backend : β}
    (hbackend : P backend) : P (MotorBackend.enqueueAll segments backend).state := by
  induction segments generalizing backend with
  | nil => exact hbackend
  | cons segment rest ih =>
    have hfirst := h segment backend hbackend
    rw [enqueueAll_cons]
    exact Attempt.state_andThen hfirst fun _ => ih hfirst

/-- A backend that takes whatever segments are handed to it. -/
def Accepting (backend : β) : Prop := ∀ segments, (enqueueAll segments backend).Succeeds

theorem Accepting.enqueue {backend : β} (h : Accepting backend) (segment : Segment) :
    (MotorBackend.enqueue segment backend).Succeeds := by
  have hone := h [segment]
  rw [enqueueAll_cons] at hone
  generalize MotorBackend.enqueue segment backend = answer at hone
  obtain ⟨outcome, state⟩ := answer
  cases outcome with
  | error error => exact absurd hone (Attempt.not_succeeds_failed error state)
  | ok => rfl

theorem kept_accepting : Kept (Accepting : β → Prop) := by
  intro segment backend h rest
  have hall := h (segment :: rest)
  rwa [enqueueAll_cons, Attempt.andThen_of_succeeds (h.enqueue segment)] at hall

/-- A backend that takes all of a list of segments or none of them. -/
def TakesWhole (traced : Traced β) : Prop :=
  ∀ segments, (enqueueAll segments traced).Succeeds ∨
    (enqueueAll segments traced).state.accepted = traced.accepted

theorem Accepting.takesWhole {traced : Traced β} (h : Accepting traced) : TakesWhole traced :=
  fun segments => .inl (h segments)

theorem enqueueAll_map {γ : Type} [MotorBackend γ] {f : β → γ} (hf : Morphism f)
    (segments : List Segment) (backend : β) :
    enqueueAll segments (f backend) = (enqueueAll segments backend).map f := by
  induction segments generalizing backend with
  | nil => rfl
  | cons segment rest ih =>
    rw [enqueueAll_cons, enqueueAll_cons, hf.enqueue]
    exact Attempt.map_andThen f _ ih

theorem Accepting.traced {traced : Traced β} (h : Accepting traced.inner) : Accepting traced := by
  intro segments
  have hmap := enqueueAll_map Traced.inner_morphism segments traced
  have hinner := h segments
  rw [hmap] at hinner
  exact hinner

end MotorBackend
end StepMotion
