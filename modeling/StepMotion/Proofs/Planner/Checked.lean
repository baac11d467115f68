import StepMotion.Proofs.Motion.Queue
import StepMotion.Proofs.Motion.Words
import StepMotion.Proofs.Planner.Soundness

/-! The planner in words of 64 bits and over the places of its queue. A call has no result where a
difference does not fit in a word, where a place is not there and where the bounds of a clamp are
not in order. From every state that a planner gets to, every call gets through and does the same. -/
namespace StepMotion

open Binary64

def Attempt.andThen? {ε σ : Type} (attempt : Attempt ε σ) (next : σ → Option (Attempt ε σ)) :
    Option (Attempt ε σ) :=
  match attempt.outcome with
  | .ok () => next attempt.state
  | .error error => some (failed error attempt.state)

theorem Attempt.andThen?_eq {ε σ : Type} {attempt : Attempt ε σ}
    {next? : σ → Option (Attempt ε σ)} {next : σ → Attempt ε σ}
    (h : next? attempt.state = some (next attempt.state)) :
    attempt.andThen? next? = some (attempt.andThen next) := by
  unfold andThen? andThen
  cases attempt.outcome with
  | ok => exact h
  | error error => rfl

namespace Planner

open Window

section Definitions

-- Each is the function without the mark, with a bind at every step that can stop.

variable {β : Type}

def push? (planner : Planner β) (move : Move) : Option (Planner β) :=
  match planner.window.getLast? with
  | none => do
    let window ← Window.replan? 0.0 [move]
    return { planner with window := window, frontEntry := 0.0, state := .buffering }
  | some last => do
    let cap ← Corner.speedCap? planner.config.thresholdAngle
      last.direction last.cruise move.direction move.cruise
    let window ← Window.replan? planner.frontEntry
      (planner.window ++ [{ move with entryCap := cap }])
    return { planner with window := window, state := .buffering }

variable [MotorBackend β]

def emitFront? : Nat → Planner β → Option (Attempt MotorError (Planner β))
  | 0, planner => some (.done planner)
  | count + 1, planner =>
    match planner.window with
    | [] => some (.done planner)
    | move :: rest => do
      let exit := entrySpeed rest
      let segments ← move.segments? exit
      let sent := MotorBackend.enqueueAll segments planner.backend
      match sent.outcome with
      | .error error => return .failed error { planner with backend := sent.state }
      | .ok () =>
        emitFront? count { planner with window := rest, frontEntry := exit, backend := sent.state }

/-- A stop is looked for from the back of the window. Only a window that is longer than the
lookahead overflows. -/
def emitSettled? (planner : Planner β) : Option (Attempt MotorError (Planner β)) := do
  let stop ← lastStop? planner.window (planner.window.length - 1)
  let sent ← emitFront? stop planner
  sent.andThen? fun planner =>
    if planner.lookahead < planner.window.length then do
      let overflow ← count? planner.window.length planner.lookahead
      emitFront? overflow planner
    else some (.done planner)

def enqueue? (planner : Planner β) (target : Register Float) (feedrate : Float) :
    Option (Attempt MotorError (Planner β)) :=
  if !(isFinite feedrate && 0.0 < feedrate) then some (.done planner)
  else match stepsOf? planner.config planner.wiring target with
    | none => some (.done planner)
    | some steps => do
      let way ← steps.sub? planner.stepPosition
      match Move.plan? planner.config way feedrate with
      | none => return .done { planner with position := target }
      | some move =>
        let pushed ← (planner.aim target steps).push? move
        let sent ← pushed.emitSettled?
        return sent.andThen fun planner => .done planner.settle

def halt? (planner : Planner β) : Option (Attempt MotorError (Planner β)) :=
  if planner.window.isEmpty then some (.done planner.settle)
  else do
    let window ← Window.replan? planner.frontEntry planner.window
    let sent ← emitFront? window.length { planner with window := window, state := .draining }
    match sent.outcome with
    | .error error => return .failed error { sent.state with state := .buffering }
    | .ok () => return .done { sent.state with frontEntry := 0.0, state := .idle }

def setPosition? (planner : Planner β) (position : Register Float) :
    Option (Attempt PlannerError (Planner β)) :=
  match stepsOf? planner.config planner.wiring position with
  | none => some (.failed .positionOutOfRange planner)
  | some steps => do
    let halted ← planner.halt?
    return (halted.within .motor id).andThen fun planner => .done (planner.aim position steps)

def perform? (planner : Planner β) : Call → Option (Attempt PlannerError (Planner β))
  | .enqueue target feedrate => (planner.enqueue? target feedrate).map (·.within .motor id)
  | .halt => planner.halt?.map (·.within .motor id)
  | .setPosition position => planner.setPosition? position

end Definitions

variable {β : Type} {planner : Planner β}

theorem push?_eq (planner : Planner β) (move : Move) :
    planner.push? move = some (planner.push move) := by
  unfold push? push
  cases planner.window.getLast? with
  | none =>
    dsimp only
    rw [replan?_eq]
    rfl
  | some last =>
    dsimp only
    rw [Corner.speedCap?_eq, Option.bind_eq_bind, Option.bind_some, replan?_eq]
    rfl

theorem Sound.inBounds (h : planner.Sound) (hplanned : planner.Planned) {call : Call}
    {front rest : List Move} {move : Move}
    (hwindow : planner.planned call = front ++ move :: rest) : move.InBounds (entrySpeed rest) := by
  obtain ⟨hmove, hexit⟩ := h.admissible_split hplanned hwindow
  exact hmove.inBounds hexit

variable [MotorBackend β]

theorem window_emitFront_suffix (count : Nat) (planner : Planner β) :
    (emitFront count planner).state.window <:+ planner.window := by
  refine emitFront_keeps (P := fun left => left.window <:+ planner.window) ?_ (fun _ h => h)
    count List.suffix_rfl
  intro left move rest backend hwindow h
  rw [hwindow] at h
  exact (List.suffix_cons move rest).trans h

theorem emitFront?_eq (h : ∀ move ∈ planner.window, move.Admissible) (count : Nat) :
    emitFront? count planner = some (emitFront count planner) := by
  induction count generalizing planner with
  | zero => rfl
  | succ count ih =>
    unfold emitFront? emitFront
    cases hwindow : planner.window with
    | nil => rfl
    | cons move rest =>
      rw [hwindow, List.forall_mem_cons] at h
      have hexit := unsigned_entrySpeed fun move hmove => (h.2 move hmove).steady
      dsimp only
      rw [h.1.segments?_eq hexit, Option.bind_eq_bind, Option.bind_some]
      generalize MotorBackend.enqueueAll (move.segments (entrySpeed rest)) planner.backend = sent
      obtain ⟨outcome, left⟩ := sent
      cases outcome with
      | error error => rfl
      | ok => exact ih h.2

theorem emitSettled?_eq (h : ∀ move ∈ planner.window, move.Admissible) :
    planner.emitSettled? = some planner.emitSettled := by
  unfold emitSettled? emitSettled
  rw [lastStop?_eq, Option.bind_eq_bind, Option.bind_some, emitFront?_eq h, Option.bind_eq_bind,
    Option.bind_some]
  apply Attempt.andThen?_eq
  have hleft : ∀ move ∈ (emitFront (settledCount planner.window) planner).state.window,
      move.Admissible := fun move hmove => h move ((window_emitFront_suffix _ _).mem hmove)
  generalize (emitFront (settledCount planner.window) planner).state = left at hleft ⊢
  split
  · next hover => rw [count?_eq hover.le, Option.bind_some, emitFront?_eq hleft]
  · next hfits => rw [Nat.sub_eq_zero_of_le (Nat.le_of_not_lt hfits)]; rfl

theorem halt?_eq (h : planner.Sound) (hplanned : planner.Planned) :
    planner.halt? = some planner.halt := by
  have hdraining : ∀ move ∈ planner.draining.window, move.Admissible :=
    h.admissible_planned hplanned .halt
  unfold halt? halt
  split
  · rfl
  · rw [replan?_eq, Option.bind_eq_bind, Option.bind_some]
    have hsent := emitFront?_eq hdraining planner.draining.window.length
    unfold draining at hsent
    dsimp only at hsent ⊢
    rw [hsent]
    generalize (emitFront _ _ : Attempt MotorError (Planner β)) = sent
    obtain ⟨outcome, left⟩ := sent
    cases outcome <;> rfl

theorem enqueue?_eq (h : planner.Sound) (hplanned : planner.Planned) (target : Register Float)
    (feedrate : Float) :
    planner.enqueue? target feedrate = some (planner.enqueue target feedrate) := by
  have hpushed := h.admissible_planned hplanned (.enqueue target feedrate)
  unfold enqueue? enqueue
  by_cases husable : isFinite feedrate && 0.0 < feedrate
  · simp only [planned, requested?, husable, ↓reduceIte, Bool.not_true, Bool.false_eq_true]
      at hpushed ⊢
    cases hsteps : stepsOf? planner.config planner.wiring target with
    | none => rfl
    | some steps =>
      have hfrom : ∀ axis, (planner.stepPosition axis).natAbs ≤ 2 ^ 54 :=
        fun axis => (h.heading.natAbs_le axis).trans (by decide)
      have hto : ∀ axis, (steps axis).natAbs ≤ 2 ^ 54 :=
        fun axis => (natAbs_le_of_stepsOf? hsteps axis).trans (by decide)
      dsimp only
      rw [Steps.sub?_eq hto hfrom, Option.bind_eq_bind, Option.bind_some]
      rw [hsteps, Option.bind_some] at hpushed
      cases hmove : Move.plan? planner.config (steps.sub planner.stepPosition) feedrate with
      | none => rfl
      | some move =>
        rw [hmove] at hpushed
        have hwindow : ∀ queued ∈ ((planner.aim target steps).push move).window,
            queued.Admissible := by
          rw [push_aim]
          exact hpushed
        dsimp only
        rw [push?_eq, Option.bind_eq_bind, Option.bind_some, emitSettled?_eq hwindow]
        rfl
  · simp only [husable, Bool.not_false, ↓reduceIte]

theorem setPosition?_eq (h : planner.Sound) (hplanned : planner.Planned)
    (position : Register Float) :
    planner.setPosition? position = some (planner.setPosition position) := by
  unfold setPosition? setPosition
  cases stepsOf? planner.config planner.wiring position with
  | none => rfl
  | some steps =>
    dsimp only
    rw [halt?_eq h hplanned]
    rfl

theorem perform?_eq (h : planner.Sound) (hplanned : planner.Planned) (call : Call) :
    planner.perform? call = some (planner.perform call) := by
  cases call with
  | enqueue target feedrate =>
    rw [perform?, enqueue?_eq h hplanned]
    rfl
  | halt =>
    rw [perform?, halt?_eq h hplanned]
    rfl
  | setPosition position => exact setPosition?_eq h hplanned position

/-- Step positions are in the step range, and the steps to a target, those of a move and all that its
phases reach are at most twice that many. So a call that counts in words and looks places up gets
through, whatever is requested and whatever the backend answers. -/
theorem arithmetic_in_bounds (h : planner.Reachable) :
    (∀ axis, (planner.stepPosition axis).natAbs ≤ 2 ^ 53) ∧
    (∀ move ∈ planner.window, ∀ axis, (move.steps axis).natAbs ≤ 2 ^ 54) ∧
    (∀ target steps, stepsOf? planner.config planner.wiring target = some steps → ∀ axis,
      (steps axis).natAbs ≤ 2 ^ 53 ∧
        (steps axis - planner.stepPosition axis).natAbs ≤ 2 ^ 54) ∧
    ∀ call, planner.perform? call = some (planner.perform call) ∧
      ∀ front move rest, planner.planned call = front ++ move :: rest →
        move.InBounds (entrySpeed rest) := by
  have hsound := h.sound
  refine ⟨hsound.heading.natAbs_le, fun move hmove => (hsound.window move hmove).natAbs_le,
    fun target steps hsteps axis => ?_, fun call => ⟨?_, fun front move rest hwindow => ?_⟩⟩
  · exact ⟨natAbs_le_of_stepsOf? hsteps axis, hsound.natAbs_sub_le hsteps axis⟩
  · exact perform?_eq hsound h.planned call
  · exact hsound.inBounds h.planned hwindow

theorem arithmetic_in_bounds_sample :
    joinedSample.stepPosition .x = 1045 ∧
    (joinedSample.planned .halt).map Move.entry =
      [0.0, if (heldSample.run [goTo 10.0]).turnsSharply (goTo 10.45) then 0.0 else 3000.0] ∧
    (∀ axis, (joinedSample.stepPosition axis).natAbs ≤ 2 ^ 53) ∧
    (∀ move ∈ joinedSample.window, ∀ axis, (move.steps axis).natAbs ≤ 2 ^ 54) ∧
    (∀ target steps, stepsOf? joinedSample.config joinedSample.wiring target = some steps →
      ∀ axis, (steps axis).natAbs ≤ 2 ^ 53 ∧
        (steps axis - joinedSample.stepPosition axis).natAbs ≤ 2 ^ 54) ∧
    ∀ call, joinedSample.perform? call = some (joinedSample.perform call) ∧
      ∀ front move rest, joinedSample.planned call = front ++ move :: rest →
        move.InBounds (entrySpeed rest) := by
  have hreachable : joinedSample.Reachable := Reachable.run (.make (make_sample_over _)) _
  refine ⟨?_, ?_, arithmetic_in_bounds hreachable⟩ <;>
  · rw [joinedSample, run_second]
    cases (heldSample.run [goTo 10.0]).turnsSharply (goTo 10.45) <;> decide +kernel

end Planner
end StepMotion
