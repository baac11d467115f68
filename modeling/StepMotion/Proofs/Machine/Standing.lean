import StepMotion.Proofs.Machine.Operations
import StepMotion.Proofs.Planner.Heading

/-! What moves and halts leave alone. A planner keeps its configuration and its wiring; a machine
also its sink and whether it was homed, but for the acknowledgement at the very end of a move and
for what marks it homed. -/
namespace StepMotion

namespace Planner

variable {β : Type} [MotorBackend β]

theorem state_halt {planner : Planner β} (h : planner.halt.Succeeds) :
    planner.halt.state.state = .idle := by
  by_cases hempty : planner.window = []
  · rw [halt_of_idle hempty]
    simp [Attempt.done, settle, hempty]
  · by_cases hsent : planner.drained.Succeeds
    · rw [halt_of_accepted hempty hsent]
      rfl
    · rw [halt_of_refused hempty hsent] at h
      exact absurd h hsent

end Planner

namespace Machine

variable {β : Type}

/-- What the motion does not change. -/
structure Standing where
  config : MachineConfig
  wiring : Wiring
  sink : Option Sink
  homed : Bool

def standing (machine : Machine β) : Standing :=
  ⟨machine.config, machine.wiring, machine.sink, machine.homed⟩

theorem standing_andThen {machine : Machine β} {attempt : Attempt MachineError (Machine β)}
    {next : Machine β → Attempt MachineError (Machine β)}
    (h : attempt.state.standing = machine.standing)
    (hnext : (next attempt.state).state.standing = attempt.state.standing) :
    (attempt.andThen next).state.standing = machine.standing :=
  Attempt.state_andThen (P := fun later : Machine β => later.standing = machine.standing) h
    fun _ => hnext.trans h

variable [MotorBackend β]

theorem standing_perform (machine : Machine β) (call : Planner.Call) :
    (machine.onPlanner (machine.planner.perform call)).state.standing = machine.standing := by
  obtain ⟨hconfig, hwiring⟩ := machine.planner.config_perform call
  exact congrArg₂ (fun config wiring => (⟨config, wiring, machine.sink, machine.homed⟩ : Standing))
    hconfig hwiring

theorem standing_finish (machine : Machine β) :
    machine.finish.state.standing = machine.standing :=
  standing_andThen (machine.standing_perform .halt) rfl

theorem standing_setPosition (machine : Machine β) (position : Register Float) :
    (machine.setPosition position).state.standing = machine.standing :=
  machine.standing_perform (.setPosition position)

theorem standing_enableMotors (machine : Machine β) (on : Bool) :
    (machine.enableMotors on).state.standing = machine.standing := by
  cases on with
  | true => rfl
  | false => exact standing_andThen machine.standing_finish rfl

section Moves

def Operation.isMove : Operation → Bool
  | .coordinatedMove _ _ => true
  | .rapidMove _ => true
  | _ => false

omit [MotorBackend β] in
/-- The feedrate and the target of the move that is asked for. -/
def asked? (machine : Machine β) : Operation → Option (Float × Register Float)
  | .coordinatedMove feedrate target => (feedrate <|> machine.feedrate).map (·, target)
  | .rapidMove target =>
    if rapidFeedrate machine.config ≤ 0.0 then none
    else some (rapidFeedrate machine.config, target)
  | _ => none

def told (machine : Machine β) : Operation → Machine β
  | .coordinatedMove feedrate _ => { machine with feedrate := feedrate <|> machine.feedrate }
  | _ => machine

theorem operate_of_asked {machine : Machine β} {operation : Operation} {feedrate : Float}
    {target : Register Float} (h : machine.asked? operation = some (feedrate, target)) :
    machine.operate operation = (machine.told operation).moveAt feedrate target := by
  cases operation with
  | coordinatedMove given place =>
    obtain ⟨speed, hspeed, hpair⟩ := Option.map_eq_some_iff.mp h
    obtain ⟨rfl, rfl⟩ := Prod.mk.inj hpair
    simp only [operate, coordinatedMove, told, hspeed]
  | rapidMove place =>
    simp only [asked?] at h
    split at h
    · contradiction
    · next hspeed =>
      obtain ⟨rfl, rfl⟩ := Prod.mk.inj (Option.some.inj h)
      simp only [operate, rapidMove, told, hspeed, ↓reduceIte]
  | _ => contradiction

theorem operate_of_unasked {machine : Machine β} {operation : Operation}
    (hmove : operation.isMove = true) (h : machine.asked? operation = none) :
    machine.operate operation = .failed .noFeedrate (machine.told operation) := by
  cases operation with
  | coordinatedMove given place =>
    have hspeed := Option.map_eq_none_iff.mp h
    simp only [operate, coordinatedMove, told, hspeed]
  | rapidMove place =>
    simp only [asked?] at h
    split at h
    · next hspeed => simp only [operate, rapidMove, told, hspeed, ↓reduceIte]
    · contradiction
  | _ => contradiction

def carryOut (machine : Machine β) (feedrate : Float) (target : Register Float) :
    Attempt MachineError (Machine β) :=
  let powered := if machine.motorsOn then machine else machine.setMotors true
  (powered.onPlanner (powered.planner.perform (.enqueue target feedrate))).andThen fun machine =>
    if machine.config.synchronous then machine.finish else .done machine

theorem moveAt_of_refused {machine : Machine β} {target : Register Float} {refusal : MachineError}
    (h : machine.refusal? target = some refusal) (feedrate : Float) :
    machine.moveAt feedrate target = .failed refusal machine := by
  unfold moveAt
  rw [h]

theorem moveAt_of_allowed {machine : Machine β} {target : Register Float}
    (h : machine.refusal? target = none) (feedrate : Float) :
    machine.moveAt feedrate target = (machine.carryOut feedrate target).andThen acknowledge := by
  unfold moveAt carryOut
  rw [h, Attempt.andThen_assoc]
  rfl

theorem standing_carryOut (machine : Machine β) (feedrate : Float) (target : Register Float) :
    (machine.carryOut feedrate target).state.standing = machine.standing := by
  unfold carryOut
  dsimp only
  generalize hpowered : (if machine.motorsOn then machine else machine.setMotors true) = powered
  have hstanding : powered.standing = machine.standing := by
    rw [← hpowered]
    split <;> rfl
  apply standing_andThen ((powered.standing_perform _).trans hstanding)
  split
  · exact standing_finish _
  · rfl

omit [MotorBackend β] in
/-- Remembering a feedrate is all that is done before a move is allowed. -/
theorem standing_told (machine : Machine β) (operation : Operation) :
    (machine.told operation).standing = machine.standing ∧
      (machine.told operation).planner = machine.planner := by
  cases operation <;> exact ⟨rfl, rfl⟩

def added (machine : Machine β) (operation : Operation) : List Move :=
  match machine.asked? operation with
  | some (feedrate, target) =>
    if (machine.refusal? target).isNone then (machine.planner.requested? target feedrate).toList
    else []
  | none => []

omit [MotorBackend β] in
theorem added_of_not_move (machine : Machine β) {operation : Operation}
    (h : operation.isMove = false) : machine.added operation = [] := by
  cases operation with
  | coordinatedMove feedrate target => contradiction
  | rapidMove target => contradiction
  | _ => rfl

/-- A move is refused at once, or it is carried out and then acknowledged. -/
theorem move_cases (machine : Machine β) {operation : Operation}
    (hmove : operation.isMove = true) :
    (machine.added operation = [] ∧ ∃ error,
        machine.operate operation = .failed error (machine.told operation)) ∨
      ∃ feedrate target,
        machine.added operation = (machine.planner.requested? target feedrate).toList ∧
        machine.operate operation =
          ((machine.told operation).carryOut feedrate target).andThen acknowledge := by
  unfold added
  cases hasked : machine.asked? operation with
  | none => exact .inl ⟨rfl, _, operate_of_unasked hmove hasked⟩
  | some move =>
    obtain ⟨feedrate, target⟩ := move
    have hsame : (machine.told operation).refusal? target = machine.refusal? target := by
      cases operation <;> rfl
    rw [operate_of_asked hasked]
    dsimp only
    cases hrefusal : machine.refusal? target with
    | some refusal =>
      rw [hrefusal] at hsame
      exact .inl ⟨rfl, refusal, moveAt_of_refused hsame feedrate⟩
    | none =>
      rw [hrefusal] at hsame
      exact .inr ⟨feedrate, target, rfl, moveAt_of_allowed hsame feedrate⟩

end Moves

section Operations

omit [MotorBackend β] in
theorem standing_acknowledge (machine : Machine β) : machine.acknowledge.state.standing =
    { machine.standing with sink := machine.acknowledge.state.sink } :=
  congrArg standing machine.state_acknowledge

theorem standing_of_move (machine : Machine β) {operation : Operation}
    (hmove : operation.isMove = true) : (machine.operate operation).state.standing =
      { machine.standing with sink := (machine.operate operation).state.sink } := by
  have hsame : ∀ later : Machine β, later.standing = machine.standing →
      later.standing = { machine.standing with sink := later.sink } := by
    intro later hstanding
    have hsink : later.sink = machine.sink := congrArg Standing.sink hstanding
    rw [hstanding, hsink]
    rfl
  have htold := (machine.standing_told operation).1
  obtain ⟨-, error, hrefused⟩ | ⟨feedrate, target, -, hallowed⟩ := machine.move_cases hmove
  · rw [hrefused]
    exact hsame _ htold
  · have hcarried := ((machine.told operation).standing_carryOut feedrate target).trans htold
    rw [hallowed]
    by_cases hdone : ((machine.told operation).carryOut feedrate target).Succeeds
    · rw [Attempt.andThen_of_succeeds hdone, standing_acknowledge, hcarried]
    · rw [Attempt.andThen_of_not_succeeds hdone]
      exact hsame _ hcarried

theorem standing_of_rest (machine : Machine β) {operation : Operation}
    (hmove : operation.isMove = false) (hmark : operation ≠ .markHomed) :
    (machine.operate operation).state.standing = machine.standing := by
  cases operation with
  | coordinatedMove feedrate target => contradiction
  | rapidMove target => contradiction
  | markHomed => contradiction
  | setPosition position => exact machine.standing_setPosition position
  | enableMotors on => exact machine.standing_enableMotors on
  | finish => exact machine.standing_finish

variable {machine : Machine β}

theorem standing_markHomed (h : machine.markHomed.Succeeds) :
    machine.markHomed.state.standing = { machine.standing with homed := true } := by
  have hfinish : machine.finish.Succeeds := (Attempt.succeeds_andThen.mp h).1
  rw [markHomed_of_finished hfinish] at h ⊢
  have hset := (Attempt.succeeds_andThen.mp h).1
  have hstanding := (machine.finish.state.standing_setPosition
    machine.finish.state.homePosition).trans machine.standing_finish
  rw [Attempt.andThen_of_succeeds hset]
  exact congrArg (fun standing : Standing => { standing with homed := true }) hstanding

theorem standing_markHomed_of_failed (h : ¬ machine.markHomed.Succeeds) :
    machine.markHomed.state.standing = machine.standing := by
  by_cases hfinish : machine.finish.Succeeds
  · rw [markHomed_of_finished hfinish] at h ⊢
    have hset : ¬ (machine.finish.state.setPosition
        machine.finish.state.homePosition).Succeeds := by
      intro hset
      rw [Attempt.andThen_of_succeeds hset] at h
      exact h (Attempt.succeeds_done _)
    rw [Attempt.andThen_of_not_succeeds hset]
    exact (machine.finish.state.standing_setPosition _).trans machine.standing_finish
  · unfold markHomed
    rw [Attempt.andThen_of_not_succeeds hfinish]
    exact machine.standing_finish

theorem sink_of_rest (machine : Machine β) {operation : Operation}
    (hmove : operation.isMove = false) :
    (machine.operate operation).state.sink = machine.sink := by
  by_cases hmark : operation = .markHomed
  · subst hmark
    by_cases hdone : machine.markHomed.Succeeds
    · exact congrArg Standing.sink (standing_markHomed hdone)
    · exact congrArg Standing.sink (standing_markHomed_of_failed hdone)
  · exact congrArg Standing.sink (machine.standing_of_rest hmove hmark)

theorem config_operate (machine : Machine β) (operation : Operation) :
    (machine.operate operation).state.config = machine.config := by
  cases hmove : operation.isMove with
  | true => exact congrArg Standing.config (machine.standing_of_move hmove)
  | false =>
    by_cases hmark : operation = .markHomed
    · subst hmark
      by_cases hdone : machine.markHomed.Succeeds
      · exact congrArg Standing.config (standing_markHomed hdone)
      · exact congrArg Standing.config (standing_markHomed_of_failed hdone)
    · exact congrArg Standing.config (machine.standing_of_rest hmove hmark)

theorem config_run (machine : Machine β) (operations : List Operation) :
    (machine.run operations).config = machine.config := by
  induction operations generalizing machine with
  | nil => rfl
  | cons operation rest ih => exact (ih _).trans (machine.config_operate operation)

end Operations

end Machine
end StepMotion
