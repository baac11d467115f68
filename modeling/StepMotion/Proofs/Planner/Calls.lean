import StepMotion.Motion.Planner
import StepMotion.Motor.Recorder
import StepMotion.Proofs.Motor.Traced

/-! Runs of the planner: sequences of calls, whatever their outcomes, with the path that they
describe. A run over a backend and one over its image under a morphism go the same way, so the
segments that a run hands over can be read off a traced backend. -/
namespace StepMotion.Planner

variable {β γ : Type}

theorem make_eq_ok {config : MachineConfig} {wiring : Wiring} {backend : β} {lookahead : Nat}
    {planner : Planner β} (h : make config wiring backend lookahead = .ok planner) :
    0 < lookahead ∧ planner = { config, wiring, lookahead, backend } := by
  unfold make at h
  cases hvalid : config.validate with
  | error error => simp [hvalid, Except.mapError, bind, Except.bind] at h
  | ok done =>
    simp only [hvalid, Except.mapError, bind, Except.bind] at h
    split at h
    · contradiction
    · next hlookahead =>
      exact ⟨Nat.pos_of_ne_zero hlookahead, (Except.ok.inj h).symm⟩

theorem make_of_valid {config : MachineConfig} {lookahead : Nat}
    (hvalid : config.firstOffence? = none) (hlookahead : 0 < lookahead) (wiring : Wiring)
    (backend : β) : make config wiring backend lookahead =
      .ok { config, wiring, lookahead, backend } := by
  unfold make MachineConfig.validate
  rw [hvalid, if_neg (Nat.ne_of_gt hlookahead)]
  rfl

inductive Call where
  | enqueue (target : Register Float) (feedrate : Float)
  | halt
  | setPosition (position : Register Float)

section Runs

variable [MotorBackend β]

def perform (planner : Planner β) : Call → Attempt PlannerError (Planner β)
  | .enqueue target feedrate => (planner.enqueue target feedrate).within .motor id
  | .halt => planner.halt.within .motor id
  | .setPosition position => planner.setPosition position

def run (planner : Planner β) : List Call → Planner β
  | [] => planner
  | call :: rest => run (planner.perform call).state rest

@[simp] theorem run_cons (planner : Planner β) (call : Call) (rest : List Call) :
    planner.run (call :: rest) = (planner.perform call).state.run rest := rfl

theorem run_append (planner : Planner β) (first second : List Call) :
    planner.run (first ++ second) = (planner.run first).run second := by
  induction first generalizing planner with
  | nil => rfl
  | cons call rest ih => exact ih (planner.perform call).state

/-- A successful call that leaves the path at rest. -/
def Rests (planner : Planner β) : Call → Prop
  | .enqueue _ _ => False
  | .halt => planner.halt.Succeeds
  | .setPosition position => (planner.setPosition position).Succeeds

/-- The states between the calls of a run. The backend is lent out and may change at any time. -/
inductive Reachable : Planner β → Prop where
  | make {config : MachineConfig} {wiring : Wiring} {backend : β} {lookahead : Nat}
      {planner : Planner β} (h : Planner.make config wiring backend lookahead = .ok planner) :
      Reachable planner
  | perform {planner : Planner β} (h : Reachable planner) (call : Call) :
      Reachable (planner.perform call).state
  | lend {planner : Planner β} (h : Reachable planner) (backend : β) :
      Reachable { planner with backend := backend }

theorem Reachable.run {planner : Planner β} (h : planner.Reachable) (calls : List Call) :
    (planner.run calls).Reachable := by
  induction calls generalizing planner with
  | nil => exact h
  | cons call rest ih => exact ih (h.perform call)

end Runs

/-- The move that a request puts into the window, unless it is ignored. -/
def requested? (planner : Planner β) (target : Register Float) (feedrate : Float) : Option Move :=
  if Binary64.isFinite feedrate && 0.0 < feedrate then
    (stepsOf? planner.config planner.wiring target).bind fun steps =>
      Move.plan? planner.config (steps.sub planner.stepPosition) feedrate
  else none

def aim (planner : Planner β) (target : Register Float) (steps : Steps) : Planner β :=
  { planner with position := target, stepPosition := steps }

inductive Event where
  | queued (move : Move)
  | halted
  /-- The step position jumps while the window is empty. -/
  | rebased (jump : Steps)

namespace Event

def move? : Event → Option Move
  | .queued move => some move
  | _ => none

def jump? : Event → Option Steps
  | .rebased jump => some jump
  | _ => none

def shift : Event → Steps
  | .queued move => move.steps
  | .halted => .zero
  | .rebased jump => jump

theorem sum_shift (path : List Event) (axis : Axis) :
    (path.map fun event => event.shift axis).sum =
      ((path.filterMap move?).map fun move => move.steps axis).sum +
        ((path.filterMap jump?).map fun jump => jump axis).sum := by
  induction path with
  | nil => rfl
  | cons event rest ih =>
    rw [List.map_cons, List.sum_cons, ih]
    cases event <;> simp [List.filterMap_cons, shift, move?, jump?] <;> omega

end Event

section History

variable [MotorBackend β]

def events (planner : Planner β) : Call → List Event
  | .enqueue target feedrate => (planner.requested? target feedrate).toList.map .queued
  | .halt => if planner.halt.Succeeds then [.halted] else []
  | .setPosition position =>
    let answer := planner.setPosition position
    if answer.Succeeds then
      [.halted, .rebased (answer.state.stepPosition.sub planner.stepPosition)]
    else []

def history (planner : Planner β) : List Call → List Event
  | [] => []
  | call :: rest => planner.events call ++ history (planner.perform call).state rest

def queued (planner : Planner β) (calls : List Call) : List Move :=
  (planner.history calls).filterMap Event.move?

def jumps (planner : Planner β) (calls : List Call) : List Steps :=
  (planner.history calls).filterMap Event.jump?

end History

def map (f : β → γ) (planner : Planner β) : Planner γ :=
  { config := planner.config
    wiring := planner.wiring
    lookahead := planner.lookahead
    backend := f planner.backend
    window := planner.window
    frontEntry := planner.frontEntry
    position := planner.position
    stepPosition := planner.stepPosition
    state := planner.state }

theorem make_map (f : β → γ) {config : MachineConfig} {wiring : Wiring} {backend : β}
    {lookahead : Nat} {planner : Planner β}
    (hmake : make config wiring backend lookahead = .ok planner) :
    make config wiring (f backend) lookahead = .ok (planner.map f) := by
  obtain ⟨hlookahead, hplanner⟩ := make_eq_ok hmake
  unfold make at hmake ⊢
  cases hvalid : config.validate with
  | error error => simp [hvalid, Except.mapError, bind, Except.bind] at hmake
  | ok done =>
    rw [hplanner]
    simp only [Except.mapError, bind, Except.bind, if_neg hlookahead.ne']
    rfl

theorem push_map (f : β → γ) (planner : Planner β) (move : Move) :
    (planner.map f).push move = (planner.push move).map f := by
  simp only [push, map]
  cases planner.window.getLast? <;> rfl

@[simp] theorem settle_window (planner : Planner β) : planner.settle.window = planner.window := by
  unfold settle
  split <;> rfl

@[simp] theorem settle_frontEntry (planner : Planner β) :
    planner.settle.frontEntry = planner.frontEntry := by
  unfold settle
  split <;> rfl

@[simp] theorem settle_backend (planner : Planner β) :
    planner.settle.backend = planner.backend := by
  unfold settle
  split <;> rfl

theorem settle_map (f : β → γ) (planner : Planner β) :
    (planner.map f).settle = planner.settle.map f := by
  unfold settle map
  by_cases hempty : planner.window.isEmpty <;> simp only [hempty, ↓reduceIte, Bool.false_eq_true]

section Morphism

variable [MotorBackend β] [MotorBackend γ] {f : β → γ} (hf : MotorBackend.Morphism f)

include hf

theorem emitFront_map (count : Nat) (planner : Planner β) :
    emitFront count (planner.map f) = (emitFront count planner).map (map f) := by
  induction count generalizing planner with
  | zero => rfl
  | succ count ih =>
    obtain ⟨config, wiring, lookahead, backend, window, frontEntry, position, stepPosition,
      state⟩ := planner
    cases window with
    | nil => rfl
    | cons move rest =>
      simp only [emitFront, map, MotorBackend.enqueueAll_map hf, Attempt.map]
      cases (MotorBackend.enqueueAll (move.segments (Window.entrySpeed rest)) backend).outcome with
      | error error => rfl
      | ok done =>
        cases done
        exact ih ⟨config, wiring, lookahead, _, rest, _, position, stepPosition, state⟩

theorem emitSettled_map (planner : Planner β) :
    (planner.map f).emitSettled = planner.emitSettled.map (map f) := by
  unfold emitSettled
  rw [emitFront_map hf]
  exact Attempt.map_andThen (map f) _ fun state => emitFront_map hf _ state

theorem enqueue_map (planner : Planner β) (target : Register Float) (feedrate : Float) :
    (planner.map f).enqueue target feedrate = (planner.enqueue target feedrate).map (map f) := by
  obtain ⟨config, wiring, lookahead, backend, window, frontEntry, position, stepPosition, state⟩ :=
    planner
  simp only [enqueue, map]
  by_cases husable : Binary64.isFinite feedrate && 0.0 < feedrate
  · simp only [husable, Bool.not_true, Bool.false_eq_true, ↓reduceIte]
    cases stepsOf? config wiring target with
    | none => rfl
    | some steps =>
      dsimp only
      cases Move.plan? config (steps.sub stepPosition) feedrate with
      | none => rfl
      | some move =>
        let aimed : Planner β :=
          ⟨config, wiring, lookahead, backend, window, frontEntry, target, steps, state⟩
        change ((aimed.map f).push move).emitSettled.andThen _ = _
        rw [push_map, emitSettled_map hf]
        exact Attempt.map_andThen (map f) _ fun state => congrArg Attempt.done (settle_map f state)
  · simp only [husable, Bool.not_false, ↓reduceIte]
    rfl

theorem halt_map (planner : Planner β) : (planner.map f).halt = planner.halt.map (map f) := by
  obtain ⟨config, wiring, lookahead, backend, window, frontEntry, position, stepPosition, state⟩ :=
    planner
  cases window with
  | nil => rfl
  | cons move rest =>
    let window := Window.replan frontEntry (move :: rest)
    have hsent := emitFront_map hf window.length
      ⟨config, wiring, lookahead, backend, window, frontEntry, position, stepPosition, .draining⟩
    simp only [map] at hsent
    simp only [halt, map, List.isEmpty_cons, Bool.false_eq_true, ↓reduceIte]
    rw [hsent]
    simp only [Attempt.map]
    cases (emitFront window.length (Planner.mk config wiring lookahead backend window frontEntry
      position stepPosition .draining)).outcome <;> rfl

theorem setPosition_map (planner : Planner β) (position : Register Float) :
    (planner.map f).setPosition position = (planner.setPosition position).map (map f) := by
  have hsame : stepsOf? (planner.map f).config (planner.map f).wiring position =
      stepsOf? planner.config planner.wiring position := rfl
  unfold setPosition
  rw [halt_map hf, hsame]
  cases stepsOf? planner.config planner.wiring position with
  | none => rfl
  | some steps =>
    change ((planner.halt.within PlannerError.motor id).map (map f)).andThen
        (fun state => .done (state.aim position steps)) =
      Attempt.map (map f) ((planner.halt.within PlannerError.motor id).andThen
        fun state => .done (state.aim position steps))
    exact Attempt.map_andThen (map f) _ fun state => rfl

theorem perform_map (planner : Planner β) (call : Call) :
    (planner.map f).perform call = (planner.perform call).map (map f) := by
  cases call with
  | enqueue target feedrate =>
    simp only [perform, enqueue_map hf]
    rfl
  | halt =>
    simp only [perform, halt_map hf]
    rfl
  | setPosition position => exact setPosition_map hf planner position

theorem run_map (planner : Planner β) (calls : List Call) :
    (planner.map f).run calls = (planner.run calls).map f := by
  induction calls generalizing planner with
  | nil => rfl
  | cons call rest ih =>
    rw [run_cons, run_cons, perform_map hf]
    exact ih (planner.perform call).state

theorem rests_map (planner : Planner β) (call : Call) :
    (planner.map f).Rests call ↔ planner.Rests call := by
  cases call with
  | enqueue target feedrate => exact Iff.rfl
  | halt => simp only [Rests, halt_map hf, Attempt.succeeds_map]
  | setPosition position => simp only [Rests, setPosition_map hf, Attempt.succeeds_map]

theorem events_map (planner : Planner β) (call : Call) :
    (planner.map f).events call = planner.events call := by
  cases call with
  | enqueue target feedrate => rfl
  | halt => simp only [events, halt_map hf, Attempt.succeeds_map]
  | setPosition position =>
    simp only [events, setPosition_map hf, Attempt.map]
    rfl

theorem history_map (planner : Planner β) (calls : List Call) :
    (planner.map f).history calls = planner.history calls := by
  induction calls generalizing planner with
  | nil => rfl
  | cons call rest ih =>
    simp only [history, events_map hf, perform_map hf, Attempt.map, ih]

end Morphism

def traced (planner : Planner β) : Planner (Traced β) := planner.map (⟨·, []⟩)

@[simp] theorem map_inner_traced (planner : Planner β) :
    planner.traced.map Traced.inner = planner := rfl

theorem map_after_traced (planner : Planner (Traced β)) :
    (planner.map Traced.inner).traced.map (Traced.after planner.backend.calls) = planner := by
  obtain ⟨config, wiring, lookahead, backend, window, frontEntry, position, steps, state⟩ := planner
  simp only [traced, map, Traced.after_calls]

section Traced

variable [MotorBackend β]

/-- The segments that the backend accepts in the course of a run, in order. -/
def emitted (planner : Planner β) (calls : List Call) : List Segment :=
  (planner.traced.run calls).backend.accepted

theorem run_traced (planner : Planner β) (calls : List Call) :
    (planner.traced.run calls).map Traced.inner = planner.run calls := by
  rw [← run_map Traced.inner_morphism, map_inner_traced]

theorem window_run_traced (planner : Planner β) (calls : List Call) :
    (planner.traced.run calls).window = (planner.run calls).window :=
  congrArg Planner.window (planner.run_traced calls)

theorem history_traced (planner : Planner β) (calls : List Call) :
    planner.traced.history calls = planner.history calls := by
  rw [← history_map Traced.inner_morphism, map_inner_traced]

theorem queued_traced (planner : Planner β) (calls : List Call) :
    planner.traced.queued calls = planner.queued calls := by
  rw [queued, queued, history_traced]

theorem rests_run_traced (planner : Planner β) (calls : List Call) (call : Call) :
    (planner.traced.run calls).Rests call ↔ (planner.run calls).Rests call := by
  rw [← rests_map Traced.inner_morphism, run_traced]

theorem emitted_append (planner : Planner β) (first second : List Call) :
    planner.emitted (first ++ second) =
      planner.emitted first ++ (planner.run first).emitted second := by
  unfold emitted
  conv_lhs => rw [run_append, ← map_after_traced (planner.traced.run first), run_traced,
    run_map (Traced.after_morphism _)]
  exact List.filterMap_append

end Traced

section Sample

theorem accepting_recorder (recorder : Recorder) : MotorBackend.Accepting recorder := by
  intro segments
  induction segments generalizing recorder with
  | nil => rfl
  | cons segment rest ih => exact ih { recorder with segments := recorder.segments.push segment }

def sampleLimits : AxisLimits where
  stepsPerMm := 100.0
  maxFeedrate := 200.0
  acceleration := 1000.0

def sample : Planner Recorder where
  config := { axes := (Register.fill {}).set .x sampleLimits }
  wiring :=
    { motorsOf := (Register.fill []).set .x [⟨0, false⟩]
      drives := (Vector.replicate motorConnectors none).set 0 (some .x) }
  lookahead := 2
  backend := {}

theorem firstOffence_sample : sample.config.firstOffence? = none := by decide +kernel

theorem make_sample : make sample.config sample.wiring sample.backend 2 = .ok sample :=
  make_of_valid firstOffence_sample Nat.two_pos _ _

theorem make_sample_over (backend : β) :
    make sample.config sample.wiring backend 2 = .ok (sample.map fun _ => backend) :=
  make_map (fun _ => backend) make_sample

def goTo (x : Float) : Call := .enqueue ((Register.fill 0.0).set .x x) 50.0

def sampleCalls : List Call := [goTo 10.0, .halt, .setPosition (.fill 3.0), goTo 0.0, .halt]

end Sample

end StepMotion.Planner
