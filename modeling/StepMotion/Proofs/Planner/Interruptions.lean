import StepMotion.Proofs.Motor.Simulation
import StepMotion.Proofs.Planner.SpeedContinuity
import StepMotion.Proofs.Planner.StepLedger

/-! A planner over a simulated machine whose motors are switched at any time. A move that is refused
because they are off waits in the window, and is sent once they are on: no step is lost or made
twice, and the speed goes on where it was. -/
namespace StepMotion.Planner

variable {β γ : Type}

/-- A call of the planner, or one of the backend between two of them. -/
inductive Action where
  | call (call : Call)
  | enable (on : Bool)
  | waitEmpty

section Actions

variable [MotorBackend β] [MotorBackend γ]

def act (planner : Planner β) : Action → Planner β
  | .call call => (planner.perform call).state
  | .enable on => { planner with backend := MotorBackend.enable on planner.backend }
  | .waitEmpty => { planner with backend := (MotorBackend.waitEmpty planner.backend).state }

def live (planner : Planner β) : List Action → Planner β
  | [] => planner
  | action :: rest => (planner.act action).live rest

def actionEvents (planner : Planner β) : Action → List Event
  | .call call => planner.events call
  | .enable _ | .waitEmpty => []

def course (planner : Planner β) : List Action → List Event
  | [] => []
  | action :: rest => planner.actionEvents action ++ (planner.act action).course rest

variable {f : β → γ} (hf : MotorBackend.Morphism f)

include hf

theorem act_map (planner : Planner β) (action : Action) :
    (planner.map f).act action = (planner.act action).map f := by
  cases action with
  | call call => exact congrArg Attempt.state (perform_map hf planner call)
  | enable on => exact congrArg (fun b => { planner.map f with backend := b }) (hf.enable on _)
  | waitEmpty =>
    have hwait := congrArg Attempt.state (hf.waitEmpty planner.backend)
    exact congrArg (fun b => { planner.map f with backend := b }) hwait

theorem live_map (planner : Planner β) (actions : List Action) :
    (planner.map f).live actions = (planner.live actions).map f := by
  induction actions generalizing planner with
  | nil => rfl
  | cons action rest ih =>
    rw [live, act_map hf]
    exact ih (planner.act action)

theorem course_map (planner : Planner β) (actions : List Action) :
    (planner.map f).course actions = planner.course actions := by
  induction actions generalizing planner with
  | nil => rfl
  | cons action rest ih =>
    have hevents : (planner.map f).actionEvents action = planner.actionEvents action := by
      cases action with
      | call call => exact events_map hf planner call
      | enable on => rfl
      | waitEmpty => rfl
    rw [course, course, hevents, act_map hf, ih]

end Actions

/-- The path so far, the moves that were emitted and the segments that ran are in step. -/
structure Balance (start : Simulator) (path : List Event) (out : List Emission)
    (planner : Planner (Traced Simulator)) : Prop where
  ledger : Ledger path out planner
  queued : ∀ move, .queued move ∈ path → move.bare = move ∧ move.steps ≠ .zero
  accepted : planner.backend.accepted = out.flatMap Emission.segments
  ran : ∃ ran, Simulator.Ran start ran planner.backend
  stepPosition : ∀ axis, planner.stepPosition axis = (path.map fun event => event.shift axis).sum
  lookahead : 0 < planner.lookahead

section Balance

variable {start : Simulator} {path : List Event} {out : List Emission}
  {planner : Planner (Traced Simulator)}

theorem Balance.lend (h : Balance start path out planner) {backend : Traced Simulator}
    (haccepted : backend.accepted = planner.backend.accepted)
    (hran : ∃ ran, Simulator.Ran start ran backend) :
    Balance start path out { planner with backend := backend } where
  ledger := h.ledger.frame rfl rfl rfl
  queued := h.queued
  accepted := haccepted.trans h.accepted
  ran := hran
  stepPosition := h.stepPosition
  lookahead := h.lookahead

theorem Balance.perform (h : Balance start path out planner) (call : Call) :
    ∃ out', Balance start (path ++ planner.events call) out' (planner.perform call).state := by
  obtain ⟨sent, hchanges, -⟩ := planner.perform_changes h.lookahead call
  have haccepted := hchanges.accepted (Simulator.kept_ran start)
    (fun traced _ => Simulator.takesWhole traced) h.ran
  refine ⟨out ++ sent, h.ledger.changes hchanges, ?_, ?_, ?_, ?_, ?_⟩
  · intro move hmove
    rcases List.mem_append.mp hmove with hbefore | hnow
    · exact h.queued move hbefore
    · exact hchanges.queued hnow
  · rw [haccepted, h.accepted, List.flatMap_append]
  · exact hchanges.backend (Simulator.kept_ran start) h.ran
  · intro axis
    rw [hchanges.stepPosition, h.stepPosition, List.map_append, List.sum_append]
  · rw [hchanges.lookahead.2]
    exact h.lookahead

theorem Balance.act (h : Balance start path out planner) (action : Action) :
    ∃ out', Balance start (path ++ planner.actionEvents action) out' (planner.act action) := by
  obtain ⟨ran, hran⟩ := h.ran
  cases action with
  | call call => exact h.perform call
  | enable on =>
    refine ⟨out, ?_⟩
    rw [actionEvents, List.append_nil]
    exact h.lend (Traced.accepted_enable on _) ⟨ran, hran.enable on⟩
  | waitEmpty =>
    refine ⟨out, ?_⟩
    rw [actionEvents, List.append_nil]
    exact h.lend (Traced.accepted_waitEmpty _) ⟨_, hran.waitEmpty⟩

theorem Balance.live (h : Balance start path out planner) (actions : List Action) :
    ∃ out', Balance start (path ++ planner.course actions) out' (planner.live actions) := by
  induction actions generalizing path out planner with
  | nil =>
    rw [course, List.append_nil]
    exact ⟨out, h⟩
  | cons action rest ih =>
    obtain ⟨sent, hnext⟩ := h.act action
    rw [course, ← List.append_assoc]
    exact ih hnext

theorem Balance.leads (h : Balance start path out planner) :
    Segment.Leads 0.0 planner.backend.accepted planner.frontEntry := by
  have hmoves := h.ledger.queued fun move hmove => (h.queued move hmove).1
  have hmoving := moving_of_queued hmoves fun move hmove =>
    (h.queued move (mem_of_filterMap_move hmove)).2
  rw [h.accepted]
  exact h.ledger.linked.leads hmoving

end Balance

theorem balance_start {config : MachineConfig} {wiring motors : Wiring} {capacity lookahead : Nat}
    {planner : Planner Simulator}
    (hmake : make config wiring (Simulator.make motors capacity) lookahead = .ok planner) :
    Balance (Simulator.make motors capacity) [] [] planner.traced := by
  obtain ⟨hlookahead, rfl⟩ := make_eq_ok hmake
  refine ⟨.start ⟨rfl, by simp [traced, map]⟩ rfl, by simp, rfl, ⟨[], rfl, rfl⟩, ?_, hlookahead⟩
  intro axis
  exact Steps.get_zero axis

/-- However the motors are switched on and off between the calls, the segments that the simulated
machine ran, those that wait and the window make up all that was queued, and the speeds go on
without a jump. -/
theorem disabling_loses_nothing {config : MachineConfig} {wiring motors : Wiring}
    {capacity lookahead : Nat} {planner : Planner Simulator}
    (hmake : make config wiring (Simulator.make motors capacity) lookahead = .ok planner)
    (actions : List Action) :
    ∃ ran, (planner.traced.live actions).backend.accepted =
        ran ++ (planner.live actions).backend.pending ∧
      (planner.live actions).backend =
        { ran.foldl Simulator.execute (Simulator.make motors capacity) with
          pending := (planner.live actions).backend.pending
          enabled := (planner.live actions).backend.enabled } ∧
      (∀ axis, Segment.total ran axis + Segment.total (planner.live actions).backend.pending axis +
          ((planner.live actions).window.map fun move => move.steps axis).sum =
        (planner.live actions).stepPosition axis -
          (((planner.course actions).filterMap Event.jump?).map fun jump => jump axis).sum) ∧
      (ran ++ (planner.live actions).backend.pending).IsChain
        (fun a b => Segment.SameSpeed a.v1 b.v0) ∧
      ∃ blocks : List (List Segment),
        ran ++ (planner.live actions).backend.pending = blocks.flatten ∧
        List.Forall₂ BlockOf blocks
          (((planner.course actions).filterMap Event.move?).take blocks.length) ∧
        (planner.live actions).window.map Move.bare =
          ((planner.course actions).filterMap Event.move?).drop blocks.length := by
  obtain ⟨out, hbalance⟩ := (balance_start hmake).live actions
  have hlive : (planner.traced.live actions).map Traced.inner = planner.live actions := by
    rw [← live_map Traced.inner_morphism, map_inner_traced]
  have hcourse : planner.traced.course actions = planner.course actions := by
    rw [← course_map Traced.inner_morphism, map_inner_traced]
  rw [List.nil_append, hcourse] at hbalance
  obtain ⟨ran, hran⟩ := hbalance.ran
  have hmoves := hbalance.ledger.queued fun move hmove => (hbalance.queued move hmove).1
  have hmoving := moving_of_queued hmoves fun move hmove =>
    (hbalance.queued move (mem_of_filterMap_move hmove)).2
  have hchain := hbalance.leads.isChain
  rw [hran.accepted] at hchain
  rw [← hlive]
  refine ⟨ran, hran.accepted, hran.inner, fun axis => ?_, hchain, out.map Emission.segments, ?_, ?_,
    ?_⟩
  · have htotal := total_of_moves hmoves hmoving axis
    have hposition := hbalance.stepPosition axis
    rw [← hbalance.accepted, hran.accepted, Segment.total_append] at htotal
    rw [Event.sum_shift] at hposition
    change _ + Segment.total (planner.traced.live actions).backend.inner.pending axis +
      (List.map _ (planner.traced.live actions).window).sum =
        (planner.traced.live actions).stepPosition axis - _
    omega
  · rw [← List.flatMap_def, ← hbalance.accepted]
    exact hran.accepted.symm
  · rw [List.length_map]
    exact blocks_of_moves hmoves hmoving
  · rw [List.length_map]
    exact (drop_of_moves hmoves).symm

def simulatedSample : Planner Simulator := sample.map fun _ => Simulator.make sample.wiring 1

def interruptedActions : List Action :=
  [.enable true, .call (goTo 10.0), .enable false, .call .halt, .enable true, .call .halt]

theorem disabling_loses_nothing_sample :
    ((simulatedSample.live [.enable true, .call (goTo 10.0), .enable false]).perform .halt).outcome =
      .error (.motor .disabled) ∧
    (simulatedSample.live interruptedActions).backend.executed = 2 ∧
    (simulatedSample.live interruptedActions).backend.pending.length = 1 ∧
    ∃ ran, (simulatedSample.traced.live interruptedActions).backend.accepted =
        ran ++ (simulatedSample.live interruptedActions).backend.pending ∧
      (simulatedSample.live interruptedActions).backend =
        { ran.foldl Simulator.execute (Simulator.make sample.wiring 1) with
          pending := (simulatedSample.live interruptedActions).backend.pending
          enabled := (simulatedSample.live interruptedActions).backend.enabled } ∧
      (∀ axis, Segment.total ran axis +
          Segment.total (simulatedSample.live interruptedActions).backend.pending axis +
          ((simulatedSample.live interruptedActions).window.map fun move => move.steps axis).sum =
        (simulatedSample.live interruptedActions).stepPosition axis -
          (((simulatedSample.course interruptedActions).filterMap Event.jump?).map
            fun jump => jump axis).sum) ∧
      (ran ++ (simulatedSample.live interruptedActions).backend.pending).IsChain
        (fun a b => Segment.SameSpeed a.v1 b.v0) ∧
      ∃ blocks : List (List Segment),
        ran ++ (simulatedSample.live interruptedActions).backend.pending = blocks.flatten ∧
        List.Forall₂ BlockOf blocks
          (((simulatedSample.course interruptedActions).filterMap Event.move?).take
            blocks.length) ∧
        (simulatedSample.live interruptedActions).window.map Move.bare =
          ((simulatedSample.course interruptedActions).filterMap Event.move?).drop
            blocks.length := by
  have hmake : make sample.config sample.wiring (Simulator.make sample.wiring 1) 2 =
      .ok simulatedSample := make_sample_over _
  exact ⟨by decide +kernel, by decide +kernel, by decide +kernel,
    disabling_loses_nothing hmake interruptedActions⟩

end StepMotion.Planner
