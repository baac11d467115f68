import StepMotion.Proofs.Motion.Segments
import StepMotion.Proofs.Motor.Simulation
import StepMotion.Proofs.Wiring.Motors

/-! The queue of a simulated machine. It runs segments in the order in which it accepted them, and
keeps as many of the last ones as fit. How many fit cannot be told from its answers, and once it was
waited for not from its motors and its clock either. -/
namespace StepMotion

inductive MotorRequest where
  | enqueue (segment : Segment)
  | enable (on : Bool)
  | waitEmpty

namespace MotorBackend

variable {β γ : Type} [MotorBackend β] [MotorBackend γ]

def answer (backend : β) : MotorRequest → Attempt MotorError β
  | .enqueue segment => enqueue segment backend
  | .enable on => .done (enable on backend)
  | .waitEmpty => waitEmpty backend

def serve (backend : β) : List MotorRequest → β
  | [] => backend
  | request :: rest => serve (answer backend request).state rest

def answers (backend : β) : List MotorRequest → List (Except MotorError Unit)
  | [] => []
  | request :: rest =>
    (answer backend request).outcome :: answers (answer backend request).state rest

theorem serve_append (backend : β) (first second : List MotorRequest) :
    serve backend (first ++ second) = serve (serve backend first) second := by
  induction first generalizing backend with
  | nil => rfl
  | cons request rest ih => exact ih (answer backend request).state

variable {f : β → γ} (hf : Morphism f)

include hf

theorem answer_map (backend : β) (request : MotorRequest) :
    answer (f backend) request = (answer backend request).map f := by
  cases request with
  | enqueue segment => exact hf.enqueue segment backend
  | enable on => exact congrArg Attempt.done (hf.enable on backend)
  | waitEmpty => exact hf.waitEmpty backend

theorem serve_map (backend : β) (requests : List MotorRequest) :
    serve (f backend) requests = f (serve backend requests) := by
  induction requests generalizing backend with
  | nil => rfl
  | cons request rest ih =>
    rw [serve, answer_map hf]
    exact ih (answer backend request).state

theorem answers_map (backend : β) (requests : List MotorRequest) :
    answers (f backend) requests = answers backend requests := by
  induction requests generalizing backend with
  | nil => rfl
  | cons request rest ih =>
    rw [answers, answers, answer_map hf]
    exact congrArg _ (ih (answer backend request).state)

end MotorBackend

namespace Wiring

/-- Motors make the steps of their axes, however these are divided. -/
theorem motorSteps_add (wiring : Wiring) (s t : Steps) :
    wiring.motorSteps (s.add t) =
      (wiring.motorSteps s).zipWith (· + ·) (wiring.motorSteps t) := by
  ext connector hconnector
  obtain ⟨axis, sign, hsteps⟩ := wiring.exists_get_motorSteps ⟨connector, hconnector⟩
  simp only [Vector.get_eq_getElem] at hsteps
  rw [Vector.getElem_zipWith, hsteps, hsteps, hsteps, Steps.get_add, Int.mul_add]

theorem motorSteps_zero (wiring : Wiring) : wiring.motorSteps Steps.zero = .replicate _ 0 := by
  ext connector hconnector
  obtain ⟨axis, sign, hsteps⟩ := wiring.exists_get_motorSteps ⟨connector, hconnector⟩
  simp only [Vector.get_eq_getElem] at hsteps
  rw [Vector.getElem_replicate, hsteps, Steps.get_zero, Int.mul_zero]

end Wiring

namespace Simulator

open MotorBackend

section Run

theorem foldl_execute_eq (segments : List Segment) (simulator : Simulator) :
    segments.foldl execute simulator =
      { simulator with
        positions := simulator.positions.zipWith (· + ·)
          (simulator.wiring.motorSteps (.ofFn (Segment.total segments)))
        elapsed := segments.foldl (fun time segment => time + segment.duration) simulator.elapsed
        executed := simulator.executed + segments.length } := by
  induction segments generalizing simulator with
  | nil =>
    have hzero : (Register.ofFn (Segment.total []) : Steps) = Steps.zero := rfl
    have hsame : simulator.positions.zipWith (· + ·) (Vector.replicate motorConnectors 0) =
        simulator.positions := by
      ext connector hconnector
      simp
    rw [hzero, Wiring.motorSteps_zero, hsame]
    rfl
  | cons segment rest ih =>
    have htotal : (Register.ofFn (Segment.total (segment :: rest)) : Steps) =
        segment.steps.add (.ofFn (Segment.total rest)) := by
      ext axis
      simp
    have hpositions : simulator.positions.zipWith (· + ·)
        (simulator.wiring.motorSteps (.ofFn (Segment.total (segment :: rest)))) =
        (simulator.execute segment).positions.zipWith (· + ·)
          (simulator.wiring.motorSteps (.ofFn (Segment.total rest))) := by
      ext connector hconnector
      rw [htotal, Wiring.motorSteps_add]
      simp only [execute, Vector.getElem_zipWith]
      omega
    rw [List.foldl_cons, ih, hpositions]
    simp only [execute, List.foldl_cons, List.length_cons, Nat.add_assoc, Nat.add_comm 1]

end Run

section Room

def executeNext (simulator : Simulator) : Simulator :=
  match simulator.pending with
  | [] => simulator
  | segment :: rest => { simulator.execute segment with pending := rest }

/-- Where the oldest segment runs as long as the queue is full, this ends after `count` of them. -/
def MakesRoom (simulator : Simulator) (count : Nat) : Prop :=
  (∀ fewer < count, simulator.capacity ≤ (executeNext^[fewer] simulator).pending.length) ∧
    (executeNext^[count] simulator).pending.length < simulator.capacity

theorem executeOldest_eq_iterate (simulator : Simulator) (count : Nat) :
    simulator.executeOldest count = executeNext^[count] simulator := by
  induction count generalizing simulator with
  | zero => rfl
  | succ count ih =>
    rw [Function.iterate_succ_apply, ← ih]
    cases hpending : simulator.pending with
    | nil =>
      have hnext : simulator.executeNext = simulator := by simp only [executeNext, hpending]
      simp only [hnext, executeOldest, hpending, List.take_nil, List.drop_nil]
    | cons segment rest =>
      have hnext : simulator.executeNext = { simulator.execute segment with pending := rest } := by
        simp only [executeNext, hpending]
      simp only [hnext, executeOldest, hpending, List.take_succ_cons, List.drop_succ_cons,
        List.foldl_cons, foldl_execute_eq]

theorem pending_iterate (simulator : Simulator) (count : Nat) :
    (executeNext^[count] simulator).pending = simulator.pending.drop count := by
  rw [← executeOldest_eq_iterate]
  rfl

theorem makesRoom_overflow {simulator : Simulator} (h : 0 < simulator.capacity) :
    simulator.MakesRoom simulator.overflow := by
  constructor
  · intro fewer hfewer
    rw [pending_iterate, List.length_drop]
    unfold overflow at hfewer
    omega
  · rw [pending_iterate, List.length_drop]
    unfold overflow
    omega

end Room

section Bounded

variable {start : Simulator} {traced : Traced Simulator}

structure Bounded (start : Simulator) (traced : Traced Simulator) : Prop where
  ran : ∃ ran, Ran start ran traced
  pending : traced.inner.pending.length ≤ start.capacity

theorem Ran.capacity {ran : List Segment} (h : Ran start ran traced) :
    traced.inner.capacity = start.capacity := by
  rw [h.inner, foldl_execute_eq]

theorem Bounded.answer (hstart : 0 < start.capacity) (h : Bounded start traced)
    (request : MotorRequest) : Bounded start (answer traced request).state := by
  obtain ⟨ran, hran⟩ := h.ran
  cases request with
  | enqueue segment =>
    refine ⟨kept_ran start segment traced h.ran, ?_⟩
    change (enqueue segment traced.inner).state.pending.length ≤ _
    cases henabled : traced.inner.enabled with
    | false =>
      rw [enqueue_of_disabled henabled]
      exact h.pending
    | true =>
      rw [enqueue_of_enabled henabled]
      have hcapacity := hran.capacity
      simp only [Attempt.done, List.length_append, List.length_drop, List.length_singleton]
      unfold overflow
      omega
  | enable on => exact ⟨⟨ran, hran.enable on⟩, h.pending⟩
  | waitEmpty =>
    refine ⟨⟨_, hran.waitEmpty⟩, ?_⟩
    change (traced.inner.pending.drop traced.inner.pending.length).length ≤ _
    rw [List.drop_length]
    exact Nat.zero_le _

theorem Bounded.serve (hstart : 0 < start.capacity) (h : Bounded start traced)
    (requests : List MotorRequest) : Bounded start (MotorBackend.serve traced requests) := by
  induction requests generalizing traced with
  | nil => exact h
  | cons request rest ih => exact ih (h.answer hstart request)

end Bounded

/-- A queue without a limit, that takes segments while it is enabled and never runs one. -/
structure Unbounded where
  segments : List Segment := []
  enabled : Bool := false

instance : MotorBackend Unbounded where
  enqueue segment queue :=
    if queue.enabled then .done { queue with segments := queue.segments ++ [segment] }
    else .failed .disabled queue
  enable on queue := { queue with enabled := on }
  waitEmpty queue := .done queue

def taken (traced : Traced Simulator) : Unbounded := ⟨traced.accepted, traced.inner.enabled⟩

/-- A simulated machine answers as the queue does, whatever its capacity. -/
theorem taken_morphism : Morphism taken where
  enqueue segment traced := by
    cases henabled : traced.inner.enabled with
    | false =>
      have hanswer := enqueue_of_disabled henabled segment
      have houtcome : (enqueue segment traced).outcome = .error .disabled :=
        congrArg Attempt.outcome hanswer
      have hinner : (enqueue segment traced).state.inner = traced.inner :=
        congrArg Attempt.state hanswer
      have haccepted : (enqueue segment traced).state.accepted = traced.accepted :=
        Traced.accepted_enqueue_of_refused (by simp [hanswer])
      simp only [Attempt.map, houtcome, taken, haccepted, hinner]
      simp only [enqueue, henabled, Bool.false_eq_true, ↓reduceIte, Attempt.failed]
    | true =>
      have hanswer := enqueue_of_enabled henabled segment
      have houtcome : (enqueue segment traced).outcome = .ok () := congrArg Attempt.outcome hanswer
      have hinner : (enqueue segment traced).state.inner.enabled = true :=
        (congrArg (·.state.enabled) hanswer).trans
          ((enabled_executeOldest traced.inner _).trans henabled)
      have haccepted : (enqueue segment traced).state.accepted = traced.accepted ++ [segment] :=
        Traced.accepted_enqueue_of_succeeds (by simp [hanswer])
      simp only [Attempt.map, houtcome, taken, haccepted, hinner]
      simp only [enqueue, henabled, ↓reduceIte, Attempt.done]
  enable on traced := by
    simp only [taken, Traced.accepted_enable]
    rfl
  waitEmpty traced := by
    have henabled : (waitEmpty traced).state.inner.enabled = traced.inner.enabled :=
      enabled_executeOldest traced.inner _
    simp only [Attempt.map, taken, Traced.accepted_waitEmpty, henabled]
    rfl

section Served

variable (wiring : Wiring) (capacity : Nat) (requests : List MotorRequest)

def served : Simulator := serve (make wiring capacity) requests

def acceptedBy : List Segment :=
  (serve (⟨make wiring capacity, []⟩ : Traced Simulator) requests).accepted

def ranBy : List Segment :=
  (acceptedBy wiring capacity requests).take (served wiring capacity requests).executed

/-- What a simulated machine ran and what still waits, and what it ran has done. -/
structure Served (ran : List Segment) : Prop where
  accepted : acceptedBy wiring capacity requests = ran ++ (served wiring capacity requests).pending
  state : served wiring capacity requests = { ran.foldl execute (make wiring capacity) with
    pending := (served wiring capacity requests).pending
    enabled := (served wiring capacity requests).enabled }
  pending : (served wiring capacity requests).pending.length ≤ max capacity 1

theorem served_ranBy : Served wiring capacity requests (ranBy wiring capacity requests) := by
  have hstart : Bounded (make wiring capacity) ⟨make wiring capacity, []⟩ :=
    ⟨⟨[], rfl, rfl⟩, Nat.zero_le _⟩
  have hroom : 0 < (make wiring capacity).capacity := lt_max_of_lt_right Nat.one_pos
  obtain ⟨⟨ran, hran⟩, hpending⟩ := hstart.serve hroom requests
  have hinner : (serve (⟨make wiring capacity, []⟩ : Traced Simulator) requests).inner =
      served wiring capacity requests := (serve_map Traced.inner_morphism _ requests).symm
  obtain ⟨haccepted, hstate⟩ := hran
  rw [hinner] at haccepted hstate hpending
  have hcount : (served wiring capacity requests).executed = ran.length := by
    rw [hstate, foldl_execute_eq]
    exact Nat.zero_add _
  have hranBy : ranBy wiring capacity requests = ran := by
    rw [ranBy, acceptedBy, haccepted, hcount, List.take_left]
  rw [hranBy]
  exact ⟨haccepted, hstate, hpending⟩

variable {wiring capacity requests} {ran : List Segment}

theorem Served.capacity_pos (h : Served wiring capacity requests ran) :
    0 < (served wiring capacity requests).capacity := by
  rw [h.state, foldl_execute_eq]
  exact lt_max_of_lt_right Nat.one_pos

theorem Served.executed (h : Served wiring capacity requests ran) :
    (served wiring capacity requests).executed = ran.length := by
  rw [h.state, foldl_execute_eq]
  exact Nat.zero_add _

theorem Served.positions (h : Served wiring capacity requests ran) :
    (served wiring capacity requests).positions =
      wiring.motorSteps (.ofFn (Segment.total ran)) := by
  rw [h.state, foldl_execute_eq]
  ext connector hconnector
  simp [make]

theorem Served.elapsed (h : Served wiring capacity requests ran) :
    (served wiring capacity requests).elapsed =
      ran.foldl (fun time segment => time + segment.duration) 0.0 := by
  rw [h.state, foldl_execute_eq]
  rfl

variable (wiring capacity requests)

theorem acceptedBy_eq :
    acceptedBy wiring capacity requests = (serve ({} : Unbounded) requests).segments :=
  congrArg Unbounded.segments (serve_map taken_morphism ⟨make wiring capacity, []⟩ requests).symm

theorem answers_make :
    answers (make wiring capacity) requests = answers ({} : Unbounded) requests := by
  have htraced := answers_map Traced.inner_morphism ⟨make wiring capacity, []⟩ requests
  exact htraced.trans (answers_map taken_morphism ⟨make wiring capacity, []⟩ requests).symm

theorem served_waited : Served wiring capacity (requests ++ [MotorRequest.waitEmpty])
    (serve ({} : Unbounded) (requests ++ [MotorRequest.waitEmpty])).segments := by
  have hserved := served_ranBy wiring capacity (requests ++ [MotorRequest.waitEmpty])
  have hempty : (served wiring capacity (requests ++ [MotorRequest.waitEmpty])).pending = [] := by
    rw [served, serve_append]
    exact List.drop_length
  have haccepted := hserved.accepted
  rw [hempty, List.append_nil] at haccepted
  rw [← acceptedBy_eq wiring capacity, haccepted]
  exact hserved

/-- Segments are run in the order of their acceptance, and a capacity shows only in how many of the
last ones wait. -/
theorem served_in_order :
    (∀ segment, (served wiring capacity requests).enabled = false →
      enqueue segment (served wiring capacity requests) =
        .failed .disabled (served wiring capacity requests)) ∧
    (∀ segment, (served wiring capacity requests).enabled = true → ∃ count,
      (served wiring capacity requests).MakesRoom count ∧
      enqueue segment (served wiring capacity requests) =
        .done { executeNext^[count] (served wiring capacity requests) with
          pending :=
            (executeNext^[count] (served wiring capacity requests)).pending ++ [segment] }) ∧
    (served wiring capacity requests).pending.length ≤ max capacity 1 ∧
    ranBy wiring capacity requests ++ (served wiring capacity requests).pending =
      acceptedBy wiring capacity requests ∧
    (ranBy wiring capacity requests).length = (served wiring capacity requests).executed ∧
    (served wiring capacity requests).positions =
      wiring.motorSteps (.ofFn (Segment.total (ranBy wiring capacity requests))) ∧
    (served wiring capacity requests).elapsed =
      (ranBy wiring capacity requests).foldl (fun time segment => time + segment.duration) 0.0 ∧
    ∀ other, answers (make wiring other) requests = answers (make wiring capacity) requests ∧
      (served wiring other (requests ++ [MotorRequest.waitEmpty])).positions =
        (served wiring capacity (requests ++ [MotorRequest.waitEmpty])).positions ∧
      (served wiring other (requests ++ [MotorRequest.waitEmpty])).executed =
        (served wiring capacity (requests ++ [MotorRequest.waitEmpty])).executed ∧
      (served wiring other (requests ++ [MotorRequest.waitEmpty])).elapsed =
        (served wiring capacity (requests ++ [MotorRequest.waitEmpty])).elapsed := by
  have hserved := served_ranBy wiring capacity requests
  have hwaited := served_waited wiring capacity requests
  refine ⟨fun segment henabled => enqueue_of_disabled henabled segment,
    fun segment henabled => ⟨_, makesRoom_overflow hserved.capacity_pos, ?_⟩, hserved.pending,
    hserved.accepted.symm, hserved.executed.symm, hserved.positions, hserved.elapsed,
    fun other => ?_⟩
  · rw [enqueue_of_enabled henabled, pending_iterate, executeOldest_eq_iterate]
  · have hother := served_waited wiring other requests
    exact ⟨(answers_make wiring other requests).trans (answers_make wiring capacity requests).symm,
      hother.positions.trans hwaited.positions.symm, hother.executed.trans hwaited.executed.symm,
      hother.elapsed.trans hwaited.elapsed.symm⟩

/-- 500 steps, speeding up from rest to 2000 steps/s. -/
example : (served {} 1 [.enable true, .enqueue ⟨0.0, 2000.0, Steps.zero.set .x 500⟩,
    .waitEmpty]).elapsed = 0.5 := by decide +kernel

end Served

end Simulator
end StepMotion
