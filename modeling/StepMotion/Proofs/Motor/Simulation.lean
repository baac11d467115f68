import StepMotion.Motor.Simulator
import StepMotion.Proofs.Motor.Traced

/-! What a simulated machine does with the segments that it takes: it runs them in order, and those
that wait are the last of them. It takes all segments while it is enabled and none while it is
not. -/
namespace StepMotion.Simulator

open MotorBackend

variable {start : Simulator} {ran : List Segment}

/-- The simulator `start` has run some of the segments that it accepted since; the others wait. -/
structure Ran (start : Simulator) (ran : List Segment) (traced : Traced Simulator) : Prop where
  accepted : traced.accepted = ran ++ traced.inner.pending
  inner : traced.inner = { ran.foldl execute start with
    pending := traced.inner.pending, enabled := traced.inner.enabled }

theorem ran_of_eq {traced : Traced Simulator} {pending : List Segment} {enabled : Bool}
    (haccepted : traced.accepted = ran ++ pending)
    (hinner : traced.inner =
      { ran.foldl execute start with pending := pending, enabled := enabled }) :
    Ran start ran traced where
  accepted := by rw [haccepted, hinner]
  inner := by rw [hinner]

theorem foldl_execute_frame (segments pending : List Segment) (enabled : Bool)
    (simulator : Simulator) :
    segments.foldl execute { simulator with pending := pending, enabled := enabled } =
      { segments.foldl execute simulator with pending := pending, enabled := enabled } := by
  induction segments generalizing simulator with
  | nil => rfl
  | cons segment rest ih => exact ih (simulator.execute segment)

theorem executeOldest_eq (count : Nat) {traced : Traced Simulator} (h : Ran start ran traced) :
    traced.inner.executeOldest count =
      { (ran ++ traced.inner.pending.take count).foldl execute start with
        pending := traced.inner.pending.drop count, enabled := traced.inner.enabled } := by
  unfold executeOldest
  conv_lhs =>
    rw [h.inner]
    simp only [foldl_execute_frame]
  rw [List.foldl_append]

theorem enqueue_of_enabled {simulator : Simulator} (h : simulator.enabled = true)
    (segment : Segment) :
    enqueue segment simulator = .done { simulator.executeOldest simulator.overflow with
      pending := simulator.pending.drop simulator.overflow ++ [segment] } := by
  unfold enqueue instMotorBackend
  simp only [h, ↓reduceIte]
  rfl

theorem enqueue_of_disabled {simulator : Simulator} (h : simulator.enabled = false)
    (segment : Segment) : enqueue segment simulator = .failed .disabled simulator := by
  unfold enqueue instMotorBackend
  simp only [h, Bool.false_eq_true, ↓reduceIte]

theorem enabled_executeOldest (simulator : Simulator) (count : Nat) :
    (simulator.executeOldest count).enabled = simulator.enabled := by
  have hframe : ((simulator.pending.take count).foldl execute simulator).enabled = _ :=
    congrArg enabled (foldl_execute_frame (simulator.pending.take count) simulator.pending
      simulator.enabled simulator)
  exact hframe

theorem accepting_of_enabled {simulator : Simulator} (h : simulator.enabled = true) :
    Accepting simulator := by
  intro segments
  induction segments generalizing simulator with
  | nil => rfl
  | cons segment rest ih =>
    rw [enqueueAll_cons, enqueue_of_enabled h, Attempt.andThen_done]
    apply ih
    exact (simulator.enabled_executeOldest _).trans h

/-- The switch does not change while segments are handed over. -/
theorem takesWhole (traced : Traced Simulator) : TakesWhole traced := by
  intro segments
  cases henabled : traced.inner.enabled with
  | true =>
    have haccepting : Accepting traced := (accepting_of_enabled henabled).traced
    exact .inl (haccepting segments)
  | false =>
    cases segments with
    | nil => exact .inl rfl
    | cons segment rest =>
      have hrefused : ¬ (enqueue segment traced.inner).Succeeds := by
        rw [enqueue_of_disabled henabled]
        exact Attempt.not_succeeds_failed _ _
      rw [enqueueAll_cons, Attempt.andThen_of_not_succeeds (by exact hrefused)]
      exact .inr (Traced.accepted_enqueue_of_refused hrefused)

theorem kept_ran (start : Simulator) : Kept fun traced => ∃ ran, Ran start ran traced := by
  rintro segment traced ⟨ran, h⟩
  cases henabled : traced.inner.enabled with
  | false =>
    have hanswer := enqueue_of_disabled henabled segment
    have hinner : (enqueue segment traced).state.inner = traced.inner :=
      congrArg Attempt.state hanswer
    refine ⟨ran, ?_, ?_⟩
    · rw [Traced.accepted_enqueue_of_refused (by simp [hanswer]), hinner]
      exact h.accepted
    · rw [hinner]
      exact h.inner
  | true =>
    have hanswer := enqueue_of_enabled henabled segment
    have hinner : (enqueue segment traced).state.inner = _ := congrArg Attempt.state hanswer
    rw [executeOldest_eq _ h] at hinner
    refine ⟨ran ++ traced.inner.pending.take traced.inner.overflow, ran_of_eq ?_ hinner⟩
    rw [Traced.accepted_enqueue_of_succeeds (by simp [hanswer]), h.accepted]
    simp only [List.append_assoc, List.append_cancel_left_eq]
    rw [← List.append_assoc, List.take_append_drop]

theorem Ran.enable {traced : Traced Simulator} (h : Ran start ran traced) (on : Bool) :
    Ran start ran (enable on traced) where
  accepted := by
    rw [Traced.accepted_enable]
    exact h.accepted
  inner := congrArg (fun s : Simulator => { s with enabled := on }) h.inner

theorem Ran.waitEmpty {traced : Traced Simulator} (h : Ran start ran traced) :
    Ran start (ran ++ traced.inner.pending) (MotorBackend.waitEmpty traced).state := by
  have hinner : (MotorBackend.waitEmpty traced).state.inner = _ :=
    executeOldest_eq traced.inner.pending.length h
  rw [List.take_length, List.drop_length] at hinner
  refine ran_of_eq ?_ hinner
  rw [Traced.accepted_waitEmpty, h.accepted, List.append_nil]

end StepMotion.Simulator
