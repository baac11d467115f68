import StepMotion.Proofs.Machine.Simulated

/-! The power of the motors. They are on whenever a segment is handed over, and they are switched
off only when no move is left and the backend has run all that it was given. -/
namespace StepMotion

namespace MotorCall

def switched? : MotorCall → Option Bool
  | .enable on => some on
  | _ => none

/-- How the motors were switched last. -/
def power (calls : List MotorCall) : Option Bool := (calls.filterMap switched?).getLast?

/-- What has to come before a call. -/
def Allowed (before : List MotorCall) : MotorCall → Prop
  | .enqueue _ _ => power before = some true
  | .enable on => on = false → before.getLast? = some (.waitEmpty true)
  | .waitEmpty _ => True

def Orderly (calls : List MotorCall) : Prop :=
  ∀ before call after, calls = before ++ call :: after → Allowed before call

variable {calls : List MotorCall} {call : MotorCall}

@[simp] theorem power_enqueue (segment : Segment) (accepted : Bool) :
    power (calls ++ [.enqueue segment accepted]) = power calls := by
  simp [power, switched?]

@[simp] theorem power_waitEmpty (succeeded : Bool) :
    power (calls ++ [.waitEmpty succeeded]) = power calls := by
  simp [power, switched?]

@[simp] theorem power_enable (on : Bool) : power (calls ++ [.enable on]) = some on := by
  simp [power, switched?]

theorem orderly_nil : Orderly [] := by
  intro before call after heq
  simp at heq

theorem Orderly.concat (h : Orderly calls) (hcall : Allowed calls call) :
    Orderly (calls ++ [call]) := by
  intro before other after heq
  rcases List.eq_nil_or_concat after with rfl | ⟨initial, last, rfl⟩
  · obtain ⟨rfl, hlast⟩ := List.append_inj' heq rfl
    obtain rfl : call = other := by simpa using hlast
    exact hcall
  · rw [List.concat_eq_append, ← List.cons_append, ← List.append_assoc] at heq
    obtain ⟨hinitial, -⟩ := List.append_inj' heq rfl
    exact h before other initial hinitial

end MotorCall

namespace Machine

open MotorBackend MotorCall

variable {β : Type}

def Onward (before : List MotorCall) (traced : Traced β) : Prop :=
  ∃ new, traced.calls = before ++ new ∧ .enable false ∉ new

theorem Onward.concat {before : List MotorCall} {call : MotorCall} {traced later : Traced β}
    (h : Onward before traced) (hcall : call ≠ .enable false)
    (hcalls : later.calls = traced.calls ++ [call]) : Onward before later := by
  obtain ⟨new, hnew, hnone⟩ := h
  refine ⟨new ++ [call], by rw [hcalls, hnew, List.append_assoc], ?_⟩
  simpa using ⟨hnone, hcall.symm⟩

variable [MotorBackend β]

def calls (machine : Machine (Traced β)) : List MotorCall := machine.planner.backend.calls

def SwitchedOn (traced : Traced β) : Prop := power traced.calls = some true

theorem lasts_switchedOn : Lasts (SwitchedOn : Traced β → Prop) where
  kept segment traced h := by
    rw [SwitchedOn, calls_enqueue, power_enqueue]
    exact h
  enable _ _ := power_enable true
  wait traced h := by
    rw [SwitchedOn, calls_waitEmpty, power_waitEmpty]
    exact h

theorem switchedOn_enable (traced : Traced β) : SwitchedOn (enable true traced) :=
  power_enable true

theorem kept_orderly : Kept fun traced : Traced β => SwitchedOn traced ∧ Orderly traced.calls := by
  rintro segment traced ⟨hon, horderly⟩
  exact ⟨lasts_switchedOn.kept segment traced hon, horderly.concat hon⟩

variable {first second machine : Machine (Traced β)} {jumps : List (Register Float)}

theorem Deed.orderly (hdeed : Deed first jumps second) (hpowered : Powered SwitchedOn first)
    (h : Orderly first.calls) : Orderly second.calls := by
  cases hdeed with
  | note feedrate sink homed => exact h
  | switchOn => exact h.concat fun hoff => absurd hoff.symm Bool.false_ne_true
  | move feedrate hon hallowed =>
    obtain ⟨out, hchanges⟩ := first.planner.enqueue_changes hpowered.lookahead _ feedrate
    exact (hchanges.backend kept_orderly ⟨hpowered.on hon, h⟩).2
  | halt =>
    by_cases hempty : first.planner.window = []
    · have hidle : first.planner.halt.state.backend = first.planner.backend := by
        rw [Planner.halt_of_idle hempty]
        exact first.planner.settle_backend
      change Orderly first.planner.halt.state.backend.calls
      rw [hidle]
      exact h
    · obtain ⟨out, hchanges, -⟩ := first.planner.halt_changes
      exact (hchanges.backend kept_orderly ⟨hpowered.on (hpowered.moves hempty), h⟩).2
  | wait => exact h.concat trivial
  | jump hempty hsteps => exact h

theorem Deeds.orderly (hdeeds : Deeds first jumps second) (hpowered : Powered SwitchedOn first)
    (h : Orderly first.calls) : Orderly second.calls := by
  induction hdeeds with
  | refl => exact h
  | step hdeed hrest ih =>
    exact ih (hpowered.deed lasts_switchedOn switchedOn_enable hdeed) (hdeed.orderly hpowered h)

theorem getLast_calls_finish (h : machine.finish.Succeeds) :
    machine.finish.state.calls.getLast? = some (.waitEmpty true) := by
  obtain ⟨-, hfinish⟩ := finish_of_succeeds h
  rw [hfinish] at h ⊢
  have hwaited : (MotorBackend.waitEmpty machine.planner.halt.state.backend).Succeeds :=
    (Attempt.succeeds_within _ _ _).mp h
  change (MotorBackend.waitEmpty machine.planner.halt.state.backend).state.calls.getLast? = _
  rw [calls_waitEmpty, List.getLast?_concat, decide_eq_true hwaited]

theorem orderly_operate (hpowered : Powered SwitchedOn machine) (h : Orderly machine.calls)
    (operation : Operation) : Orderly (machine.operate operation).state.calls := by
  rcases machine.operate_deeds operation with hdeeds | ⟨-, hfinish, hoff⟩
  · exact hdeeds.orderly hpowered h
  · rw [hoff]
    exact (machine.deeds_finish.orderly hpowered h).concat fun _ => getLast_calls_finish hfinish

theorem orderly_run (hpowered : Powered SwitchedOn machine) (h : Orderly machine.calls)
    (operations : List Operation) : Orderly (machine.run operations).calls := by
  induction operations generalizing machine with
  | nil => exact h
  | cons operation rest ih =>
    exact ih (hpowered.operate lasts_switchedOn switchedOn_enable operation)
      (orderly_operate hpowered h operation)

theorem lasts_onward (before : List MotorCall) : Lasts (Onward before : Traced β → Prop) where
  kept segment traced h := h.concat (by simp) (calls_enqueue segment traced)
  enable traced h := h.concat (by simp) (calls_enable true traced)
  wait traced h := h.concat (by simp) (calls_waitEmpty traced)

theorem Deeds.onward (hdeeds : Deeds first jumps second)
    (hlookahead : 0 < first.planner.lookahead) : Onward first.calls second.planner.backend := by
  refine (hdeeds.preserves (P := fun machine => 0 < machine.planner.lookahead ∧
    Onward first.calls machine.planner.backend) ?_ ⟨hlookahead, [], ?_, ?_⟩).2
  · rintro before after _ hdeed ⟨hbefore, honward⟩
    exact ⟨hdeed.lookahead hbefore, hdeed.backend (lasts_onward _) hbefore honward⟩
  · exact (List.append_nil _).symm
  · exact List.not_mem_nil

theorem mem_of_append_eq {α : Type} {first second before after : List α} {x : α}
    (h : first ++ second = before ++ x :: after) (hlength : first.length ≤ before.length) :
    x ∈ second := by
  obtain ⟨between, -, rfl⟩ | ⟨between, rfl, hrest⟩ := List.append_eq_append_iff.mp h
  · simp
  · obtain rfl : between = [] := by
      rw [List.length_append] at hlength
      exact List.length_eq_zero_iff.mp (by omega)
    rw [List.nil_append] at hrest
    rw [← hrest]
    exact List.mem_cons_self

theorem eq_append_of_append_eq {α : Type} {first second before after : List α} {x : α}
    (h : first ++ second = before ++ x :: after) (hlength : before.length < first.length) :
    ∃ behind, first = before ++ x :: behind := by
  obtain ⟨between, rfl, -⟩ | ⟨between, rfl, hrest⟩ := List.append_eq_append_iff.mp h
  · rw [List.length_append] at hlength
    omega
  · cases between with
    | nil => simp at hlength
    | cons head behind =>
      obtain rfl : x = head := (List.cons.inj hrest).1
      exact ⟨behind, rfl⟩

theorem calls_prefix_operate (hpowered : Powered SwitchedOn machine) (operation : Operation) :
    machine.calls <+: (machine.operate operation).state.calls := by
  rcases machine.operate_deeds operation with hdeeds | ⟨-, -, hoff⟩
  · obtain ⟨new, hnew, -⟩ := hdeeds.onward hpowered.lookahead
    exact ⟨new, hnew.symm⟩
  · obtain ⟨new, hnew, -⟩ := machine.deeds_finish.onward hpowered.lookahead
    rw [hoff]
    refine ⟨new ++ [.enable false], ?_⟩
    rw [← List.append_assoc, ← hnew]
    rfl

theorem calls_prefix_run (hpowered : Powered SwitchedOn machine) (operations : List Operation) :
    machine.calls <+: (machine.run operations).calls := by
  induction operations generalizing machine with
  | nil => exact List.prefix_refl _
  | cons operation rest ih =>
    exact (calls_prefix_operate hpowered operation).trans
      (ih (hpowered.operate lasts_switchedOn switchedOn_enable operation))

/-- The operation in the course of which the motors were switched off. -/
theorem switchedOff_at (hpowered : Powered SwitchedOn machine) (operations : List Operation)
    {before after : List MotorCall}
    (hcalls : (machine.run operations).calls = before ++ .enable false :: after)
    (hlate : machine.calls.length ≤ before.length) :
    ∃ done rest, operations = done ++ .enableMotors false :: rest ∧
      (machine.run done).finish.Succeeds ∧ (machine.run done).finish.state.calls = before := by
  induction operations generalizing machine with
  | nil =>
    have hlength := congrArg List.length hcalls
    rw [List.length_append, List.length_cons] at hlength
    simp only [run] at hlength
    omega
  | cons operation rest ih =>
    have hnext := hpowered.operate lasts_switchedOn switchedOn_enable operation
    by_cases hlater : (machine.operate operation).state.calls.length ≤ before.length
    · obtain ⟨done, others, rfl, hfinish, hdone⟩ := ih hnext hcalls hlater
      exact ⟨operation :: done, others, rfl, hfinish, hdone⟩
    -- The motors were switched off by this operation, whose calls come first.
    obtain ⟨tail, htail⟩ := calls_prefix_run hnext rest
    obtain ⟨behind, hhere⟩ := eq_append_of_append_eq (htail.trans hcalls) (by omega)
    rcases machine.operate_deeds operation with hdeeds | ⟨rfl, hfinish, hoff⟩
    · obtain ⟨new, hnew, hnone⟩ := hdeeds.onward hpowered.lookahead
      exact absurd (mem_of_append_eq (hnew.symm.trans hhere) hlate) hnone
    · obtain ⟨new, hnew, hnone⟩ := machine.deeds_finish.onward hpowered.lookahead
      rw [hoff] at hhere hlater
      change machine.finish.state.calls ++ [MotorCall.enable false] = _ at hhere
      change ¬ (machine.finish.state.calls ++ [MotorCall.enable false]).length ≤ before.length
        at hlater
      rw [List.length_append, List.length_singleton] at hlater
      refine ⟨[], rest, rfl, hfinish, ?_⟩
      by_cases hwithin : before.length < machine.finish.state.calls.length
      · obtain ⟨others, hothers⟩ := eq_append_of_append_eq hhere hwithin
        exact absurd (mem_of_append_eq (hnew.symm.trans hothers) hlate) hnone
      · exact (List.append_inj hhere (by omega)).1

/-- A segment is handed over only while the motors were last switched on. They are switched off only
as the last deed of a request to do so, after the path was halted and run. So a simulated machine
never finds them off. -/
theorem motor_power {config : MachineConfig} {wiring : Wiring} {backend : β} {sink : Option Sink}
    {machine : Machine β} (hmake : make config wiring backend sink = .ok machine)
    (operations : List Operation) :
    (∀ before segment accepted after, (machine.traced.run operations).calls =
        before ++ .enqueue segment accepted :: after → power before = some true) ∧
    (∀ before after, (machine.traced.run operations).calls = before ++ .enable false :: after →
      before.getLast? = some (.waitEmpty true) ∧
      ∃ done rest, operations = done ++ .enableMotors false :: rest ∧
        (machine.traced.run done).finish.Succeeds ∧
        (machine.traced.run done).finish.state.calls = before ∧
        (machine.traced.run done).finish.state.planner.window = []) ∧
    ∀ (simulator : Simulator) (simulated : Machine Simulator),
      make config wiring simulator sink = .ok simulated → ∀ operation error,
        ((simulated.run operations).operate operation).outcome = .error error →
          failure? error = none := by
  have hpowered : Powered SwitchedOn machine.traced := powered_of_make _ SwitchedOn hmake
  have horderly := orderly_run hpowered orderly_nil operations
  refine ⟨fun before segment accepted after hcalls => horderly _ _ _ hcalls, ?_, ?_⟩
  · intro before after hcalls
    obtain ⟨done, rest, hoperations, hfinish, hbefore⟩ :=
      switchedOff_at hpowered operations hcalls (Nat.zero_le _)
    exact ⟨horderly _ _ _ hcalls rfl, done, rest, hoperations, hfinish, hbefore,
      window_finish hfinish⟩
  · intro simulator simulated hsimulated operation
    have hpowered : Powered Enabled simulated := powered_of_make id Enabled hsimulated
    have hon := hpowered.run lasts_enabled enabled_enable operations
    exact hon.unfailing_operate operation

def sample : Machine Simulator where
  planner :=
    { config := Planner.sample.config
      wiring := Planner.sample.wiring
      lookahead := Planner.defaultLookahead
      backend := Simulator.make Planner.sample.wiring }

theorem make_sample :
    make sample.planner.config sample.planner.wiring sample.planner.backend none = .ok sample :=
  make_of_valid Planner.firstOffence_sample _ _ _

def sampleOperations : List Operation :=
  [.coordinatedMove (some 50.0) ((Register.fill 0.0).set .x 10.0), .enableMotors false]

theorem motor_power_sample :
    (sample.traced.run sampleOperations).calls.length = 6 ∧
    (∀ before segment accepted after, (sample.traced.run sampleOperations).calls =
        before ++ .enqueue segment accepted :: after → power before = some true) ∧
    (∀ before after, (sample.traced.run sampleOperations).calls =
        before ++ .enable false :: after → before.getLast? = some (.waitEmpty true)) ∧
    ∀ error, ((sample.run sampleOperations).operate .markHomed).outcome = .error error →
      failure? error = none := by
  obtain ⟨hon, hoff, hunfailing⟩ := motor_power make_sample sampleOperations
  exact ⟨by decide +kernel, hon, fun before after hcalls => (hoff before after hcalls).1,
    hunfailing _ sample make_sample .markHomed⟩

end Machine
end StepMotion
