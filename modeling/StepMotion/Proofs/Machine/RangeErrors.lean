import StepMotion.Proofs.Axis
import StepMotion.Proofs.Machine.Errors
import StepMotion.Proofs.Machine.Range
import StepMotion.Proofs.Machine.Session
import StepMotion.Proofs.Planner.Reported

/-! Whom a range error blames. The position of a machine always passes its range check: it starts
there, goes to targets that passed, and homing leads to the ends of the ranges. What a request does
not mention is therefore never the cause of a range error. -/
namespace StepMotion

namespace Machine

variable {β : Type} {config : MachineConfig}

def Admitted (config : MachineConfig) (position : Register Float) : Prop :=
  config.rangeCheck = true → rangeOffence? config position = none

section Positions

theorem inRange_zero {limits : AxisLimits} (h : limits.isConfigured = true → limits.Usable) :
    inRange limits 0.0 = true ∧ (¬ limits.range < 0.0 → inRange limits limits.range = true) := by
  have hzero : (0.0 : Float) ≤ 0.0 := Binary64.le_self rfl
  unfold inRange
  cases hconfigured : limits.isConfigured with
  | false => exact ⟨rfl, fun _ => rfl⟩
  | true =>
    have hnumber := (h hconfigured).range_isNaN
    by_cases hbounded : limits.range < 0.0
    · exact ⟨by simp [hbounded], fun hunbounded => absurd hbounded hunbounded⟩
    · have hrange : 0.0 ≤ limits.range := Binary64.le_of_not_lt rfl hnumber hbounded
      exact ⟨by simp [hrange, hzero], fun _ => by simp [hrange, Binary64.le_self hnumber]⟩

theorem admitted_origin (h : config.Usable) : Admitted config (.fill 0.0) := by
  intro _
  rw [rangeOffence?_eq_none]
  intro axis
  rw [Register.get_fill]
  exact (inRange_zero (h.axes axis)).1

theorem admitted_homePosition (h : config.Usable) {machine : Machine β}
    (hconfig : machine.config = config) : Admitted config machine.homePosition := by
  intro _
  rw [rangeOffence?_eq_none]
  intro axis
  obtain ⟨horigin, hend⟩ := inRange_zero (h.axes axis)
  simp only [homePosition, Register.get_ofFn, hconfig]
  split
  · split
    · next hside => exact hend (Binary64.not_lt_of_le hside.2)
    · exact horigin
  · exact horigin

end Positions

structure Inside (config : MachineConfig) (machine : Machine β) : Prop where
  sameConfig : machine.config = config
  position : Admitted config machine.position

theorem inside_of_make {machine : Machine β} {wiring : Wiring} {backend : β} {sink : Option Sink}
    (hmake : make config wiring backend sink = .ok machine) :
    config.Usable ∧ machine.Inside config := by
  obtain ⟨planner, hplanner, rfl⟩ := make_eq_ok hmake
  have husable := Planner.usable_of_make hplanner
  obtain ⟨-, rfl⟩ := Planner.make_eq_ok hplanner
  exact ⟨husable, rfl, admitted_origin husable⟩

section Runs

variable [MotorBackend β] {machine first second : Machine β} {jumps : List (Register Float)}

theorem Inside.moved (h : machine.Inside config) {target : Register Float}
    (hallowed : machine.refusal? target = none) (feedrate : Float) :
    Inside config { machine with planner := (machine.planner.enqueue target feedrate).state } := by
  have hconfig := (machine.planner.config_perform (.enqueue target feedrate)).1
  have hposition := machine.planner.position_perform (.enqueue target feedrate)
  refine ⟨hconfig.trans h.sameConfig, fun hcheck => ?_⟩
  change rangeOffence? config (machine.planner.perform (.enqueue target feedrate)).state.position = _
  rw [hposition, Planner.taken?]
  cases machine.planner.aimed? target feedrate with
  | none => exact h.position hcheck
  | some aimed =>
    rw [← h.sameConfig] at hcheck ⊢
    exact rangeOffence?_of_allowed hallowed hcheck

theorem Deed.inside (hdeed : Deed first jumps second)
    (hjumps : ∀ position ∈ jumps, Admitted config position) (h : first.Inside config) :
    second.Inside config := by
  cases hdeed with
  | note feedrate sink homed => exact ⟨h.sameConfig, h.position⟩
  | switchOn => exact ⟨h.sameConfig, h.position⟩
  | move feedrate hon hallowed => exact h.moved hallowed feedrate
  | halt =>
    have hconfig := (first.planner.config_perform .halt).1
    have hposition : first.planner.halt.state.position = first.planner.position :=
      first.planner.position_perform .halt
    refine ⟨hconfig.trans h.sameConfig, ?_⟩
    change Admitted config first.planner.halt.state.position
    rw [hposition]
    exact h.position
  | wait => exact ⟨h.sameConfig, h.position⟩
  | jump hempty hsteps => exact ⟨h.sameConfig, hjumps _ (List.mem_singleton_self _)⟩

theorem Deeds.inside (hdeeds : Deeds first jumps second)
    (hjumps : ∀ position ∈ jumps, Admitted config position) (h : first.Inside config) :
    second.Inside config := by
  induction hdeeds with
  | refl => exact h
  | step hdeed hrest ih =>
    rw [List.forall_mem_append] at hjumps
    exact ih hjumps.2 (hdeed.inside hjumps.1 h)

/-- The home position passes the check, so that only a position that is set has to. -/
theorem Inside.operate (husable : config.Usable) (h : machine.Inside config)
    (operation : Operation)
    (hset : ∀ position, operation = .setPosition position → Admitted config position) :
    (machine.operate operation).state.Inside config := by
  obtain hdeeds | ⟨-, -, hoff⟩ := machine.operate_deeds operation
  · refine hdeeds.inside (fun position hjump => ?_) h
    cases operation with
    | setPosition place =>
      simp only [Machine.jumps] at hjump
      split at hjump
      · obtain rfl := List.mem_singleton.mp hjump
        exact hset _ rfl
      · contradiction
    | markHomed =>
      simp only [Machine.jumps] at hjump
      split at hjump
      · obtain rfl := List.mem_singleton.mp hjump
        have hconfig : machine.finish.state.config = machine.config :=
          congrArg Standing.config machine.standing_finish
        exact admitted_homePosition husable (hconfig.trans h.sameConfig)
      · contradiction
    | _ => contradiction
  · rw [hoff]
    have hfinished := machine.deeds_finish.inside (List.forall_mem_nil _) h
    exact ⟨hfinished.sameConfig, hfinished.position⟩

theorem Inside.performAll (husable : config.Usable) (h : machine.Inside config)
    (requests : List MoveRequest) : (machine.performAll requests).state.Inside config := by
  refine performAll_preserves (fun machine request hbefore => ?_) h requests
  rw [perform_eq]
  exact hbefore.operate husable _ fun position hset =>
    absurd hset (machine.operationOf_ne_setPosition request position)

end Runs

section Blame

variable {machine : Machine β} {axis : Axis} {place range : Float}

theorem asked?_operationOf {request : MoveRequest} {feedrate : Float} {target : Register Float}
    (h : machine.asked? (machine.operationOf request) = some (feedrate, target)) :
    target = machine.position.override request.axes := by
  unfold operationOf at h
  cases hkind : request.kind with
  | coordinated =>
    rw [hkind] at h
    obtain ⟨speed, -, hpair⟩ := Option.map_eq_some_iff.mp h
    exact (Prod.mk.inj hpair).2.symm
  | rapid =>
    rw [hkind] at h
    simp only [asked?] at h
    split at h
    · contradiction
    · exact (Prod.mk.inj (Option.some.inj h)).2.symm
  | home =>
    rw [hkind] at h
    contradiction

variable [MotorBackend β]

theorem refused_of_outOfRange {operation : Operation}
    (h : (machine.operate operation).outcome = .error (.outOfRange axis place range)) :
    ∃ feedrate target, machine.asked? operation = some (feedrate, target) ∧
      machine.refusal? target = some (.outOfRange axis place range) := by
  cases hmove : operation.isMove with
  | false =>
    have hpassed := machine.passesOn_of_rest hmove _ h
    contradiction
  | true =>
    cases hasked : machine.asked? operation with
    | none =>
      rw [operate_of_unasked hmove hasked] at h
      cases Except.error.inj h
    | some move =>
      obtain hpassed | hrefused := error_of_asked hasked _ h
      · contradiction
      · exact ⟨move.1, move.2, rfl, hrefused⟩

theorem Inside.blames (h : machine.Inside config) {request : MoveRequest}
    (herror : (machine.perform request).outcome = .error (.outOfRange axis place range)) :
    (axis, place) ∈ request.axes := by
  rw [perform_eq] at herror
  obtain ⟨feedrate, target, hasked, hrefused⟩ := refused_of_outOfRange herror
  obtain hunhomed | ⟨hcheck, hoffence⟩ := refusal?_eq_some hrefused
  · contradiction
  · rw [h.sameConfig] at hcheck hoffence
    obtain ⟨culprit, hout, hsame⟩ := rangeOffence?_eq_some hoffence
    obtain ⟨rfl, rfl, rfl⟩ := MachineError.outOfRange.inj hsame
    rw [asked?_operationOf hasked] at hout ⊢
    obtain hkept | hwritten := machine.position.override_cases request.axes axis
    · -- The position itself would fail the check.
      have hin := rangeOffence?_eq_none.mp (h.position hcheck) axis
      rw [hkept, hin] at hout
      contradiction
    · exact hwritten

end Blame

/-- A range error tells of a target that the request itself gives. -/
theorem range_error_blames_request [MotorBackend β] {wiring : Wiring} {backend : β}
    {sink : Option Sink} {machine : Machine β}
    (hmake : make config wiring backend sink = .ok machine) (requests : List MoveRequest) :
    (∀ request axis place range,
      ((machine.performAll requests).state.perform request).outcome =
          .error (.outOfRange axis place range) →
        (axis, place) ∈ request.axes) ∧
    (∀ axis place range,
      (machine.session requests).outcome = .error (.outOfRange axis place range) →
        ∃ done request rest, requests = done ++ request :: rest ∧
          (machine.performAll done).Succeeds ∧
          ((machine.performAll done).state.perform request).outcome =
            .error (.outOfRange axis place range) ∧
          (axis, place) ∈ request.axes) ∧
    (config.rangeCheck = true →
      rangeOffence? config (machine.performAll requests).state.position = none ∧
      rangeOffence? config (machine.session requests).state.position = none) := by
  obtain ⟨husable, hinside⟩ := inside_of_make hmake
  have hperformed := hinside.performAll husable
  have hended : (machine.session requests).state.Inside config :=
    Attempt.state_andThen (hperformed requests) fun _ =>
      (hperformed requests).operate husable (.enableMotors false) (by simp)
  refine ⟨fun request axis place range => (hperformed requests).blames, ?_, fun hcheck =>
    ⟨(hperformed requests).position hcheck, hended.position hcheck⟩⟩
  intro axis place range herror
  by_cases hdone : (machine.performAll requests).Succeeds
  · rw [session, Attempt.andThen_of_succeeds hdone] at herror
    have hpassed := passesOn_enableMotors _ _ _ herror
    contradiction
  · rw [session, Attempt.andThen_of_not_succeeds hdone] at herror
    obtain ⟨done, request, rest, hsplit, hbefore, hfailed⟩ := error_of_performAll herror
    exact ⟨done, request, rest, hsplit, hbefore, hfailed, (hperformed done).blames hfailed⟩

def strayingRequests : List MoveRequest :=
  [{ kind := .home, line := 1 }, { axes := [(.x, 5.0)], feedrate := some 50.0, line := 2 },
    { kind := .rapid, axes := [(.x, 30.0)], line := 3 }]

theorem range_error_blames_request_sample :
    (rangedSample.session strayingRequests).outcome = .error (.outOfRange .x 30.0 20.0) ∧
    (∃ done request rest, strayingRequests = done ++ request :: rest ∧
      (rangedSample.performAll done).Succeeds ∧ (.x, 30.0) ∈ request.axes) ∧
    rangeOffence? rangedSample.planner.config
      (rangedSample.session strayingRequests).state.position = none := by
  obtain ⟨-, hsession, hposition⟩ :=
    range_error_blames_request make_rangedSample strayingRequests
  have herror : (rangedSample.session strayingRequests).outcome =
      .error (.outOfRange .x 30.0 20.0) := by decide +kernel
  obtain ⟨done, request, rest, hsplit, hdone, -, hmentioned⟩ := hsession _ _ _ herror
  exact ⟨herror, ⟨done, request, rest, hsplit, hdone, hmentioned⟩, (hposition rfl).2⟩

end Machine
end StepMotion
