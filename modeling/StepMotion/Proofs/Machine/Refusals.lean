import StepMotion.Proofs.Machine.Range
import StepMotion.Proofs.Machine.RangeErrors

/-! What a refused move leaves behind: a feedrate to remember, and nothing else. A move is refused
for want of a feedrate, then for want of homing, then for the first axis, in register order, whose
target is out of its range; and it is refused before anything is done. -/
namespace StepMotion

theorem Axis.find?_all_eq_some {p : Axis → Bool} {axis : Axis} :
    all.find? p = some axis ↔
      p axis = true ∧ ∀ earlier : Axis, earlier.index < axis.index → p earlier = false := by
  have hindex : ∀ (i : Nat) (hi : i < all.length), all[i].index = i := by decide
  have hget : ∀ axis : Axis, ∃ hi : axis.index < all.length, all[axis.index] = axis := by
    intro axis
    cases axis <;> decide
  rw [List.find?_eq_some_iff_getElem]
  constructor
  · rintro ⟨haxis, i, hi, rfl, hbefore⟩
    refine ⟨haxis, fun earlier hlt => ?_⟩
    obtain ⟨hearlier, hsame⟩ := hget earlier
    rw [hindex i hi] at hlt
    simpa [hsame] using hbefore earlier.index hlt
  · rintro ⟨haxis, hbefore⟩
    obtain ⟨hi, hsame⟩ := hget axis
    refine ⟨haxis, axis.index, hi, hsame, fun j hj => ?_⟩
    have hlater : all[j].index < axis.index := by rwa [hindex j (hj.trans hi)]
    rw [hbefore _ hlater]
    rfl

namespace Machine

section Ranges

structure Strays (limits : AxisLimits) (target : Float) : Prop where
  configured : limits.isConfigured = true
  bounded : 0.0 ≤ limits.range
  outside : ¬ (0.0 ≤ target ∧ target ≤ limits.range)

/-- The first axis, in register order, on which a target strays. -/
structure FirstStray (config : MachineConfig) (target : Register Float) (axis : Axis) : Prop where
  strays : Strays (config.axes axis) (target axis)
  first : ∀ earlier : Axis, earlier.index < axis.index →
    ¬ Strays (config.axes earlier) (target earlier)

theorem inRange_eq_false {limits : AxisLimits} (h : limits.isConfigured = true → limits.Usable)
    {target : Float} : inRange limits target = false ↔ Strays limits target := by
  have hbounded : limits.isConfigured = true → (¬ limits.range < 0.0 ↔ 0.0 ≤ limits.range) :=
    fun hconfigured => ⟨Binary64.le_of_not_lt rfl (h hconfigured).range_isNaN,
      Binary64.not_lt_of_le⟩
  unfold inRange
  simp only [Bool.or_eq_false_iff, Bool.not_eq_false', decide_eq_false_iff_not,
    ← Bool.decide_and]
  constructor
  · rintro ⟨⟨hconfigured, hrange⟩, houtside⟩
    exact ⟨hconfigured, (hbounded hconfigured).mp hrange, houtside⟩
  · rintro ⟨hconfigured, hrange, houtside⟩
    exact ⟨⟨hconfigured, (hbounded hconfigured).mpr hrange⟩, houtside⟩

variable {config : MachineConfig} {target : Register Float} {axis : Axis} {place range : Float}

theorem rangeOffence?_eq_some_iff (husable : config.Usable) :
    rangeOffence? config target = some (.outOfRange axis place range) ↔
      FirstStray config target axis ∧ place = target axis ∧ range = (config.axes axis).range := by
  have hstrays : ∀ axis, (!inRange (config.axes axis) (target axis)) = true ↔
      Strays (config.axes axis) (target axis) := fun axis => by
    rw [Bool.not_eq_true']
    exact inRange_eq_false (husable.axes axis)
  have hfirst : (Axis.all.find? fun axis => !inRange (config.axes axis) (target axis)) =
      some axis ↔ FirstStray config target axis := by
    rw [Axis.find?_all_eq_some, hstrays]
    constructor
    · rintro ⟨haxis, hbefore⟩
      exact ⟨haxis, fun earlier hlt hearlier => by
        rw [← hstrays, hbefore earlier hlt] at hearlier
        contradiction⟩
    · rintro ⟨haxis, hbefore⟩
      exact ⟨haxis, fun earlier hlt => Bool.eq_false_iff.mpr fun hearlier =>
        hbefore earlier hlt ((hstrays earlier).mp hearlier)⟩
  rw [rangeOffence?, Option.map_eq_some_iff, ← hfirst]
  constructor
  · rintro ⟨culprit, hfind, hsame⟩
    obtain ⟨rfl, rfl, rfl⟩ := MachineError.outOfRange.inj hsame
    exact ⟨hfind, rfl, rfl⟩
  · rintro ⟨hfind, rfl, rfl⟩
    exact ⟨axis, hfind, rfl⟩

end Ranges

variable {β : Type} {machine : Machine β} {target : Register Float}

theorem refusal?_eq_notHomed :
    machine.refusal? target = some .notHomed ↔
      machine.config.requireHoming = true ∧ machine.homed = false := by
  unfold refusal?
  split
  · next hlocked => simpa using hlocked
  · next hopen =>
    have hnever : ¬ (machine.config.requireHoming = true ∧ machine.homed = false) := by
      simpa using hopen
    simp only [hnever, iff_false]
    split
    · intro hoffence
      obtain ⟨axis, -, hsame⟩ := rangeOffence?_eq_some hoffence
      cases hsame
    · simp

theorem refusal?_eq_outOfRange (husable : machine.config.Usable) {axis : Axis}
    {place range : Float} :
    machine.refusal? target = some (.outOfRange axis place range) ↔
      (machine.config.requireHoming = true → machine.homed = true) ∧
        machine.config.rangeCheck = true ∧ FirstStray machine.config target axis ∧
          place = target axis ∧ range = (machine.config.axes axis).range := by
  rw [← rangeOffence?_eq_some_iff husable]
  unfold refusal?
  split
  · next hlocked =>
    have hshut : ¬ (machine.config.requireHoming = true → machine.homed = true) := by
      simpa using hlocked
    simp [hshut]
  · next hopen =>
    have hfree : machine.config.requireHoming = true → machine.homed = true := by
      simpa using hopen
    rw [and_iff_right hfree]
    cases machine.config.rangeCheck <;> simp

variable [MotorBackend β] {operation : Operation} {error : MachineError}

/-- A move is refused for want of a feedrate, or by a policy, and then nothing has been done. -/
theorem refused_iff (hmove : operation.isMove = true) (herror : error.passedOn = false) :
    (machine.operate operation).outcome = .error error ↔
      (machine.asked? operation = none ∧ error = .noFeedrate) ∨
        ∃ feedrate target, machine.asked? operation = some (feedrate, target) ∧
          machine.refusal? target = some error := by
  cases hasked : machine.asked? operation with
  | none =>
    rw [operate_of_unasked hmove hasked]
    simp [Attempt.failed, eq_comm]
  | some move =>
    obtain ⟨feedrate, target⟩ := move
    constructor
    · intro houtcome
      obtain hpassed | hrefused := error_of_asked hasked _ houtcome
      · rw [herror] at hpassed
        contradiction
      · exact .inr ⟨feedrate, target, rfl, hrefused⟩
    · rintro (⟨hnone, -⟩ | ⟨speed, place, hsame, hrefused⟩)
      · contradiction
      · obtain ⟨rfl, rfl⟩ := Prod.mk.inj (Option.some.inj hsame)
        rw [← machine.refusal?_told operation] at hrefused
        rw [operate_of_asked hasked, moveAt_of_refused hrefused]
        rfl

theorem state_of_refused (hmove : operation.isMove = true) (herror : error.passedOn = false)
    (h : (machine.operate operation).outcome = .error error) :
    (machine.operate operation).state = machine.told operation := by
  obtain ⟨hunasked, -⟩ | ⟨feedrate, target, hasked, hrefused⟩ := (refused_iff hmove herror).mp h
  · rw [operate_of_unasked hmove hunasked]
    rfl
  · rw [← machine.refusal?_told operation] at hrefused
    rw [operate_of_asked hasked, moveAt_of_refused hrefused]
    rfl

section Causes

variable (hmove : operation.isMove = true)

include hmove

theorem outcome_noFeedrate_iff :
    (machine.operate operation).outcome = .error .noFeedrate ↔ machine.asked? operation = none := by
  rw [refused_iff hmove rfl]
  constructor
  · rintro (⟨hunasked, -⟩ | ⟨feedrate, target, -, hrefused⟩)
    · exact hunasked
    · obtain hhoming | ⟨-, hoffence⟩ := refusal?_eq_some hrefused
      · contradiction
      · obtain ⟨axis, -, hsame⟩ := rangeOffence?_eq_some hoffence
        cases hsame
  · exact fun hunasked => .inl ⟨hunasked, rfl⟩

theorem outcome_notHomed_iff :
    (machine.operate operation).outcome = .error .notHomed ↔
      (machine.asked? operation).isSome = true ∧
        machine.config.requireHoming = true ∧ machine.homed = false := by
  rw [refused_iff hmove rfl, Option.isSome_iff_exists]
  constructor
  · rintro (⟨-, hsame⟩ | ⟨feedrate, target, hasked, hrefused⟩)
    · contradiction
    · exact ⟨⟨_, hasked⟩, refusal?_eq_notHomed.mp hrefused⟩
  · rintro ⟨⟨⟨feedrate, target⟩, hasked⟩, hlocked⟩
    exact .inr ⟨feedrate, target, hasked, refusal?_eq_notHomed.mpr hlocked⟩

theorem outcome_outOfRange_iff (husable : machine.config.Usable) {axis : Axis}
    {place range : Float} :
    (machine.operate operation).outcome = .error (.outOfRange axis place range) ↔
      ∃ feedrate target, machine.asked? operation = some (feedrate, target) ∧
        (machine.config.requireHoming = true → machine.homed = true) ∧
          machine.config.rangeCheck = true ∧ FirstStray machine.config target axis ∧
            place = target axis ∧ range = (machine.config.axes axis).range := by
  rw [refused_iff hmove rfl]
  constructor
  · rintro (⟨-, hsame⟩ | ⟨feedrate, target, hasked, hrefused⟩)
    · contradiction
    · exact ⟨feedrate, target, hasked, (refusal?_eq_outOfRange husable).mp hrefused⟩
  · rintro ⟨feedrate, target, hasked, hstray⟩
    exact .inr ⟨feedrate, target, hasked, (refusal?_eq_outOfRange husable).mpr hstray⟩

end Causes

/-- A move that is refused leaves the machine as it was, but for the feedrate that was given with it.
It is refused for want of a feedrate, else for want of homing, else for the first axis, in register
order, on which its target is out of range. -/
theorem refused_moves_leave_no_trace {config : MachineConfig} {wiring : Wiring} {backend : β}
    {sink : Option Sink} (hmake : make config wiring backend sink = .ok machine)
    (operations : List Operation) :
    let reached := machine.run operations
    (∀ given target error, (reached.coordinatedMove given target).outcome = .error error →
      error.passedOn = false →
        (reached.coordinatedMove given target).state =
          { reached with feedrate := given <|> reached.feedrate }) ∧
    (∀ target error, (reached.rapidMove target).outcome = .error error →
      error.passedOn = false → (reached.rapidMove target).state = reached) ∧
    ∀ operation, operation.isMove = true →
      ((reached.operate operation).outcome = .error .noFeedrate ↔
        reached.asked? operation = none) ∧
      ((reached.operate operation).outcome = .error .notHomed ↔
        (reached.asked? operation).isSome = true ∧
          config.requireHoming = true ∧ reached.homed = false) ∧
      ∀ axis place range,
        (reached.operate operation).outcome = .error (.outOfRange axis place range) ↔
          ∃ feedrate target, reached.asked? operation = some (feedrate, target) ∧
            (config.requireHoming = true → reached.homed = true) ∧ config.rangeCheck = true ∧
            FirstStray config target axis ∧ place = target axis ∧
            range = (config.axes axis).range := by
  have husable : config.Usable := (inside_of_make hmake).1
  have hconfig : (machine.run operations).config = config :=
    (machine.config_run operations).trans (inside_of_make hmake).2.sameConfig
  dsimp only
  generalize machine.run operations = reached at hconfig ⊢
  subst hconfig
  refine ⟨fun given target error houtcome herror => ?_, fun target error houtcome herror => ?_,
    fun operation hmove => ⟨outcome_noFeedrate_iff hmove, outcome_notHomed_iff hmove,
      fun axis place range => outcome_outOfRange_iff hmove husable⟩⟩
  · have hmove : (Operation.coordinatedMove given target).isMove = true := rfl
    exact state_of_refused hmove herror houtcome
  · have hmove : (Operation.rapidMove target).isMove = true := rfl
    exact state_of_refused hmove herror houtcome

def strayTarget : Register Float :=
  (Register.fill 0.0).set .x 30.0

theorem refused_moves_leave_no_trace_sample :
    let reached := rangedSample.run rangedOperations
    (reached.coordinatedMove (some 25.0) strayTarget).outcome =
      .error (.outOfRange .x 30.0 20.0) ∧
    (reached.coordinatedMove (some 25.0) strayTarget).state =
      { reached with feedrate := some 25.0 } ∧
    (reached.rapidMove strayTarget).state = reached ∧
    FirstStray rangedSample.config strayTarget .x := by
  obtain ⟨hcoordinated, hrapid, hcauses⟩ :=
    refused_moves_leave_no_trace make_rangedSample rangedOperations
  have houtcome : ((rangedSample.run rangedOperations).coordinatedMove (some 25.0)
      strayTarget).outcome = .error (.outOfRange .x 30.0 20.0) := by decide +kernel
  have hrapidly : ((rangedSample.run rangedOperations).rapidMove strayTarget).outcome =
      .error (.outOfRange .x 30.0 20.0) := by decide +kernel
  obtain ⟨feedrate, target, hasked, -, -, hstray, -⟩ :=
    ((hcauses (.coordinatedMove (some 25.0) strayTarget) rfl).2.2 .x 30.0 20.0).mp houtcome
  obtain ⟨-, rfl⟩ := Prod.mk.inj (Option.some.inj hasked)
  exact ⟨houtcome, hcoordinated _ _ _ houtcome rfl, hrapid _ _ hrapidly rfl, hstray⟩

end Machine
end StepMotion
