import StepMotion.Proofs.Machine.Errors
import StepMotion.Proofs.Machine.Power
import StepMotion.Proofs.Planner.Range

/-! The range of a machine. A machine that checks its targets is inside its range after every
segment that it emits, on each axis that moves and has a range, as long as the backend refuses
none. -/
namespace StepMotion.Machine

open Binary64 MotorBackend MotorCall Segment
open Planner (Tracked Unrefused)

variable {β : Type}

section Track

variable [MotorBackend β]

def emitted (machine : Machine β) (operation : Operation) : List Segment :=
  (machine.traced.operate operation).state.planner.backend.accepted

/-- Where an operation that begins at a place leads: along its segments, or to the position that it
makes the machine jump to. -/
def landing (axis : Axis) (machine : Machine β) (place : Int) (operation : Operation) : Int :=
  match machine.jumps operation with
  | [] => place + total (machine.emitted operation) axis
  | position :: _ => (stepsOf? machine.config machine.wiring position).elim place (· axis)

/-- The places on an axis after each of the segments that a run emits. -/
def track (axis : Axis) (machine : Machine β) (place : Int) : List Operation → List Int
  | [] => []
  | operation :: rest =>
    places axis place (machine.emitted operation) ++
      track axis (machine.operate operation).state (landing axis machine place operation) rest

end Track

section Calls

theorem map_after_traced (machine : Machine (Traced β)) :
    (machine.map Traced.inner).traced.map (Traced.after machine.calls) = machine := by
  obtain ⟨⟨config, wiring, lookahead, backend, window, frontEntry, position, steps, state⟩, sink,
    feedrate, homed, motorsOn⟩ := machine
  simp only [map, traced, Planner.map, calls, Traced.after_calls]

variable [MotorBackend β]

theorem calls_run (machine : Machine (Traced β)) (operations : List Operation) :
    (machine.run operations).calls =
      machine.calls ++ ((machine.map Traced.inner).traced.run operations).calls := by
  conv_lhs => rw [← map_after_traced machine, run_map (Traced.after_morphism _)]
  rfl

theorem map_inner_operate (machine : Machine β) (operation : Operation) :
    (machine.traced.operate operation).state.map Traced.inner =
      (machine.operate operation).state := by
  have hmap := operate_map Traced.inner_morphism machine.traced operation
  exact (congrArg Attempt.state hmap).symm

theorem calls_run_cons (machine : Machine β) (operation : Operation) (rest : List Operation) :
    (machine.traced.run (operation :: rest)).calls =
      (machine.traced.operate operation).state.calls ++
        ((machine.operate operation).state.traced.run rest).calls := by
  rw [run, calls_run, map_inner_operate]

theorem jumps_traced (machine : Machine β) (operation : Operation) :
    machine.traced.jumps operation = machine.jumps operation :=
  (jumps_map Traced.inner_morphism machine.traced operation).symm

end Calls

section Targets

variable {config : MachineConfig} {wiring : Wiring} {axis : Axis} {machine : Machine β}

theorem target_mem_of_allowed (h : Ranged config wiring axis) (hconfig : machine.config = config)
    {target : Register Float} (hallowed : machine.refusal? target = none) :
    0.0 ≤ target axis ∧ target axis ≤ (config.axes axis).range := by
  have hin := rangeOffence?_eq_none.mp
    (rangeOffence?_of_allowed hallowed (by rw [hconfig]; exact h.rangeCheck)) axis
  rw [hconfig] at hin
  have hconfigured : (config.axes axis).isConfigured = true := h.configured
  have hrange : ¬ (config.axes axis).range < 0.0 := Binary64.not_lt_of_le h.range
  simpa [inRange, hconfigured, hrange] using hin

theorem homePosition_mem (h : Ranged config wiring axis) (hconfig : machine.config = config) :
    0.0 ≤ machine.homePosition axis ∧ machine.homePosition axis ≤ (config.axes axis).range := by
  have hzero : (0.0 : Float) ≤ 0.0 := le_self rfl
  simp only [homePosition, Register.get_ofFn, hconfig]
  split
  · split
    · exact ⟨h.range, le_self (le_iff.mp h.range).2.1⟩
    · exact ⟨hzero, h.range⟩
  · exact ⟨hzero, h.range⟩

end Targets

section Deeds

variable [MotorBackend β] {config : MachineConfig} {wiring : Wiring} {axis : Axis} {start : Int}
  {first second : Machine (Traced β)} {jumps : List (Register Float)}

theorem Deed.tracked (h : Ranged config wiring axis) (hdeed : Deed first [] second)
    (hunrefused : Unrefused second.calls)
    (htracked : Tracked config wiring axis (config.axes axis).farthest start first.planner) :
    Tracked config wiring axis (config.axes axis).farthest start second.planner := by
  have hexact : (config.axes axis).farthest ≤ 2 ^ 53 := min_le_right _ _
  cases hdeed with
  | note feedrate sink homed => exact htracked
  | switchOn => exact htracked.lend (Traced.accepted_enable true _)
  | move feedrate hon hallowed =>
    obtain ⟨hlow, hhigh⟩ := target_mem_of_allowed h htracked.inRange.sameConfig hallowed
    exact htracked.enqueue hexact h.usable
      (fun steps hsteps => h.mem_of_stepsOf? hsteps hlow hhigh) hunrefused
  | halt => exact htracked.halt hexact hunrefused
  | wait => exact htracked.lend (Traced.accepted_waitEmpty _)

theorem Deeds.tracked (h : Ranged config wiring axis) (hdeeds : Deeds first jumps second)
    (hstays : jumps = []) (hunrefused : Unrefused second.calls)
    (htracked : Tracked config wiring axis (config.axes axis).farthest start first.planner) :
    Tracked config wiring axis (config.axes axis).farthest start second.planner := by
  induction hdeeds with
  | refl => exact htracked
  | step hdeed hrest ih =>
    obtain ⟨rfl, hlater⟩ := List.append_eq_nil_iff.mp hstays
    obtain ⟨new, hnew, -⟩ := hrest.onward (hdeed.lookahead htracked.inRange.lookahead)
    have hearlier : Unrefused _ := hunrefused.mono (hnew ▸ List.subset_append_left _ _)
    exact ih hlater hunrefused (hdeed.tracked h hearlier htracked)

end Deeds

section Operations

variable [MotorBackend β] {config : MachineConfig} {wiring : Wiring} {axis : Axis} {place : Int}
  {machine : Machine β} {operation : Operation}

theorem tracked_operate (h : Ranged config wiring axis)
    (hplace : machine.planner.InRange config wiring axis (config.axes axis).farthest place)
    (hstays : machine.jumps operation = [])
    (hunrefused : Unrefused (machine.traced.operate operation).state.calls) :
    Tracked config wiring axis (config.axes axis).farthest place
      (machine.traced.operate operation).state.planner := by
  have htracked := hplace.traced
  rcases machine.traced.operate_deeds operation with hdeeds | ⟨-, -, hoff⟩
  · rw [jumps_traced] at hdeeds
    exact hdeeds.tracked h hstays hunrefused htracked
  · rw [hoff] at hunrefused ⊢
    have hbefore : Unrefused machine.traced.finish.state.calls :=
      hunrefused.mono (List.subset_append_left _ _)
    have hfinished := machine.traced.deeds_finish.tracked h rfl hbefore htracked
    exact hfinished.lend (Traced.accepted_enable false _)

theorem tracked_markHomed (h : Ranged config wiring axis)
    (hplace : machine.planner.InRange config wiring axis (config.axes axis).farthest place)
    (hdone : machine.traced.markHomed.Succeeds)
    (hunrefused : Unrefused machine.traced.markHomed.state.calls) :
    (∀ passed ∈ places axis place (machine.emitted .markHomed),
      passed ∈ Set.Icc 0 (config.axes axis).farthest) ∧
    ∃ steps, stepsOf? config wiring machine.traced.finish.state.homePosition = some steps ∧
      machine.traced.markHomed.state.planner.InRange config wiring axis
        (config.axes axis).farthest (steps axis) := by
  obtain ⟨hhalt, steps, hsteps, hplanner⟩ := markHomed_of_succeeds hdone
  have hfinish := machine.traced.deeds_finish
  rw [calls, hplanner] at hunrefused
  rw [emitted, operate, hplanner]
  generalize machine.traced.finish.state = finished at hhalt hsteps hfinish hunrefused ⊢
  have hhalted := hfinish.trans (.single (.halt finished))
  obtain ⟨hrange, hpassed⟩ := hhalted.tracked h rfl hunrefused hplace.traced
  obtain ⟨out, hchanges, hempty⟩ := finished.planner.halt_changes
  have hconfig : finished.config = config := hchanges.lookahead.1.symm.trans hrange.sameConfig
  have hwiring : finished.wiring = wiring := hchanges.wiring.symm.trans hrange.sameWiring
  rw [hconfig, hwiring] at hsteps
  obtain ⟨hlow, hhigh⟩ := homePosition_mem h hconfig
  exact ⟨hpassed, steps, hsteps,
    hrange.aim (hempty hhalt) hsteps (h.mem_of_stepsOf? hsteps hlow hhigh)⟩

/-- An operation passes no place outside of the range, and leads to one inside. -/
theorem inRange_operate (h : Ranged config wiring axis)
    (hplace : machine.planner.InRange config wiring axis (config.axes axis).farthest place)
    (hset : ∀ position, operation ≠ .setPosition position)
    (hunrefused : Unrefused (machine.traced.operate operation).state.calls) :
    (∀ passed ∈ places axis place (machine.emitted operation),
      passed ∈ Set.Icc 0 (config.axes axis).farthest) ∧
    (machine.operate operation).state.planner.InRange config wiring axis
      (config.axes axis).farthest (landing axis machine place operation) := by
  rw [← map_inner_operate]
  by_cases hstays : machine.jumps operation = []
  · obtain ⟨hrange, hpassed⟩ := tracked_operate h hplace hstays hunrefused
    rw [landing, hstays]
    exact ⟨hpassed, hrange.map Traced.inner⟩
  · have hconfig : machine.config = config := hplace.sameConfig
    have hwiring : machine.wiring = wiring := hplace.sameWiring
    rw [landing, hconfig, hwiring]
    rw [← jumps_traced] at hstays ⊢
    cases operation with
    | markHomed =>
      have hdone : machine.traced.markHomed.Succeeds := by
        by_contra hfailed
        exact hstays (if_neg hfailed)
      obtain ⟨hpassed, steps, hsteps, hrange⟩ := tracked_markHomed h hplace hdone hunrefused
      rw [jumps, if_pos hdone]
      dsimp only
      rw [hsteps]
      exact ⟨hpassed, hrange.map Traced.inner⟩
    | setPosition position => exact absurd rfl (hset position)
    | _ => exact absurd rfl hstays

theorem inRange_track (h : Ranged config wiring axis) {operations : List Operation}
    (hplace : machine.planner.InRange config wiring axis (config.axes axis).farthest place)
    (hset : ∀ position, .setPosition position ∉ operations)
    (hunrefused : Unrefused (machine.traced.run operations).calls) :
    ∀ passed ∈ machine.track axis place operations,
      passed ∈ Set.Icc 0 (config.axes axis).farthest := by
  induction operations generalizing machine place with
  | nil => exact List.forall_mem_nil _
  | cons operation rest ih =>
    rw [calls_run_cons] at hunrefused
    simp only [List.mem_cons, not_or] at hset
    obtain ⟨hpassed, hnext⟩ := inRange_operate h hplace
      (fun position hsame => (hset position).1 hsame.symm)
      (hunrefused.mono (List.subset_append_left _ _))
    rw [track, List.forall_mem_append]
    exact ⟨hpassed, ih hnext (fun position => (hset position).2)
      (hunrefused.mono (List.subset_append_right _ _))⟩

end Operations

/-- With the range check on, no segment leaves the range of an axis that has one, as long as no
position is set and the backend refuses nothing. -/
theorem stays_in_range [MotorBackend β] {config : MachineConfig} {wiring : Wiring} {backend : β}
    {sink : Option Sink} {machine : Machine β} {axis : Axis}
    (hmake : make config wiring backend sink = .ok machine) (hcheck : config.rangeCheck = true)
    (hactive : isActive config wiring axis = true) (hrange : 0.0 ≤ (config.axes axis).range)
    {operations : List Operation} (hset : ∀ position, .setPosition position ∉ operations)
    (hunrefused : ∀ segment, .enqueue segment false ∉ (machine.traced.run operations).calls) :
    ∀ place ∈ machine.track axis 0 operations, 0 ≤ place ∧ place ≤ (config.axes axis).lastStep := by
  obtain ⟨planner, hplanner, rfl⟩ := make_eq_ok hmake
  have hranged : Ranged config wiring axis :=
    ⟨Planner.usable_of_make hplanner, hcheck, hactive, hrange⟩
  have hstart : planner.InRange config wiring axis (config.axes axis).farthest 0 :=
    Planner.inRange_of_make hplanner hranged.farthest_nonneg
  intro place hplace
  obtain ⟨hlow, hhigh⟩ := inRange_track hranged hstart hset hunrefused place hplace
  exact ⟨hlow, hhigh.trans (min_le_left _ _)⟩

def rangedSample : Machine Simulator where
  planner :=
    { config := { axes := (Register.fill {}).set .x { Planner.sampleLimits with range := 20.0 } }
      wiring := { Planner.sample.wiring with
        switches := (Vector.replicate _ none).set 0 (some ⟨.x, .max, true, .high⟩) }
      lookahead := Planner.defaultLookahead
      backend := Simulator.make {} }

theorem make_rangedSample : make rangedSample.planner.config rangedSample.planner.wiring
    rangedSample.planner.backend none = .ok rangedSample :=
  make_of_valid (by decide +kernel) _ _ _

def rangedOperations : List Operation :=
  [.coordinatedMove (some 50.0) ((Register.fill 0.0).set .x 10.0), .markHomed,
    .rapidMove ((Register.fill 0.0).set .x 5.0), .finish,
    .coordinatedMove none ((Register.fill 0.0).set .x 30.0), .enableMotors false]

theorem stays_in_range_sample :
    rangedSample.track .x 0 rangedOperations = [125, 875, 1000, 1250, 500] ∧
    (rangedSample.planner.config.axes .x).lastStep = 2000 ∧
    ∀ place ∈ rangedSample.track .x 0 rangedOperations,
      0 ≤ place ∧ place ≤ (rangedSample.planner.config.axes .x).lastStep := by
  have hunrefused : Unrefused (rangedSample.traced.run rangedOperations).calls := by
    decide +kernel
  exact ⟨by decide +kernel, by decide +kernel,
    stays_in_range make_rangedSample rfl (by decide +kernel) (by decide +kernel)
      (by simp [rangedOperations]) hunrefused⟩

end StepMotion.Machine
