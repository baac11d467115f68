import StepMotion.Proofs.Planner.Soundness
import StepMotion.Proofs.Planner.StepLedger

/-! The position that a planner reports, counted in steps. It is ahead of the moves by the steps of
requests that were too short for a move: at most one on each axis, however many of them there were,
and the next move makes it. -/
namespace StepMotion

open Binary64

namespace Planner

namespace Heading

def reported (heading : Heading) : Steps :=
  (stepsOf? heading.config heading.wiring heading.position).getD .zero

/-- The steps that were asked for and are in no move. -/
def owed (heading : Heading) : Steps := heading.reported.sub heading.stepPosition

/-- The reported position has steps, and the moves are at most one step behind. -/
structure KeepsUp (heading : Heading) : Prop where
  steps : stepsOf? heading.config heading.wiring heading.position = some heading.reported
  owed_le : ∀ axis, (heading.owed axis).natAbs ≤ 1

theorem reported_eq {heading : Heading} {steps : Steps}
    (h : stepsOf? heading.config heading.wiring heading.position = some steps) :
    heading.reported = steps := by
  rw [reported, h, Option.getD_some]

theorem keepsUp_of_steps {heading : Heading} {steps : Steps}
    (h : stepsOf? heading.config heading.wiring heading.position = some steps)
    (hnear : ∀ axis, (steps axis - heading.stepPosition axis).natAbs ≤ 1) : heading.KeepsUp := by
  have hreported := reported_eq h
  refine ⟨by rw [hreported, h], fun axis => ?_⟩
  rw [owed, hreported, Steps.get_sub]
  exact hnear axis

end Heading

variable {β : Type} [MotorBackend β]

section KeepsUp

variable {planner : Planner β}

theorem keepsUp_perform (h : planner.heading.KeepsUp) (call : Call) :
    (planner.perform call).state.heading.KeepsUp := by
  rcases planner.heading_perform call with
    hsame | ⟨target, aimed, hsteps, hturned | ⟨hnear, hshort⟩⟩
  · rwa [hsame]
  · rw [hturned]
    exact Heading.keepsUp_of_steps hsteps fun axis => by simp
  · rw [hshort]
    exact Heading.keepsUp_of_steps hsteps hnear

theorem keepsUp_run (h : planner.heading.KeepsUp) (calls : List Call) :
    (planner.run calls).heading.KeepsUp := by
  induction calls generalizing planner with
  | nil => exact h
  | cons call rest ih => exact ih (keepsUp_perform h call)

end KeepsUp

section Targets

/-- The position that a call makes the planner report, unless it is not taken. A request is taken
also if the backend then fails. -/
def taken? (planner : Planner β) : Call → Option (Register Float)
  | .enqueue target feedrate => (planner.aimed? target feedrate).map fun _ => target
  | .halt => none
  | .setPosition position =>
    if (planner.setPosition position).Succeeds then some position else none

/-- The positions that a sequence of calls makes the planner report. -/
def targets (planner : Planner β) : List Call → List (Register Float)
  | [] => []
  | call :: rest => (planner.taken? call).toList ++ targets (planner.perform call).state rest

/-- The steps that a sequence of calls asks for: how far each moves the reported position. -/
def asked (planner : Planner β) : List Call → Steps
  | [] => .zero
  | call :: rest =>
    ((planner.perform call).state.heading.reported.sub planner.heading.reported).add
      (asked (planner.perform call).state rest)

theorem position_perform (planner : Planner β) (call : Call) :
    (planner.perform call).state.position = (planner.taken? call).getD planner.position := by
  cases call with
  | enqueue target feedrate =>
    simp only [perform, taken?, Attempt.within, id]
    cases haimed : planner.aimed? target feedrate with
    | none =>
      rw [enqueue_of_unaimed haimed]
      rfl
    | some aimed =>
      cases hrequest : planner.requested? target feedrate with
      | none =>
        rw [enqueue_of_short haimed hrequest]
        rfl
      | some move => exact congrArg Heading.position (heading_enqueue_of_requested hrequest)
  | halt => exact congrArg Heading.position (heading_halt planner)
  | setPosition position =>
    simp only [perform, taken?]
    cases hsteps : stepsOf? planner.config planner.wiring position with
    | none =>
      rw [setPosition_of_out_of_range hsteps, if_neg (Attempt.not_succeeds_failed _ _)]
      rfl
    | some steps =>
      by_cases hdone : planner.halt.Succeeds
      · rw [setPosition_of_halted hsteps hdone, if_pos (Attempt.succeeds_done _)]
        rfl
      · have hfailed : ¬ (planner.halt.within PlannerError.motor id).Succeeds := by
          rwa [Attempt.succeeds_within]
        rw [setPosition_of_refused hsteps hdone, if_neg hfailed]
        exact congrArg Heading.position (heading_halt planner)

theorem position_run (planner : Planner β) (calls : List Call) :
    (planner.run calls).position = (planner.targets calls).getLast?.getD planner.position := by
  induction calls generalizing planner with
  | nil => rfl
  | cons call rest ih =>
    rw [run_cons, ih, position_perform, targets, List.getLast?_append]
    cases (targets (planner.perform call).state rest).getLast? <;>
      cases planner.taken? call <;> rfl

theorem asked_eq (planner : Planner β) (calls : List Call) :
    planner.asked calls = (planner.run calls).heading.reported.sub planner.heading.reported := by
  induction calls generalizing planner with
  | nil =>
    ext axis
    simp [asked, run]
  | cons call rest ih =>
    ext axis
    rw [asked, ih, run_cons]
    simp only [Steps.get_add, Steps.get_sub]
    omega

/-- The steps of calls that put no move into the window are owed. -/
theorem owed_run {planner : Planner β} (hlookahead : 0 < planner.lookahead) {calls : List Call}
    (hqueued : planner.queued calls = []) (hjumps : planner.jumps calls = []) :
    (planner.run calls).heading.owed = planner.heading.owed.add (planner.asked calls) := by
  ext axis
  have hstay := stepPosition_run hlookahead calls axis
  rw [hqueued, hjumps] at hstay
  change _ = _ + (0 + 0) at hstay
  rw [asked_eq]
  simp only [Heading.owed, Steps.get_add, Steps.get_sub]
  change _ - (planner.run calls).stepPosition axis = _ - planner.stepPosition axis + _
  omega

/-- The next move makes what is owed, and then nothing is. -/
theorem owed_of_requested {planner : Planner β} {target : Register Float} {feedrate : Float}
    {move : Move} (h : planner.requested? target feedrate = some move) :
    move.steps = planner.heading.owed.add (planner.asked [.enqueue target feedrate]) ∧
      (planner.perform (.enqueue target feedrate)).state.heading.owed = .zero := by
  have hturned : (planner.perform (.enqueue target feedrate)).state.heading =
      ⟨planner.config, planner.wiring, target, planner.stepPosition.add move.steps⟩ :=
    heading_enqueue_of_requested h
  have hreported : (planner.perform (.enqueue target feedrate)).state.heading.reported =
      planner.stepPosition.add move.steps := by
    rw [hturned]
    exact Heading.reported_eq (aimed?_eq_some (aimed?_of_requested h))
  constructor
  · ext axis
    rw [asked_eq, run_cons, run, hreported, Heading.owed]
    simp only [Steps.get_add, Steps.get_sub]
    change _ = _ - planner.stepPosition axis + _
    omega
  · ext axis
    rw [Heading.owed, hreported, hturned]
    simp

end Targets

section Halted

theorem total_emitted_halt {config : MachineConfig} {wiring : Wiring} {backend : β}
    {lookahead : Nat} {planner : Planner β}
    (hmake : make config wiring backend lookahead = .ok planner)
    (haccepting : MotorBackend.Accepting backend) (calls : List Call) (axis : Axis) :
    (planner.run calls).halt.Succeeds ∧
      Segment.total (planner.emitted (calls ++ [.halt])) axis +
          ((planner.jumps (calls ++ [.halt])).map fun jump => jump axis).sum =
        (planner.run calls).stepPosition axis := by
  obtain ⟨before, hbefore⟩ := exists_account_of_make hmake haccepting calls
  have hhalt : (planner.traced.run calls).halt.Succeeds :=
    halt_of_accepting fun _ => hbefore.accepting
  have hsucceeds : (planner.run calls).halt.Succeeds :=
    (planner.rests_run_traced calls .halt).mp hhalt
  refine ⟨hsucceeds, ?_⟩
  obtain ⟨out, haccount⟩ := exists_account_of_make hmake haccepting (calls ++ [.halt])
  have hmoves := haccount.moves
  have hempty : (planner.traced.run (calls ++ [.halt])).window = [] := by
    obtain ⟨-, -, hwindow⟩ := (planner.traced.run calls).halt_changes
    rw [run_append]
    exact hwindow hhalt
  rw [hempty, queued_traced] at hmoves
  have hsent := total_of_moves hmoves haccount.moving axis
  rw [← haccount.emitted] at hsent
  obtain ⟨hlookahead, hplanner⟩ := make_eq_ok hmake
  have hpositive : 0 < planner.lookahead := by rwa [hplanner]
  have hstart : planner.stepPosition axis = 0 := by rw [hplanner]; exact Steps.get_zero axis
  have hposition := stepPosition_run hpositive (calls ++ [.halt]) axis
  have hstay : (planner.run (calls ++ [.halt])).stepPosition =
      (planner.run calls).stepPosition := by
    rw [run_append]
    exact congrArg Heading.stepPosition (heading_halt (planner.run calls))
  rw [hstay] at hposition
  simp only [List.map_nil, List.sum_nil] at hsent
  omega

end Halted

section Drift

variable {config : MachineConfig} {wiring : Wiring} {backend : β}
  {lookahead : Nat} {planner : Planner β}

/-- The reported position is the last one that was taken, and the moves are at most one step behind
it on each axis. What ignored requests asked for is owed, never more than a step, and the next
move makes it. -/
theorem reported_position_keeps_up (hmake : make config wiring backend lookahead = .ok planner)
    (calls : List Call) :
    (planner.run calls).position = (planner.targets calls).getLast?.getD (.fill 0.0) ∧
    (∃ reported, stepsOf? config wiring (planner.run calls).position = some reported ∧
      (∀ axis, (reported axis - (planner.run calls).stepPosition axis).natAbs ≤ 1) ∧
      (MotorBackend.Accepting backend → (planner.run calls).halt.Succeeds ∧ ∀ axis,
        (Segment.total (planner.emitted (calls ++ [.halt])) axis +
          ((planner.jumps (calls ++ [.halt])).map fun jump => jump axis).sum -
            reported axis).natAbs ≤ 1)) ∧
    (∀ ignored, (planner.run calls).queued ignored = [] → (planner.run calls).jumps ignored = [] →
      (planner.run (calls ++ ignored)).heading.owed =
          (planner.run calls).heading.owed.add ((planner.run calls).asked ignored) ∧
        ∀ axis, ((planner.run (calls ++ ignored)).heading.owed axis).natAbs ≤ 1) ∧
    ∀ target feedrate move, (planner.run calls).requested? target feedrate = some move →
      move.steps = (planner.run calls).heading.owed.add
          ((planner.run calls).asked [.enqueue target feedrate]) ∧
        (planner.run (calls ++ [.enqueue target feedrate])).heading.owed = .zero := by
  obtain ⟨hlookahead, hplanner⟩ := make_eq_ok hmake
  have hpositive : 0 < planner.lookahead := by rwa [hplanner]
  have hstart : planner.heading.KeepsUp := by
    have horigin := stepsOf?_origin wiring (usable_of_make hmake)
    rw [hplanner]
    exact Heading.keepsUp_of_steps horigin fun axis => by simp [heading]
  have hkept := keepsUp_run hstart
  obtain ⟨out, hchanges⟩ := planner.run_changes hpositive calls
  have hconfig : (planner.run calls).config = config := by rw [hchanges.lookahead.1, hplanner]
  have hwiring : (planner.run calls).wiring = wiring := by rw [hchanges.wiring, hplanner]
  have hahead : 0 < (planner.run calls).lookahead := by rwa [hchanges.lookahead.2]
  have hnear : ∀ axis, ((planner.run calls).heading.reported axis -
      (planner.run calls).stepPosition axis).natAbs ≤ 1 := by
    intro axis
    have howed := (hkept calls).owed_le axis
    rwa [Heading.owed, Steps.get_sub] at howed
  refine ⟨?_, ⟨(planner.run calls).heading.reported, ?_, hnear, fun haccepting => ?_⟩, ?_, ?_⟩
  · rw [position_run, hplanner]
  · rw [← hconfig, ← hwiring]
    exact (hkept calls).steps
  · refine ⟨(total_emitted_halt hmake haccepting calls .x).1, fun axis => ?_⟩
    rw [(total_emitted_halt hmake haccepting calls axis).2]
    have haxis := hnear axis
    omega
  · intro ignored hqueued hjumps
    refine ⟨?_, (hkept (calls ++ ignored)).owed_le⟩
    rw [run_append]
    exact owed_run hahead hqueued hjumps
  · intro target feedrate move hrequest
    rw [run_append]
    exact owed_of_requested hrequest

theorem reported_position_keeps_up_sample :
    (sample.run [goTo 10.0, goTo 10.01]).heading.owed .x = 1 ∧
    (sample.run [goTo 10.0, goTo 10.01]).heading.owed =
      (sample.run [goTo 10.0]).heading.owed.add ((sample.run [goTo 10.0]).asked [goTo 10.01]) ∧
    (∃ reported, stepsOf? sample.config sample.wiring
        (sample.run [goTo 10.0, goTo 10.01]).position = some reported ∧
      ∀ axis, (Segment.total (sample.emitted [goTo 10.0, goTo 10.01, .halt]) axis +
        ((sample.jumps [goTo 10.0, goTo 10.01, .halt]).map fun jump => jump axis).sum -
          reported axis).natAbs ≤ 1) ∧
    ∃ move, (sample.run [goTo 10.0, goTo 10.01]).requested? (.fill 20.0) 50.0 = some move ∧
      move.steps = (sample.run [goTo 10.0, goTo 10.01]).heading.owed.add
        ((sample.run [goTo 10.0, goTo 10.01]).asked [.enqueue (.fill 20.0) 50.0]) := by
  obtain ⟨-, -, hignored, -⟩ := reported_position_keeps_up make_sample [goTo 10.0]
  obtain ⟨-, ⟨reported, hsteps, -, hhalted⟩, -, hnext⟩ :=
    reported_position_keeps_up make_sample [goTo 10.0, goTo 10.01]
  have hqueued : (sample.run [goTo 10.0]).queued [goTo 10.01] = [] :=
    List.eq_nil_of_length_eq_zero (by decide +kernel)
  have hjumps : (sample.run [goTo 10.0]).jumps [goTo 10.01] = [] :=
    List.eq_nil_of_length_eq_zero (by decide +kernel)
  have hrequest : ((sample.run [goTo 10.0, goTo 10.01]).requested? (.fill 20.0) 50.0).isSome := by
    decide +kernel
  obtain ⟨move, hmove⟩ := Option.isSome_iff_exists.mp hrequest
  exact ⟨by decide +kernel, (hignored [goTo 10.01] hqueued hjumps).1,
    ⟨reported, hsteps, (hhalted (accepting_recorder sample.backend)).2⟩,
    move, hmove, (hnext _ _ move hmove).1⟩

end Drift

end Planner
end StepMotion
