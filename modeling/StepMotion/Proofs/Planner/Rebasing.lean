import StepMotion.Proofs.Planner.Rest
import StepMotion.Proofs.Planner.Steering

/-! Taking another place for the one where the machine stands only relabels positions. Whatever is
requested afterwards, relative to the new place, is done as it would have been relative to the old
one. -/
namespace StepMotion.Planner

variable {β : Type} {planner : Planner β} {position : Register Float} {origin : Steps}

/-- As many steps from `origin` to `target'` as from where the planner leads to `target`. -/
def Relabels (planner : Planner β) (origin : Steps) (target target' : Register Float) : Prop :=
  ∃ steps steps', stepsOf? planner.config planner.wiring target = some steps ∧
    stepsOf? planner.config planner.wiring target' = some steps' ∧
    ∀ axis, steps' axis - origin axis = steps axis - planner.stepPosition axis

/-- Under the heading that a planner has after it is re-based, relabelled targets lead the same
way. -/
theorem parallel_of_relabels
    (hidle : ∀ axis, isActive planner.config planner.wiring axis = false →
      planner.stepPosition axis = 0) (position : Register Float) (origin : Steps) :
    Heading.Parallel (planner.Relabels origin) (origin.sub planner.stepPosition) planner.heading
      ⟨planner.config, planner.wiring, position, origin⟩ where
  thresholdAngle := rfl
  stepsOf? target target' htarget := by
    obtain ⟨steps, steps', hsteps, hsteps', hdifference⟩ := htarget
    have hshifted : steps.add (origin.sub planner.stepPosition) = steps' := by
      ext axis
      have haxis := hdifference axis
      simp only [Steps.get_add, Steps.get_sub]
      omega
    dsimp only [heading]
    rw [hsteps', hsteps, Option.map_some, hshifted]
  plan? _ _ _ := rfl
  idle := hidle
  stepPosition := by
    ext axis
    simp only [Steps.get_add, Steps.get_sub, heading]
    omega

variable [MotorBackend β]

theorem setPosition_at_rest (hrested : planner.Rested) (hempty : planner.window = [])
    (hposition : stepsOf? planner.config planner.wiring position = some origin) :
    planner.setPosition position = .done (planner.aim position origin) := by
  have hidle : planner.state = .idle := by rwa [Rested, if_pos hempty] at hrested
  have hsettled : planner.settle = planner := by
    unfold settle
    rw [hempty, ← hidle, ← hempty]
    exact ite_self planner
  have hhalt : planner.halt = .done planner := by rw [halt_of_idle hempty, hsettled]
  have hdone : planner.halt.Succeeds := by
    rw [hhalt]
    exact Attempt.succeeds_done _
  rw [setPosition_of_halted hposition hdone, hhalt]
  rfl

/-- At rest another position can be taken at any time, which hands nothing over. Calls whose targets
are as many steps from it as those of other calls are from where the planner stood have the same
reports and the same segments. -/
theorem rebasing_relabels (h : planner.Reachable) (hempty : planner.window = [])
    (hposition : stepsOf? planner.config planner.wiring position = some origin)
    {calls calls' : List Call}
    (hcalls : List.Forall₂ (Call.Alike (planner.Relabels origin)) calls calls') :
    (planner.setPosition position).Succeeds ∧
    planner.emitted [.setPosition position] = [] ∧
    planner.emitted (.setPosition position :: calls') = planner.emitted calls ∧
    (planner.setPosition position).state.reports calls' = planner.reports calls := by
  have hset := setPosition_at_rest h.rested hempty hposition
  have hrested : planner.traced.Rested := h.rested
  have htraced := setPosition_at_rest hrested hempty hposition
  have hidle : ∀ axis, isActive planner.config planner.wiring axis = false →
      planner.stepPosition axis = 0 := by
    obtain ⟨place, hplace⟩ := h.sound.heading.aimed
    exact fun axis haxis => stepsOf?_inactive hplace haxis
  have hreports : (planner.aim position origin).reports calls' = planner.reports calls :=
    (parallel_of_relabels hidle position origin).reports hcalls
  have hquiet : planner.emitted [.setPosition position] = [] := by
    change (planner.traced.setPosition position).state.backend.accepted = []
    rw [htraced]
    rfl
  rw [hset]
  refine ⟨Attempt.succeeds_done _, hquiet, ?_, hreports⟩
  have hstart : planner.run [.setPosition position] = planner.aim position origin :=
    congrArg Attempt.state hset
  rw [← List.singleton_append, emitted_append, hquiet, hstart, List.nil_append,
    emitted_eq_flatMap, hreports, ← emitted_eq_flatMap]

def alongX (steps : Int) : Steps := Steps.zero.set .x steps

def standingSample : Planner Recorder := sample.run [goTo 10.0, .halt]

theorem rebasing_relabels_sample :
    (standingSample.emitted [goTo 15.0, .halt, goTo 2.0, .halt]).length = 6 ∧
    (standingSample.setPosition (.fill 3.0)).Succeeds ∧
    standingSample.emitted [.setPosition (.fill 3.0)] = [] ∧
    standingSample.emitted [.setPosition (.fill 3.0), goTo 8.0, .halt, goTo (-5.0), .halt] =
      standingSample.emitted [goTo 15.0, .halt, goTo 2.0, .halt] ∧
    (standingSample.setPosition (.fill 3.0)).state.reports [goTo 8.0, .halt, goTo (-5.0), .halt] =
      standingSample.reports [goTo 15.0, .halt, goTo 2.0, .halt] := by
  have hreachable : standingSample.Reachable := .run (.make make_sample) _
  have hempty : standingSample.window.length = 0 := by decide +kernel
  have hfar : standingSample.Relabels (alongX 300)
      ((Register.fill 0.0).set .x 15.0) ((Register.fill 0.0).set .x 8.0) :=
    ⟨alongX 1500, alongX 800, by decide +kernel, by decide +kernel, fun axis => by
      cases axis <;> decide +kernel⟩
  have hback : standingSample.Relabels (alongX 300)
      ((Register.fill 0.0).set .x 2.0) ((Register.fill 0.0).set .x (-5.0)) :=
    ⟨alongX 200, alongX (-500), by decide +kernel, by decide +kernel, fun axis => by
      cases axis <;> decide +kernel⟩
  exact ⟨by decide +kernel, rebasing_relabels hreachable (List.eq_nil_of_length_eq_zero hempty)
    (by decide +kernel) (.cons (.enqueue hfar 50.0) <| .cons .halt <|
      .cons (.enqueue hback 50.0) <| .cons .halt .nil)⟩

end StepMotion.Planner
