import Mathlib.Data.Finset.Basic
import StepMotion.Proofs.Planner.Steering

/-! Requests that are ignored: those without a usable feedrate, to a place without steps, or too
short. They move the reported position, which planning never reads, so a run goes the same way
without them. The steps of a short one are made by the next move. -/
namespace StepMotion.Planner

section Lists

variable {α : Type} (deleted : Finset Nat)

/-- A list without the entries at some places. The first entry is at `place`. -/
def without (xs : List α) (place : Nat := 0) : List α :=
  ((xs.zipIdx place).filter fun entry => entry.2 ∉ deleted).map Prod.fst

variable {deleted} {place : Nat}

theorem without_cons_of_mem (h : place ∈ deleted) (x : α) (xs : List α) :
    without deleted (x :: xs) place = without deleted xs (place + 1) := by
  simp [without, List.zipIdx_cons, h]

theorem without_cons_of_notMem (h : place ∉ deleted) (x : α) (xs : List α) :
    without deleted (x :: xs) place = x :: without deleted xs (place + 1) := by
  simp [without, List.zipIdx_cons, h]

end Lists

variable {β : Type}

/-- The same planner, reporting another position. -/
def reposed (position : Register Float) (planner : Planner β) : Planner β :=
  { planner with position := position }

/-- Whether a call is a request that does not lead to a move. -/
def ignores (planner : Planner β) : Call → Bool
  | .enqueue target feedrate => (planner.requested? target feedrate).isNone
  | .halt => false
  | .setPosition _ => false

section Ignored

variable {planner : Planner β} {target : Register Float} {feedrate : Float}

theorem ignores_enqueue_iff : planner.ignores (.enqueue target feedrate) = true ↔
    ¬ (Binary64.isFinite feedrate = true ∧ 0.0 < feedrate) ∨
      stepsOf? planner.config planner.wiring target = none ∨
      ∃ steps, stepsOf? planner.config planner.wiring target = some steps ∧
        (steps.sub planner.stepPosition).count < Move.leastSteps := by
  simp only [ignores, requested?_eq, Option.isNone_iff_eq_none]
  unfold aimed?
  by_cases husable : Binary64.isFinite feedrate = true ∧ 0.0 < feedrate
  · have hfeedrate : (Binary64.isFinite feedrate && decide (0.0 < feedrate)) = true := by
      simpa using husable
    rw [if_pos hfeedrate, or_iff_right (not_not.mpr husable)]
    cases stepsOf? planner.config planner.wiring target with
    | none => simp
    | some steps => simp [Move.plan?]
  · have hfeedrate : ¬ (Binary64.isFinite feedrate && decide (0.0 < feedrate)) = true := by
      simpa using husable
    rw [if_neg hfeedrate]
    exact iff_of_true rfl (.inl husable)

end Ignored

theorem ignores_reposed (planner : Planner β) (position : Register Float) (call : Call) :
    (planner.reposed position).ignores call = planner.ignores call := rfl

theorem Call.Alike.refl (call : Call) : Call.Alike Eq call call := by
  cases call with
  | enqueue target feedrate => exact .enqueue rfl feedrate
  | halt => exact .halt
  | setPosition position => exact .setPosition rfl

variable [MotorBackend β]

def along {α : Type} (see : Planner β → Call → α) (planner : Planner β) : List Call → List α
  | [] => []
  | call :: rest => see planner call :: along see (planner.perform call).state rest

theorem reports_eq_along (planner : Planner β) (calls : List Call) :
    planner.reports calls = planner.along report calls := by
  induction calls generalizing planner with
  | nil => rfl
  | cons call rest ih => rw [reports, along, ih]

def ignored (planner : Planner β) (calls : List Call) : List Bool := planner.along ignores calls

variable {planner : Planner β}

theorem perform_of_ignores {call : Call} (h : planner.ignores call = true) :
    ∃ position, planner.perform call = .done (planner.reposed position) := by
  cases call with
  | enqueue target feedrate =>
    obtain ⟨position, hignored⟩ := enqueue_of_ignored (Option.isNone_iff_eq_none.mp h)
    exact ⟨position, by rw [perform, hignored]; rfl⟩
  | halt => contradiction
  | setPosition position => contradiction

namespace Reachable

variable (h : planner.Reachable)

include h

theorem parallel_reposed (position : Register Float) :
    Heading.Parallel Eq .zero planner.heading (planner.reposed position).heading where
  thresholdAngle := rfl
  stepsOf? target target' htarget := by
    obtain rfl := htarget
    change StepMotion.stepsOf? planner.config planner.wiring target =
      (StepMotion.stepsOf? planner.config planner.wiring target).map _
    cases StepMotion.stepsOf? planner.config planner.wiring target with
    | none => rfl
    | some steps =>
      rw [Option.map_some]
      congr 1
      ext axis
      simp
  plan? _ _ _ := rfl
  idle := by
    obtain ⟨place, hplace⟩ := h.sound.heading.aimed
    exact fun axis haxis => stepsOf?_inactive hplace haxis
  stepPosition := by
    ext axis
    simp [heading, reposed]

theorem perform_reposed (position : Register Float) (call : Call) :
    ∃ position', (planner.reposed position).perform call =
      (planner.perform call).map (reposed position') := by
  obtain ⟨next, hsame, hnext⟩ := (h.parallel_reposed position).perform (Call.Alike.refl call)
  obtain ⟨hconfig, hwiring⟩ := planner.config_perform call
  obtain ⟨hconfig', hwiring'⟩ := (planner.reposed position).config_perform call
  change (planner.reposed position).perform call = _ at hsame
  rw [hsame] at hconfig' hwiring'
  have hplace : next.stepPosition = (planner.perform call).state.stepPosition := by
    ext axis
    rw [hnext.stepPosition]
    simp [heading]
  have hheading : next =
      { (planner.perform call).state.heading with position := next.position } := by
    obtain ⟨config, wiring, position', stepPosition⟩ := next
    obtain rfl : config = planner.config := hconfig'
    obtain rfl : wiring = planner.wiring := hwiring'
    dsimp only at hplace
    rw [hplace, ← hconfig, ← hwiring]
    rfl
  refine ⟨next.position, hsame.trans ?_⟩
  rw [hheading]
  rfl

theorem report_reposed (position : Register Float) (call : Call) :
    (planner.reposed position).report call = planner.report call :=
  (h.parallel_reposed position).report (Call.Alike.refl call)

end Reachable

section Without

variable {deleted : Finset Nat} {place : Nat} {calls : List Call}

/-- Every call at a deleted place is ignored. The first call is at `place`. -/
def OnlyIgnored (planner : Planner β) (deleted : Finset Nat) (place : Nat) (calls : List Call) :
    Prop :=
  ∀ i, place + i ∈ deleted → (planner.ignored calls)[i]? ≠ some false

theorem OnlyIgnored.head {call : Call} (h : planner.OnlyIgnored deleted place (call :: calls))
    (hplace : place ∈ deleted) : planner.ignores call = true := by
  have hfirst := h 0 hplace
  simpa [ignored, along] using hfirst

theorem OnlyIgnored.tail {call : Call} (h : planner.OnlyIgnored deleted place (call :: calls)) :
    (planner.perform call).state.OnlyIgnored deleted (place + 1) calls := by
  intro i hi
  rw [Nat.add_right_comm, Nat.add_assoc] at hi
  exact h (i + 1) hi

theorem along_without {α : Type} {see : Planner β → Call → α}
    (hsee : ∀ planner : Planner β, planner.Reachable → ∀ position call,
      see (planner.reposed position) call = see planner call)
    (h : planner.Reachable) (hdeleted : planner.OnlyIgnored deleted place calls)
    (position : Register Float) :
    (planner.reposed position).along see (without deleted calls place) =
      without deleted (planner.along see calls) place := by
  induction calls generalizing planner place position with
  | nil => rfl
  | cons call rest ih =>
    rw [along]
    by_cases hplace : place ∈ deleted
    · obtain ⟨passed, hpassed⟩ := perform_of_ignores (hdeleted.head hplace)
      rw [without_cons_of_mem hplace, without_cons_of_mem hplace,
        ← ih (h.perform call) hdeleted.tail position, hpassed]
      rfl
    · obtain ⟨position', hsame⟩ := h.perform_reposed position call
      rw [without_cons_of_notMem hplace, without_cons_of_notMem hplace, along, hsee planner h,
        hsame]
      exact congrArg _ (ih (h.perform call) hdeleted.tail position')

theorem run_without (h : planner.Reachable) (hdeleted : planner.OnlyIgnored deleted place calls)
    (position : Register Float) :
    ∃ position', (planner.reposed position).run (without deleted calls place) =
      (planner.run calls).reposed position' := by
  induction calls generalizing planner place position with
  | nil => exact ⟨position, rfl⟩
  | cons call rest ih =>
    rw [run_cons]
    by_cases hplace : place ∈ deleted
    · obtain ⟨passed, hpassed⟩ := perform_of_ignores (hdeleted.head hplace)
      obtain ⟨position', hrun⟩ := ih (h.perform call) hdeleted.tail position
      rw [hpassed] at hrun
      rw [without_cons_of_mem hplace, hpassed]
      exact ⟨position', hrun⟩
    · obtain ⟨position', hsame⟩ := h.perform_reposed position call
      rw [without_cons_of_notMem hplace, run_cons, hsame]
      exact ih (h.perform call) hdeleted.tail position'

end Without

section Traced

theorem ignored_map {γ : Type} [MotorBackend γ] {f : β → γ} (hf : MotorBackend.Morphism f)
    (planner : Planner β) (calls : List Call) :
    (planner.map f).ignored calls = planner.ignored calls := by
  induction calls generalizing planner with
  | nil => rfl
  | cons call rest ih =>
    rw [ignored, ignored, along, along, perform_map hf]
    exact congrArg _ (ih (planner.perform call).state)

theorem ignored_traced (planner : Planner β) (calls : List Call) :
    planner.traced.ignored calls = planner.ignored calls := by
  rw [← ignored_map Traced.inner_morphism, map_inner_traced]

end Traced

variable {config : MachineConfig} {wiring : Wiring} {backend : β} {lookahead : Nat}

/-- Leaving out ignored requests changes nothing that can be seen of the other calls, no segment, and
at the end only the reported position. A request is ignored for want of a usable feedrate, of a step
position, or of enough steps. -/
theorem ignored_requests_leave_no_trace
    (hmake : make config wiring backend lookahead = .ok planner) (calls : List Call)
    (deleted : Finset Nat) (hdeleted : ∀ i ∈ deleted, (planner.ignored calls)[i]? = some true) :
    let kept := without deleted calls
    let reached := planner.run calls
    planner.reports kept = without deleted (planner.reports calls) ∧
    planner.ignored kept = without deleted (planner.ignored calls) ∧
    planner.emitted kept = planner.emitted calls ∧
    (∃ position, planner.run kept = reached.reposed position) ∧
    (∀ target feedrate, reached.ignores (.enqueue target feedrate) = true ↔
      ¬ (Binary64.isFinite feedrate = true ∧ 0.0 < feedrate) ∨
        stepsOf? reached.config reached.wiring target = none ∨
        ∃ steps, stepsOf? reached.config reached.wiring target = some steps ∧
          (steps.sub reached.stepPosition).count < Move.leastSteps) ∧
    ∀ call, reached.ignores call = true →
      (∃ position, reached.perform call = .done (reached.reposed position)) ∧
      (reached.perform call).state.requested? = reached.requested? := by
  have hreachable : planner.Reachable := .make hmake
  have htraced : planner.traced.Reachable :=
    .make (make_map (fun backend => (⟨backend, []⟩ : Traced β)) hmake)
  have honly : planner.OnlyIgnored deleted 0 calls := by
    intro i hi
    rw [Nat.zero_add] at hi
    rw [hdeleted i hi]
    simp
  have honlyTraced : planner.traced.OnlyIgnored deleted 0 calls := by
    unfold OnlyIgnored
    rw [ignored_traced]
    exact honly
  refine ⟨?_, ?_, ?_, ?_, fun target feedrate => ignores_enqueue_iff, fun call hcall => ?_⟩
  · rw [reports_eq_along, reports_eq_along]
    exact along_without (fun _ h => h.report_reposed) hreachable honly planner.position
  · exact along_without (fun planner _ => planner.ignores_reposed) hreachable honly planner.position
  · obtain ⟨position, hrun⟩ := run_without htraced honlyTraced planner.position
    exact congrArg (·.backend.accepted) hrun
  · exact run_without hreachable honly planner.position
  · obtain ⟨position, hpassed⟩ := perform_of_ignores hcall
    refine ⟨⟨position, hpassed⟩, ?_⟩
    rw [hpassed]
    rfl

def driftingCalls : List Call := [goTo 10.0, .halt, goTo 10.01, goTo 0.0, .halt]

theorem ignored_requests_leave_no_trace_sample :
    sample.ignored driftingCalls = [false, false, true, false, false] ∧
    (sample.emitted driftingCalls).length = 6 ∧
    sample.emitted [goTo 10.0, .halt, goTo 0.0, .halt] = sample.emitted driftingCalls ∧
    (∃ position, sample.run [goTo 10.0, .halt, goTo 0.0, .halt] =
      (sample.run driftingCalls).reposed position) := by
  have hignored : sample.ignored driftingCalls = [false, false, true, false, false] := by
    decide +kernel
  obtain ⟨-, -, hemitted, hrun, -, -⟩ := ignored_requests_leave_no_trace make_sample driftingCalls
    {2} fun i hi => by
      rw [Finset.mem_singleton.mp hi, hignored]
      rfl
  exact ⟨hignored, by decide +kernel, hemitted, hrun⟩

end StepMotion.Planner
