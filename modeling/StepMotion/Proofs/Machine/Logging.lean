import StepMotion.Motor.Limited
import StepMotion.Proofs.Machine.Power
import StepMotion.Proofs.Motor.Logging

/-! A machine whose segments are logged. It does what it does without the log, whatever the backend
refuses, and the log has a line for every segment that the machine offers. -/
namespace StepMotion

namespace Machine

variable {β : Type}

theorem make_map {γ : Type} (f : β → γ) (config : MachineConfig) (wiring : Wiring) (backend : β)
    (sink : Option Sink) :
    make config wiring (f backend) sink = (make config wiring backend sink).map (map f) := by
  unfold make Planner.make
  cases config.validate <;> rfl

def logged (machine : Machine β) : Machine (Logged β) := machine.map (⟨·, #[]⟩)

variable [MotorBackend β]

theorem map_inner_run_logged (machine : Machine β) (operations : List Operation) :
    (machine.logged.run operations).map Logged.inner = machine.run operations := by
  rw [← run_map Logged.inner_morphism]
  rfl

/-- The segments that a run offers to the backend, taken or not. -/
def offered (machine : Machine β) (operations : List Operation) : List Segment :=
  (machine.traced.run operations).planner.backend.offered

theorem offered_logged (machine : Machine β) (operations : List Operation) :
    machine.logged.offered operations = machine.offered operations := by
  have hsame : machine.logged.traced.map (Traced.map Logged.inner) = machine.traced := rfl
  unfold offered
  rw [← hsame, run_map (Traced.map_morphism Logged.inner_morphism)]
  rfl

theorem lines_run_logged (machine : Machine β) (operations : List Operation) :
    (machine.logged.run operations).planner.backend.lines.toList =
      Logged.log (machine.offered operations) := by
  have hsame : machine.traced.map Logged.ofTraced = machine.logged := rfl
  rw [← hsame, run_map Logged.ofTraced_morphism]
  rfl

/-- The log changes nothing, and has one line for each segment that is offered. -/
theorem logging_is_transparent {config : MachineConfig} {wiring : Wiring} {backend : β}
    {sink : Option Sink} {machine : Machine β}
    (hmake : make config wiring backend sink = .ok machine) (operations : List Operation) :
    make config wiring (⟨backend, #[]⟩ : Logged β) sink = .ok machine.logged ∧
    (machine.logged.run operations).map Logged.inner = machine.run operations ∧
    (∀ operation, ((machine.logged.run operations).operate operation).outcome =
      ((machine.run operations).operate operation).outcome) ∧
    machine.logged.offered operations = machine.offered operations ∧
    (machine.logged.run operations).planner.backend.lines.toList =
      Logged.log (machine.logged.offered operations) ∧
    (machine.logged.run operations).planner.backend.lines.toList.map
        (fun line => Text.words line.toList) =
      (machine.logged.offered operations).zipIdx.map fun entry =>
        (Logged.lineWords entry.2 entry.1).map String.toList := by
  have hrun := machine.map_inner_run_logged operations
  have hoffered := machine.offered_logged operations
  have hlines := machine.lines_run_logged operations
  rw [← hoffered] at hlines
  refine ⟨?_, hrun, fun operation => ?_, hoffered, hlines, ?_⟩
  · rw [make_map (fun inner => (⟨inner, #[]⟩ : Logged β)), hmake]
    rfl
  · rw [← hrun, operate_map Logged.inner_morphism]
    rfl
  · rw [hlines, Logged.words_log]

def brittleSample : Machine Limited :=
  sample.map fun _ => { remaining := 1, failure := .queueClosed }

theorem make_brittleSample : make brittleSample.config brittleSample.wiring
    brittleSample.planner.backend none = .ok brittleSample := by
  have hmap := make_map (fun _ => (⟨{}, 1, .queueClosed, 0⟩ : Limited)) sample.planner.config
    sample.planner.wiring sample.planner.backend none
  rwa [make_sample] at hmap

/-- The second segment of the move is refused, and refused again. -/
def brittleOperations : List Operation :=
  [.coordinatedMove (some 50.0) ((Register.fill 0.0).set .x 10.0), .finish, .finish]

theorem logging_is_transparent_sample :
    (brittleSample.offered brittleOperations).length = 3 ∧
    (brittleSample.logged.run brittleOperations).planner.backend.lines.toList =
      ["#0     X=125 v0=0.0 v1=5000.0 steps/s", "#1     X=750 v0=5000.0 v1=5000.0 steps/s",
        "#2     X=125 v0=0.0 v1=5000.0 steps/s"] ∧
    ((brittleSample.offered brittleOperations).zipIdx.map fun entry =>
        Logged.lineWords entry.2 entry.1) =
      [["#0", "X=125", "v0=0.0", "v1=5000.0", "steps/s"],
        ["#1", "X=750", "v0=5000.0", "v1=5000.0", "steps/s"],
        ["#2", "X=125", "v0=0.0", "v1=5000.0", "steps/s"]] ∧
    (brittleSample.logged.run brittleOperations).planner.backend.lines.toList.map
        (fun line => Text.words line.toList) =
      ((brittleSample.offered brittleOperations).zipIdx.map fun entry =>
        (Logged.lineWords entry.2 entry.1).map String.toList) ∧
    (brittleSample.logged.run brittleOperations).map Logged.inner =
      brittleSample.run brittleOperations ∧
    ((brittleSample.logged.run brittleOperations).operate .markHomed).outcome =
      ((brittleSample.run brittleOperations).operate .markHomed).outcome ∧
    ¬ (brittleSample.run brittleOperations).finish.Succeeds := by
  obtain ⟨-, hrun, houtcome, hoffered, -, hwords⟩ :=
    logging_is_transparent make_brittleSample brittleOperations
  rw [hoffered] at hwords
  exact ⟨by decide +kernel, by decide +kernel, by decide +kernel, hwords, hrun,
    houtcome .markHomed, by decide +kernel⟩

end Machine
end StepMotion
