import StepMotion.Proofs.Planner.Ledger

/-! The speed never jumps: each segment starts at the speed at which the one before ended, and the
path starts and comes to rest at zero. -/
namespace StepMotion.Planner

open Segment

theorem Linked.leads {v w : Float} {out : List Emission} (h : Linked v out w)
    (hmoving : ∀ emission ∈ out, emission.move.steps ≠ .zero) :
    Leads v (out.flatMap Emission.segments) w := by
  induction out generalizing v with
  | nil => exact .inl h
  | cons emission rest ih =>
    obtain ⟨hentry, hrest⟩ := h
    rw [List.forall_mem_cons] at hmoving
    have hfirst : Leads v emission.segments emission.exit := by
      rw [← hentry]
      exact Move.leads_segments hmoving.1 emission.exit
    rw [List.flatMap_cons]
    exact hfirst.append (ih hrest hmoving.2)

variable {β : Type} [MotorBackend β]

theorem Account.leads {planner : Planner (Traced β)} {calls : List Call} {out : List Emission}
    (h : Account planner calls out) :
    Leads 0.0 (out.flatMap Emission.segments) (planner.run calls).frontEntry :=
  h.ledger.linked.leads h.moving

/-- After a call that leaves the path at rest the run starts anew. -/
theorem Account.restart {planner : Planner (Traced β)} {before : List Call} {call : Call}
    {out : List Emission} (h : Account planner (before ++ [call]) out)
    (hlookahead : 0 < (planner.run before).lookahead) (hrests : (planner.run before).Rests call) :
    (planner.run (before ++ [call])).frontEntry = 0.0 ∧
      ∀ after, ∃ later, Account (planner.run (before ++ [call])) after later := by
  have hempty : (planner.run (before ++ [call])).window = [] := by
    obtain ⟨-, -, hwindow⟩ := (planner.run before).perform_changes hlookahead call
    rw [run_append]
    exact hwindow hrests
  exact ⟨h.ledger.planned.frontEntry_of_empty hempty,
    exists_account h.ledger.planned hempty h.lookahead h.accepting⟩

variable {config : MachineConfig} {wiring : Wiring} {backend : β} {lookahead : Nat}
  {planner : Planner β}

/-- A segment starts at the speed at which the one before it ends, from the first one on, which
starts from rest. A call that brings the path to rest ends at speed zero, and the next segment
starts from there. -/
theorem emitted_speeds_continue (hmake : make config wiring backend lookahead = .ok planner)
    (haccepting : MotorBackend.Accepting backend) (calls : List Call) :
    (planner.emitted calls).IsChain (fun a b => SameSpeed a.v1 b.v0) ∧
    (∀ first ∈ (planner.emitted calls).head?, (first.v0 == 0.0) = true) ∧
    ∀ before call after, calls = before ++ call :: after → (planner.run before).Rests call →
      (∀ last ∈ (planner.emitted (before ++ [call])).getLast?, (last.v1 == 0.0) = true) ∧
      ∃ later, planner.emitted calls = planner.emitted (before ++ [call]) ++ later ∧
        ∀ first ∈ later.head?, (first.v0 == 0.0) = true := by
  obtain ⟨out, haccount⟩ := exists_account_of_make hmake haccepting calls
  rw [haccount.emitted]
  have hleads := haccount.leads
  refine ⟨hleads.isChain, fun first hfirst => (hleads.head hfirst).zero rfl, ?_⟩
  intro before call after hcalls hrests
  obtain ⟨_, hbefore⟩ := exists_account_of_make hmake haccepting before
  obtain ⟨out', hrested⟩ := exists_account_of_make hmake haccepting (before ++ [call])
  obtain ⟨hfront, hrestart⟩ :=
    hrested.restart hbefore.lookahead ((planner.rests_run_traced before call).mpr hrests)
  obtain ⟨later, hlater⟩ := hrestart after
  have hleads' := hrested.leads
  rw [hfront, ← hrested.emitted] at hleads'
  refine ⟨fun last hlast => (hleads'.last hlast).symm.zero rfl, later.flatMap Emission.segments,
    ?_, fun first hfirst => (hlater.leads.head hfirst).zero rfl⟩
  have hsplit : planner.traced.run calls = (planner.traced.run (before ++ [call])).run after := by
    rw [← run_append, List.append_assoc, List.singleton_append, hcalls]
  rw [← haccount.emitted, Planner.emitted, hsplit, hlater.accepted]
  rfl

theorem emitted_speeds_continue_sample :
    (sample.emitted joinedCalls).map (fun segment => (segment.v0, segment.v1)) =
      (if (sample.run [goTo 10.0]).turnsSharply (goTo 20.0) then
        [(0.0, 5000.0), (5000.0, 5000.0), (5000.0, 0.0), (0.0, 5000.0), (5000.0, 5000.0),
          (5000.0, 0.0)]
      else [(0.0, 5000.0), (5000.0, 5000.0), (5000.0, 5000.0), (5000.0, 0.0)]) ++
        [(0.0, 5000.0), (5000.0, 5000.0), (5000.0, 0.0)] ∧
    (sample.run [goTo 10.0, goTo 20.0]).halt.Succeeds ∧
    (sample.emitted joinedCalls).IsChain (fun a b => SameSpeed a.v1 b.v0) ∧
    (∀ first ∈ (sample.emitted joinedCalls).head?, (first.v0 == 0.0) = true) ∧
    (∀ last ∈ (sample.emitted [goTo 10.0, goTo 20.0, .halt]).getLast?, (last.v1 == 0.0) = true) ∧
    ∃ later, sample.emitted joinedCalls = sample.emitted [goTo 10.0, goTo 20.0, .halt] ++ later ∧
      ∀ first ∈ later.head?, (first.v0 == 0.0) = true := by
  obtain ⟨hchain, hstart, hrested⟩ :=
    emitted_speeds_continue make_sample (accepting_recorder sample.backend) joinedCalls
  have hhalted : (sample.run [goTo 10.0, goTo 20.0]).halt.Succeeds :=
    halt_of_accepting fun _ => accepting_recorder _
  refine ⟨?_, hhalted, hchain, hstart, hrested [goTo 10.0, goTo 20.0] .halt _ rfl hhalted⟩
  rw [joinedCalls, emitted_second]
  cases (sample.run [goTo 10.0]).turnsSharply (goTo 20.0) <;> decide +kernel

end StepMotion.Planner
