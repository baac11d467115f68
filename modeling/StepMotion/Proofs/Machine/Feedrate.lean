import StepMotion.Proofs.Machine.Errors
import StepMotion.Proofs.Machine.Power
import StepMotion.Proofs.Machine.Session
import StepMotion.Proofs.MoveList

/-! The feedrate that a machine remembers. Only a coordinated move is told one, so what stands on a
rapid line of a move list is forgotten. -/
namespace StepMotion.Machine

open MoveList MoveRequest

variable {β : Type} [MotorBackend β]

section Operations

omit [MotorBackend β] in
theorem feedrate_andThen {machine : Machine β} {attempt : Attempt MachineError (Machine β)}
    {next : Machine β → Attempt MachineError (Machine β)}
    (h : attempt.state.feedrate = machine.feedrate)
    (hnext : (next attempt.state).state.feedrate = attempt.state.feedrate) :
    (attempt.andThen next).state.feedrate = machine.feedrate :=
  Attempt.state_andThen (P := fun later : Machine β => later.feedrate = machine.feedrate) h
    fun _ => hnext.trans h

theorem feedrate_finish (machine : Machine β) :
    machine.finish.state.feedrate = machine.feedrate :=
  feedrate_andThen rfl rfl

omit [MotorBackend β] in
theorem feedrate_acknowledge (machine : Machine β) :
    machine.acknowledge.state.feedrate = machine.feedrate := by
  rw [state_acknowledge]

theorem feedrate_carryOut (machine : Machine β) (feedrate : Float) (target : Register Float) :
    (machine.carryOut feedrate target).state.feedrate = machine.feedrate := by
  unfold carryOut
  dsimp only
  generalize hpowered : (if machine.motorsOn then machine else machine.setMotors true) = powered
  have hsame : powered.feedrate = machine.feedrate := by
    rw [← hpowered]
    split <;> rfl
  apply feedrate_andThen hsame
  split
  · exact feedrate_finish _
  · rfl

theorem feedrate_of_move (machine : Machine β) {operation : Operation}
    (hmove : operation.isMove = true) :
    (machine.operate operation).state.feedrate = (machine.told operation).feedrate := by
  obtain ⟨-, error, hrefused⟩ | ⟨feedrate, target, -, hallowed⟩ := machine.move_cases hmove
  · rw [hrefused]
    rfl
  · rw [hallowed]
    exact feedrate_andThen (feedrate_carryOut _ feedrate target) (feedrate_acknowledge _)

theorem feedrate_operate (machine : Machine β) (operation : Operation) :
    (machine.operate operation).state.feedrate = (machine.told operation).feedrate := by
  cases operation with
  | coordinatedMove feedrate target => exact machine.feedrate_of_move rfl
  | rapidMove target => exact machine.feedrate_of_move rfl
  | markHomed => exact feedrate_andThen machine.feedrate_finish (feedrate_andThen rfl rfl)
  | setPosition position => rfl
  | enableMotors on =>
    cases on with
    | true => rfl
    | false => exact feedrate_andThen machine.feedrate_finish rfl
  | finish => exact machine.feedrate_finish

end Operations

section Requests

variable {machine : Machine β} {request : MoveRequest}

theorem feedrate_perform (machine : Machine β) (request : MoveRequest) :
    (machine.perform request).state.feedrate = request.told?.or machine.feedrate := by
  rw [perform_eq, feedrate_operate]
  unfold operationOf told?
  cases request.kind with
  | coordinated => cases request.feedrate <;> rfl
  | rapid => rfl
  | home => rfl

theorem feedrate_performAll {requests : List MoveRequest}
    (h : (machine.performAll requests).Succeeds) :
    (machine.performAll requests).state.feedrate =
      (requests.filterMap told?).getLast?.or machine.feedrate := by
  induction requests generalizing machine with
  | nil => rfl
  | cons request rest ih =>
    obtain ⟨hfirst, hrest⟩ := Attempt.succeeds_andThen.mp h
    rw [performAll, Attempt.andThen_of_succeeds hfirst, ih hrest, feedrate_perform,
      getLast?_filterMap_cons]

variable (hkind : request.kind = .coordinated)

include hkind

omit [MotorBackend β] in
theorem asked?_of_coordinated (machine : Machine β) :
    machine.asked? (machine.operationOf request) =
        (request.told?.or machine.feedrate).map (·, machine.position.override request.axes) ∧
      machine.told (machine.operationOf request) =
        { machine with feedrate := request.told?.or machine.feedrate } := by
  unfold operationOf told?
  rw [hkind]
  cases request.feedrate <;> exact ⟨rfl, rfl⟩

theorem perform_of_feedrate {feedrate : Float}
    (h : request.told?.or machine.feedrate = some feedrate) :
    machine.perform request = { machine with feedrate := some feedrate }.moveAt feedrate
      (machine.position.override request.axes) := by
  obtain ⟨hasked, htold⟩ := asked?_of_coordinated hkind machine
  rw [h] at hasked htold
  rw [perform_eq, operate_of_asked hasked, htold]

/-- A coordinated move wants a feedrate only if none was ever told. -/
theorem noFeedrate_iff : (machine.perform request).outcome = .error .noFeedrate ↔
    request.told?.or machine.feedrate = none := by
  obtain ⟨hasked, -⟩ := asked?_of_coordinated hkind machine
  have hmove : (machine.operationOf request).isMove = true := by
    unfold operationOf
    rw [hkind]
    rfl
  rw [perform_eq]
  constructor
  · intro herror
    cases hfeedrate : request.told?.or machine.feedrate with
    | none => rfl
    | some feedrate =>
      rw [hfeedrate] at hasked
      obtain hpassed | hrefused := error_of_asked hasked _ herror
      · contradiction
      · obtain hhomed | ⟨-, hoffence⟩ := refusal?_eq_some hrefused
        · contradiction
        · obtain ⟨axis, -, hsame⟩ := rangeOffence?_eq_some hoffence
          contradiction
  · intro hfeedrate
    rw [hfeedrate] at hasked
    rw [operate_of_unasked hmove hasked]
    rfl

end Requests

section Lists

/-- A coordinated line moves at the last feedrate on the lines up to it that ask for no rapid
move. -/
theorem feedrate_in_effect {config : MachineConfig} {wiring : Wiring} {backend : β}
    {sink : Option Sink} {machine : Machine β} {text : String} {done rest : List MoveRequest}
    {request : MoveRequest} (hmake : make config wiring backend sink = .ok machine)
    (hparse : parse text = .ok (done ++ request :: rest))
    (hdone : (machine.performAll done).Succeeds) (hkind : request.kind = .coordinated) :
    (∀ feedrate, feedrateOf? (unhurried (linesTo text request.line)) = some feedrate →
      (machine.performAll done).state.perform request =
        { (machine.performAll done).state with feedrate := some feedrate }.moveAt feedrate
          ((machine.performAll done).state.position.override request.axes)) ∧
    (((machine.performAll done).state.perform request).outcome = .error .noFeedrate ↔
      feedrateOf? (unhurried (linesTo text request.line)) = none) ∧
    ((∀ line ∈ linesTo text request.line, asksRapid line = true → feedsOf line = []) →
      feedrateOf? (unhurried (linesTo text request.line)) =
        feedrateOf? (linesTo text request.line)) := by
  have hstart : machine.feedrate = none := by
    obtain ⟨planner, -, rfl⟩ := make_eq_ok hmake
    rfl
  have heffect : request.told?.or (machine.performAll done).state.feedrate =
      feedrateOf? (unhurried (linesTo text request.line)) := by
    rw [feedrate_performAll hdone, hstart, Option.or_none, told?_of_parse hparse]
  rw [← heffect]
  exact ⟨fun feedrate => perform_of_feedrate hkind, noFeedrate_iff hkind,
    fun hrapid => heffect.trans (feedrateOf?_unhurried hrapid)⟩

def hurriedText : String := "X5 F50\nH\nR X10 F20\nX0"

def hurriedRequests : List MoveRequest :=
  [{ axes := [(.x, 5.0)], feedrate := some 50.0, line := 1 }, { kind := .home, line := 2 },
    { kind := .rapid, axes := [(.x, 10.0)], feedrate := some 20.0, line := 3 }]

theorem feedrate_in_effect_sample :
    (sample.performAll hurriedRequests).state.perform { axes := [(.x, 0.0)], line := 4 } =
      { (sample.performAll hurriedRequests).state with feedrate := some 50.0 }.moveAt 50.0
        ((sample.performAll hurriedRequests).state.position.override [(.x, 0.0)]) ∧
    feedrateOf? (linesTo hurriedText 4) = some 20.0 := by
  have hparse : parse hurriedText =
      .ok (hurriedRequests ++ [{ axes := [(.x, 0.0)], line := 4 }]) := by decide +kernel
  obtain ⟨hfeedrate, -, -⟩ := feedrate_in_effect make_sample hparse (by decide +kernel) rfl
  exact ⟨hfeedrate 50.0 (by decide +kernel), by decide +kernel⟩

/-- A feedrate is wanted although one was given, on a rapid line. -/
theorem feedrate_of_rapid_is_dropped :
    ∃ text first second, parse text = .ok [first, second] ∧ second.kind = .coordinated ∧
      feedrateOf? (linesTo text second.line) = some 20.0 ∧ (sample.performAll [first]).Succeeds ∧
      ((sample.performAll [first]).state.perform second).outcome = .error .noFeedrate :=
  ⟨"R X10 F20\nX0", { kind := .rapid, axes := [(.x, 10.0)], feedrate := some 20.0, line := 1 },
    { axes := [(.x, 0.0)], line := 2 }, by decide +kernel, rfl, by decide +kernel,
    by decide +kernel, by decide +kernel⟩

end Lists

end StepMotion.Machine
