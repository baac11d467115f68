import StepMotion.Motor.Limited
import StepMotion.Proofs.Planner.Braking
import StepMotion.Proofs.Planner.Handover

/-! What a failure of the backend leaves behind. The moves before the one that was refused are gone,
that one and those behind it stay in the window as they were planned, and whatever is called next
begins with that move from its first segment. -/
namespace StepMotion

namespace Window

/-- Every move in the window makes a step. -/
def Moving (window : List Move) : Prop := ∀ move ∈ window, move.steps ≠ .zero

theorem take_blocks_ne_nil {front : Move} (h : front.steps ≠ .zero) (behind : List Move) {k : Nat}
    (hk : k ≠ 0) : ((blocks (front :: behind)).take k).flatten ≠ [] := by
  obtain ⟨k, rfl⟩ := Nat.exists_eq_succ_of_ne_zero hk
  rw [blocks, List.take_succ_cons, List.flatten_cons]
  exact List.append_ne_nil_of_left_ne_nil (Move.segments_ne_nil h _) _

end Window

namespace Planner

open Window

variable {β : Type}

theorem Planned.replan_cons {planner : Planner β} (h : planner.Planned) {front : Move}
    {rest : List Move} (hwindow : planner.window = front :: rest) (added : List Move) :
    ∃ behind, Window.replan planner.frontEntry (planner.window ++ added) = front :: behind := by
  have hfront := h.front
  rw [hwindow] at hfront ⊢
  rw [hfront]
  exact ⟨_, rfl⟩

def added? (planner : Planner β) : Call → Option Move
  | .enqueue target feedrate => planner.requested? target feedrate
  | _ => none

theorem least_of_added {planner : Planner β} {call : Call} {move : Move}
    (h : planner.added? call = some move) : Move.leastSteps ≤ move.steps.count := by
  cases call with
  | enqueue target feedrate => exact (Move.plan?_eq_some (requested?_plan h)).2.1
  | halt => contradiction
  | setPosition position => contradiction

theorem moves_events [MotorBackend β] (planner : Planner β) (call : Call) :
    (planner.events call).filterMap Event.move? = (planner.added? call).toList := by
  cases call with
  | enqueue target feedrate =>
    simp only [events, added?]
    cases planner.requested? target feedrate <;> rfl
  | halt =>
    simp only [events, added?]
    split <;> rfl
  | setPosition position =>
    simp only [events, added?]
    split <;> rfl

/-- A call adds a move and plans anew, or it plans the same moves anew, or not even that. -/
theorem planned_cases (planner : Planner β) (call : Call) :
    (∃ move feedrate, planner.added? call = some move ∧
        Move.plan? planner.config move.steps feedrate = some move ∧
        planner.planned call = (planner.push move).window) ∨
      planner.added? call = none ∧ (planner.planned call = planner.window ∨
        planner.planned call = replan planner.frontEntry planner.window) := by
  cases call with
  | enqueue target feedrate =>
    cases hrequest : planner.requested? target feedrate with
    | none => exact .inr ⟨hrequest, .inl (by simp only [planned, hrequest])⟩
    | some move =>
      exact .inl ⟨move, feedrate, hrequest, requested?_plan hrequest, by
        simp only [planned, hrequest]⟩
  | halt => exact .inr ⟨rfl, .inr rfl⟩
  | setPosition position =>
    refine .inr ⟨rfl, ?_⟩
    simp only [planned]
    split
    · exact .inr rfl
    · exact .inl rfl

section Keeps

variable {P : Move → Prop} {S : Float → Prop} {planner : Planner β} (hkeeps : Keeps P S)
  (h : planner.Planned) (hwindow : ∀ move ∈ planner.window, P move)

include hkeeps h hwindow

/-- What planning keeps holds of all moves that a call plans if it holds of the one it adds. -/
theorem Planned.forall_mem_planned {call : Call}
    (hadded : ∀ move, planner.added? call = some move → P move ∧
      ∀ last ∈ planner.window, P { move with entryCap := planner.cornerCap last move }) :
    ∀ move ∈ planner.planned call, P move := by
  obtain ⟨move, -, hmove, -, hpush⟩ | ⟨-, hsame | hreplan⟩ := planner.planned_cases call
  · obtain ⟨hplain, hcapped⟩ := hadded move hmove
    rw [hpush]
    exact h.forall_mem_push hkeeps hwindow hplain hcapped
  · rwa [hsame]
  · rw [hreplan]
    exact hkeeps.replan (h.speed_frontEntry hkeeps hwindow) hwindow

end Keeps

theorem Planned.forall_steps_planned {P : Steps → Prop} {planner : Planner β} (h : planner.Planned)
    (hwindow : ∀ move ∈ planner.window, P move.steps) {call : Call}
    (hadded : ∀ move, planner.added? call = some move → P move.steps) :
    ∀ move ∈ planner.planned call, P move.steps :=
  h.forall_mem_planned (keeps_steps P) hwindow fun move hmove =>
    ⟨hadded move hmove, fun _ _ => hadded move hmove⟩

theorem Planned.planned_cons {planner : Planner β} (h : planner.Planned) {front : Move}
    {rest : List Move} (hwindow : planner.window = front :: rest) (call : Call) :
    ∃ behind, planner.planned call = front :: behind := by
  obtain ⟨move, -, -, -, hpush⟩ | ⟨-, hsame | hreplan⟩ := planner.planned_cases call
  · obtain ⟨cap, -, hpushed⟩ := window_push h move
    rw [hpush, hpushed]
    exact h.replan_cons hwindow _
  · exact ⟨rest, hsame.trans hwindow⟩
  · have hreplanned := h.replan_cons hwindow []
    rwa [List.append_nil, ← hreplan] at hreplanned

theorem planned_traced (planner : Planner β) (call : Call) :
    planner.traced.planned call = planner.planned call := by
  cases call with
  | enqueue target feedrate =>
    have hrequest : planner.traced.requested? target feedrate =
        planner.requested? target feedrate := rfl
    simp only [planned, hrequest]
    cases planner.requested? target feedrate with
    | none => rfl
    | some move =>
      exact congrArg Planner.window
        (push_map (fun backend => (⟨backend, []⟩ : Traced β)) planner move)
  | halt => rfl
  | setPosition position => rfl

variable [MotorBackend β]

theorem Reachable.planned {planner : Planner β} (h : planner.Reachable) : planner.Planned :=
  h.braked.2.1

/-- The segments that the backend is offered in the course of a call, in order. -/
def offered (planner : Planner β) (call : Call) : List Segment :=
  (planner.traced.perform call).state.backend.offered

theorem perform_traced (planner : Planner β) (call : Call) :
    planner.perform call = (planner.traced.perform call).map (map Traced.inner) := by
  rw [← perform_map Traced.inner_morphism, map_inner_traced]

theorem delivered_traced {planner : Planner β} (h : planner.Planned) (call : Call) :
    Delivered planner.traced (planner.planned call) (Refused (planner.perform call))
      (planner.traced.perform call).state := by
  have htraced : planner.traced.Planned := h.frame rfl rfl
  rw [perform_traced, ← planned_traced]
  exact perform_delivered htraced call

theorem window_perform_traced (planner : Planner β) (call : Call) :
    (planner.traced.perform call).state.window = (planner.perform call).state.window := by
  rw [planner.perform_traced call]
  rfl

theorem exists_window_eq_drop {planner : Planner β} (h : planner.Planned) (call : Call) :
    ∃ k, (planner.perform call).state.window = (planner.planned call).drop k := by
  rw [← window_perform_traced]
  obtain ⟨-, k, -, hdelivers⟩ | ⟨-, -, k, part, segment, rest, -, hdelivers⟩ :=
    delivered_traced h call
  · exact ⟨k, hdelivers.window⟩
  · exact ⟨k, hdelivers.window⟩

theorem Planned.forall_mem_perform {P : Move → Prop} {S : Float → Prop} {planner : Planner β}
    (hkeeps : Keeps P S) (h : planner.Planned) (hwindow : ∀ move ∈ planner.window, P move)
    {call : Call} (hadded : ∀ move, planner.added? call = some move → P move ∧
      ∀ last ∈ planner.window, P { move with entryCap := planner.cornerCap last move }) :
    ∀ move ∈ (planner.perform call).state.window, P move := by
  intro move hmove
  obtain ⟨k, hleft⟩ := exists_window_eq_drop h call
  rw [hleft] at hmove
  exact h.forall_mem_planned hkeeps hwindow hadded move (List.mem_of_mem_drop hmove)

theorem Planned.forall_steps_perform {P : Steps → Prop} {planner : Planner β} (h : planner.Planned)
    (hwindow : ∀ move ∈ planner.window, P move.steps) {call : Call}
    (hadded : ∀ move, planner.added? call = some move → P move.steps) :
    ∀ move ∈ (planner.perform call).state.window, P move.steps :=
  h.forall_mem_perform (keeps_steps P) hwindow fun move hmove =>
    ⟨hadded move hmove, fun _ _ => hadded move hmove⟩

theorem Reachable.least {planner : Planner β} (h : planner.Reachable) :
    ∀ move ∈ planner.window, Move.leastSteps ≤ move.steps.count := by
  induction h with
  | make h =>
    obtain ⟨-, rfl⟩ := make_eq_ok h
    exact List.forall_mem_nil _
  | perform hreachable call ih =>
    exact hreachable.planned.forall_steps_perform (P := fun steps => Move.leastSteps ≤ steps.count)
      ih fun _ => least_of_added
  | lend hreachable backend ih => exact ih

theorem Reachable.least_planned {planner : Planner β} (h : planner.Reachable) (call : Call) :
    ∀ move ∈ planner.planned call, Move.leastSteps ≤ move.steps.count :=
  h.planned.forall_steps_planned (P := fun steps => Move.leastSteps ≤ steps.count) h.least
    fun _ => least_of_added

theorem moving_of_least {window : List Move}
    (h : ∀ move ∈ window, Move.leastSteps ≤ move.steps.count) : Moving window :=
  fun move hmove => Steps.ne_zero_of_count (Nat.lt_of_lt_of_le (by decide) (h move hmove))

theorem Reachable.moving {planner : Planner β} (h : planner.Reachable) : Moving planner.window :=
  moving_of_least h.least

theorem Reachable.moving_planned {planner : Planner β} (h : planner.Reachable) (call : Call) :
    Moving (planner.planned call) :=
  moving_of_least (h.least_planned call)

/-- Whatever the answers, the planned moves are offered from the first on. -/
theorem offered_prefix {planner : Planner β} (h : planner.Planned) (call : Call) :
    planner.offered call <+: (blocks (planner.planned call)).flatten := by
  have hstart : planner.traced.backend.offered = [] := rfl
  rw [offered]
  obtain ⟨-, k, -, hdelivers⟩ | ⟨-, -, k, part, segment, rest, hblock, hdelivers⟩ :=
    delivered_traced h call
  · rw [hdelivers.offered, hstart, List.nil_append, List.append_nil, List.append_nil]
    exact (List.take_prefix k _).flatten
  · have hsplit : (blocks (planner.planned call)).flatten =
        ((blocks (planner.planned call)).take k).flatten ++ (part ++ segment :: rest) ++
          ((blocks (planner.planned call)).drop (k + 1)).flatten := by
      conv_lhs => rw [← List.take_append_drop (k + 1) (blocks (planner.planned call))]
      rw [List.take_add_one, hblock]
      simp
    rw [hdelivers.offered, hstart, hsplit]
    exact ⟨rest ++ ((blocks (planner.planned call)).drop (k + 1)).flatten, by simp⟩

/-- States that a planner comes to without offering a segment. -/
inductive Quiet : Planner β → Planner β → Prop where
  | refl (planner : Planner β) : Quiet planner planner
  | perform {planner later : Planner β} (h : Quiet planner later) (call : Call)
      (hnone : later.offered call = []) : Quiet planner (later.perform call).state
  | lend {planner later : Planner β} (h : Quiet planner later) (backend : β) :
      Quiet planner { later with backend := backend }

theorem window_of_offered_nil {planner : Planner β} (hplanned : planner.Planned) {call : Call}
    {front : Move} {behind : List Move} (hcons : planner.planned call = front :: behind)
    (hfront : front.steps ≠ .zero) (h : planner.offered call = []) :
    (planner.perform call).state.window = front :: behind := by
  rw [offered] at h
  rw [← window_perform_traced]
  obtain ⟨-, k, -, hdelivers⟩ | ⟨-, -, k, part, segment, rest, -, hdelivers⟩ :=
    delivered_traced hplanned call
  · rw [hdelivers.offered, hcons] at h
    obtain ⟨-, h⟩ := List.append_eq_nil_iff.mp h
    rw [List.append_nil, List.append_nil] at h
    obtain rfl : k = 0 := by
      by_contra hk
      exact take_blocks_ne_nil hfront behind hk h
    rw [hdelivers.window, hcons]
    rfl
  · rw [hdelivers.offered] at h
    simp at h

/-- Nothing is passed over: the first move stays until it is offered. -/
theorem Quiet.window {planner later : Planner β} (h : Quiet planner later)
    (hreachable : planner.Reachable) {front : Move} {rest : List Move}
    (hwindow : planner.window = front :: rest) :
    later.Reachable ∧ ∃ behind, later.window = front :: behind := by
  induction h with
  | refl => exact ⟨hreachable, rest, hwindow⟩
  | @perform later _ call hnone ih =>
    obtain ⟨hlater, behind, hfront⟩ := ih
    have hmoves : front.steps ≠ .zero := hlater.moving front (by simp [hfront])
    obtain ⟨behind', hcons⟩ := hlater.planned.planned_cons hfront call
    exact ⟨hlater.perform call, behind',
      window_of_offered_nil hlater.planned hcons hmoves hnone⟩
  | lend _ backend ih =>
    obtain ⟨hlater, behind, hfront⟩ := ih
    exact ⟨hlater.lend backend, behind, hfront⟩

theorem offered_halt_ne_nil {planner : Planner β} (h : planner.Reachable) {front : Move}
    {rest : List Move} (hwindow : planner.window = front :: rest) : planner.offered .halt ≠ [] := by
  intro hnone
  obtain ⟨behind, hcons⟩ := h.planned.planned_cons hwindow .halt
  have hmoves : front.steps ≠ .zero := h.moving front (by simp [hwindow])
  have hleft : planner.halt.state.window = front :: behind :=
    window_of_offered_nil h.planned hcons hmoves hnone
  have htraced := delivered_traced h.planned .halt
  obtain ⟨hdone, -⟩ | ⟨-, -, k, part, segment, others, -, hdelivers⟩ := htraced
  · rw [perform, refused_within, not_not] at hdone
    obtain ⟨-, -, hempty⟩ := planner.halt_changes
    rw [hempty hdone] at hleft
    contradiction
  · rw [offered, hdelivers.offered] at hnone
    simp at hnone

/-- What a refused call leaves of the window that it planned. -/
structure Interrupted (planner : Planner β) (call : Call) (k : Nat) (move : Move) : Prop where
  refused : (planner.planned call)[k]? = some move
  /-- The first `k` moves were taken whole and the next one was not. -/
  taken : ∃ part segment rest,
    move.segments (entrySpeed ((planner.planned call).drop (k + 1))) = part ++ segment :: rest ∧
      planner.emitted [call] = ((blocks (planner.planned call)).take k).flatten ++ part
  window : (planner.perform call).state.window = (planner.planned call).drop k
  frontEntry : (planner.perform call).state.frontEntry =
    if k = 0 then planner.frontEntry else entrySpeed ((planner.planned call).drop k)
  state : (planner.perform call).state.state = .buffering
  /-- Whatever is offered next begins with the refused move. -/
  resumed : ∀ later, Quiet (planner.perform call).state later → ∀ next, ∃ behind,
    later.planned next = move :: behind ∧ later.offered next <+: (blocks (move :: behind)).flatten
  /-- A halt offers it. -/
  resumable : ∀ later, Quiet (planner.perform call).state later → later.offered .halt ≠ []

theorem Reachable.interrupted {planner : Planner β} (h : planner.Reachable) {call : Call}
    (hrefused : Refused (planner.perform call)) : ∃ k move, planner.Interrupted call k move := by
  obtain ⟨hdone, -⟩ | ⟨-, hstate, k, part, segment, rest, hblock, hdelivers⟩ :=
    delivered_traced h.planned call
  · contradiction
  obtain ⟨hk, -⟩ := List.getElem?_eq_some_iff.mp hblock
  rw [length_blocks] at hk
  have hmove : (planner.planned call)[k]? = some (planner.planned call)[k] :=
    List.getElem?_eq_getElem hk
  have hsame := hblock.symm.trans (getElem?_blocks hmove)
  have hleft : (planner.perform call).state =
      (planner.traced.perform call).state.map Traced.inner := by
    rw [planner.perform_traced call]
    rfl
  have hwindow : (planner.perform call).state.window =
      (planner.planned call)[k] :: (planner.planned call).drop (k + 1) := by
    rw [← window_perform_traced, hdelivers.window]
    exact List.drop_eq_getElem_cons hk
  refine ⟨k, (planner.planned call)[k], hmove,
    ⟨part, segment, rest, (Option.some.inj hsame).symm, ?_⟩, ?_, ?_, ?_, ?_, ?_⟩
  · exact hdelivers.accepted
  · rw [← window_perform_traced]
    exact hdelivers.window
  · rw [hleft]
    have hfront := hdelivers.frontEntry
    rw [hdelivers.window] at hfront
    exact hfront
  · rw [hleft]
    exact hstate
  · intro later hquiet next
    obtain ⟨hlater, behind, hfront⟩ := hquiet.window (h.perform call) hwindow
    obtain ⟨behind', hcons⟩ := hlater.planned.planned_cons hfront next
    have hprefix := offered_prefix hlater.planned next
    rw [hcons] at hprefix
    exact ⟨behind', hcons, hprefix⟩
  · intro later hquiet
    obtain ⟨hlater, behind, hfront⟩ := hquiet.window (h.perform call) hwindow
    exact offered_halt_ne_nil hlater hfront

theorem emitFront_target (count : Nat) (planner : Planner β) :
    (emitFront count planner).state.position = planner.position ∧
      (emitFront count planner).state.stepPosition = planner.stepPosition := by
  rw [emitFront_frame]
  exact ⟨rfl, rfl⟩

theorem halt_target {planner : Planner β} (h : ¬ planner.halt.Succeeds) :
    planner.halt.state.position = planner.position ∧
      planner.halt.state.stepPosition = planner.stepPosition := by
  have hempty : planner.window ≠ [] := by
    intro hempty
    rw [halt_of_idle hempty] at h
    exact h (Attempt.succeeds_done _)
  have hsent : ¬ planner.drained.Succeeds := by
    intro hsent
    rw [halt_of_accepted hempty hsent] at h
    exact h (Attempt.succeeds_done _)
  rw [halt_of_refused hempty hsent]
  exact emitFront_target planner.draining.window.length planner.draining

/-- A position that is not taken changes nothing about where the path ends, and one that has no
steps changes nothing at all. -/
theorem setPosition_of_failed {planner : Planner β} {position : Register Float}
    (h : ¬ (planner.setPosition position).Succeeds) :
    (planner.setPosition position).state.position = planner.position ∧
      (planner.setPosition position).state.stepPosition = planner.stepPosition ∧
      ((planner.setPosition position).outcome = .error .positionOutOfRange →
        (planner.setPosition position).state = planner) := by
  cases hsteps : stepsOf? planner.config planner.wiring position with
  | none =>
    rw [setPosition_of_out_of_range hsteps]
    exact ⟨rfl, rfl, fun _ => rfl⟩
  | some steps =>
    have hhalt : ¬ planner.halt.Succeeds := by
      intro hdone
      rw [setPosition_of_halted hsteps hdone] at h
      exact h (Attempt.succeeds_done _)
    rw [setPosition_of_refused hsteps hhalt]
    obtain ⟨hposition, hstepPosition⟩ := halt_target hhalt
    refine ⟨hposition, hstepPosition, fun hrange => ?_⟩
    obtain ⟨cause, hcause⟩ := (refused_within planner.halt id).mpr hhalt
    rw [hcause] at hrange
    cases Except.error.inj hrange

/-- A refused segment interrupts a call in front of the move it belongs to: the moves before that are
gone, it and those behind it stay, and what is offered next begins with it again. A position that
is not taken leaves the reported position and the end of the path. -/
theorem refusal_keeps_rest {planner : Planner β} (h : planner.Reachable) :
    (∀ call cause, (planner.perform call).outcome = .error (.motor cause) →
      ∃ k move, planner.Interrupted call k move) ∧
    ∀ position, ¬ (planner.setPosition position).Succeeds →
      (planner.setPosition position).state.position = planner.position ∧
      (planner.setPosition position).state.stepPosition = planner.stepPosition ∧
      ((planner.setPosition position).outcome = .error .positionOutOfRange →
        (planner.setPosition position).state = planner) :=
  ⟨fun _ cause hcause => h.interrupted ⟨cause, hcause⟩, fun _ => setPosition_of_failed⟩

def brittleSample : Planner Limited :=
  sample.map fun _ => { remaining := 1, failure := .queueClosed }

theorem refusal_keeps_rest_sample :
    ((brittleSample.perform (goTo 10.0)).state.perform .halt).outcome =
      .error (.motor .queueClosed) ∧
    ((brittleSample.perform (goTo 10.0)).state.emitted [.halt]).length = 1 ∧
    ∃ k move, (brittleSample.perform (goTo 10.0)).state.Interrupted .halt k move := by
  have hreachable : (brittleSample.perform (goTo 10.0)).state.Reachable :=
    .perform (.make (make_sample_over _)) (goTo 10.0)
  have hrefused : ((brittleSample.perform (goTo 10.0)).state.perform .halt).outcome =
      .error (.motor .queueClosed) := by decide +kernel
  exact ⟨hrefused, by decide +kernel, (refusal_keeps_rest hreachable).1 .halt _ hrefused⟩

end Planner
end StepMotion
