import StepMotion.Proofs.Planner.Ledger
import StepMotion.Proofs.Planner.Refusal

/-! Where a planner rests. It is idle exactly while no move waits, and the window becomes empty in
no other way than by handing the last move over down to rest: whatever fails and whenever, the next
path starts where the machine stands still. -/
namespace StepMotion

theorem Window.segments_suffix_blocks {window : List Move} {last : Move}
    (h : window.getLast? = some last) : last.segments 0.0 <:+ (blocks window).flatten := by
  induction window with
  | nil => simp at h
  | cons move rest ih =>
    rw [blocks, List.flatten_cons]
    cases rest with
    | nil =>
      obtain rfl : move = last := by simpa using h
      exact ⟨[], by simp [blocks, entrySpeed]⟩
    | cons next rest => exact (ih (by simpa using h)).trans (List.suffix_append _ _)

namespace Planner

open Window

variable {β : Type}

/-- The last move that a path puts into the window. -/
def lastMove? (path : List Event) : Option Move := (path.filterMap Event.move?).getLast?

theorem lastMove?_append (path path' : List Event) :
    lastMove? (path ++ path') = (lastMove? path').or (lastMove? path) := by
  rw [lastMove?, List.filterMap_append, List.getLast?_append]
  rfl

/-- A planner is idle while no move waits, and not draining while one does. -/
def Rested (planner : Planner β) : Prop :=
  planner.state = if planner.window = [] then .idle else .buffering

theorem rested_of_idle {planner : Planner β} (hwindow : planner.window = [])
    (hstate : planner.state = .idle) : planner.Rested := by
  rw [Rested, if_pos hwindow, hstate]

theorem rested_of_buffering {planner : Planner β} (hwindow : planner.window ≠ [])
    (hstate : planner.state = .buffering) : planner.Rested := by
  rw [Rested, if_neg hwindow, hstate]

theorem rested_settle {planner : Planner β} (h : planner.window = []) : planner.settle.Rested := by
  refine rested_of_idle (planner.settle_window.trans h) ?_
  simp [settle, h]

section Emptying

variable [MotorBackend β]

theorem Change.window_ne_nil {first second : Planner β} {path : List Event} {out : List Emission}
    (h : Change first path out second) (hpath : .halted ∉ path) (hwindow : first.window ≠ []) :
    second.window ≠ [] := by
  cases h with
  | push hplan => exact push_window_ne_nil _ _
  | replan =>
    apply List.ne_nil_of_length_pos
    simpa [List.length_pos_iff] using hwindow
  | emit => exact List.cons_ne_nil _ _
  | drain => simp at hpath
  | halt => simp at hpath
  | _ => exact hwindow

theorem Changes.window_ne_nil {first second : Planner β} {path : List Event} {out : List Emission}
    (h : Changes first path out second) (hpath : .halted ∉ path) (hwindow : first.window ≠ []) :
    second.window ≠ [] := by
  induction h with
  | refl => exact hwindow
  | step hchange hrest ih =>
    rw [List.mem_append, not_or] at hpath
    exact ih hpath.2 (hchange.window_ne_nil hpath.1 hwindow)

variable {planner : Planner β}

theorem enqueue_buffers (hlookahead : 0 < planner.lookahead) {target : Register Float}
    {feedrate : Float} {move : Move} (h : planner.requested? target feedrate = some move) :
    (planner.enqueue target feedrate).state.window ≠ [] ∧
      (planner.enqueue target feedrate).state.state = .buffering := by
  let aimed := planner.aim target (planner.stepPosition.add move.steps)
  have hpushed := push_window_ne_nil aimed move
  have hahead : 0 < (aimed.push move).lookahead := by
    unfold push
    split <;> exact hlookahead
  obtain ⟨out, hchanges⟩ := emitSettled_changes hpushed hahead
  have hwindow := hchanges.window_ne_nil List.not_mem_nil hpushed
  have hstate : (aimed.push move).emitSettled.state.state = .buffering := by
    rw [emitSettled_frame]
    exact state_push aimed move
  rw [enqueue_of_requested h]
  refine Attempt.state_andThen
    (P := fun left : Planner β => left.window ≠ [] ∧ left.state = .buffering)
    ⟨hwindow, hstate⟩ fun _ => ?_
  have hsettle : (aimed.push move).emitSettled.state.settle =
      (aimed.push move).emitSettled.state := by
    simp [settle, hwindow]
  change (aimed.push move).emitSettled.state.settle.window ≠ [] ∧
    (aimed.push move).emitSettled.state.settle.state = .buffering
  rw [hsettle]
  exact ⟨hwindow, hstate⟩

theorem rested_enqueue (h : planner.Rested) (hlookahead : 0 < planner.lookahead)
    (target : Register Float) (feedrate : Float) :
    (planner.enqueue target feedrate).state.Rested := by
  cases hrequest : planner.requested? target feedrate with
  | none =>
    obtain ⟨position, henqueue⟩ := enqueue_of_ignored hrequest
    rw [henqueue]
    exact h
  | some move =>
    obtain ⟨hwindow, hstate⟩ := enqueue_buffers hlookahead hrequest
    exact rested_of_buffering hwindow hstate

theorem rested_halt (planner : Planner β) : planner.halt.state.Rested := by
  by_cases hempty : planner.window = []
  · rw [halt_of_idle hempty]
    exact rested_settle hempty
  · obtain ⟨out, hchanges, hdrained⟩ := planner.halt_changes
    by_cases hsent : planner.drained.Succeeds
    · rw [halt_of_accepted hempty hsent] at hdrained ⊢
      exact rested_of_idle (hdrained (Attempt.succeeds_done _)) rfl
    · have hfailed : ¬ planner.halt.Succeeds := by
        rw [halt_of_refused hempty hsent]
        exact hsent
      rw [events, if_neg hfailed] at hchanges
      refine rested_of_buffering (hchanges.window_ne_nil List.not_mem_nil hempty) ?_
      rw [halt_of_refused hempty hsent]
      rfl

theorem rested_setPosition (h : planner.Rested) (position : Register Float) :
    (planner.setPosition position).state.Rested := by
  cases hsteps : stepsOf? planner.config planner.wiring position with
  | none =>
    rw [setPosition_of_out_of_range hsteps]
    exact h
  | some steps =>
    by_cases hdone : planner.halt.Succeeds
    · rw [setPosition_of_halted hsteps hdone]
      exact planner.rested_halt
    · rw [setPosition_of_refused hsteps hdone]
      exact planner.rested_halt

theorem rested_perform (h : planner.Rested) (hlookahead : 0 < planner.lookahead) (call : Call) :
    (planner.perform call).state.Rested := by
  cases call with
  | enqueue target feedrate => exact rested_enqueue h hlookahead target feedrate
  | halt => exact planner.rested_halt
  | setPosition position => exact rested_setPosition h position

theorem Reachable.rested (h : planner.Reachable) : planner.Rested := by
  induction h with
  | make h =>
    obtain ⟨-, rfl⟩ := make_eq_ok h
    rfl
  | perform hreachable call ih => exact rested_perform ih hreachable.braked.1 call
  | lend hreachable backend ih => exact ih

end Emptying

section Landing

variable [MotorBackend β]

/-- The states between calls, with the path that the calls described and the segments that the
backend took from them. -/
inductive ReachedBy : List Event → List Segment → Planner β → Prop where
  | make {config : MachineConfig} {wiring : Wiring} {backend : β} {lookahead : Nat}
      {planner : Planner β} (h : Planner.make config wiring backend lookahead = .ok planner) :
      ReachedBy [] [] planner
  | perform {path : List Event} {sent : List Segment} {planner : Planner β}
      (h : ReachedBy path sent planner) (call : Call) :
      ReachedBy (path ++ planner.events call) (sent ++ planner.emitted [call])
        (planner.perform call).state
  | lend {path : List Event} {sent : List Segment} {planner : Planner β}
      (h : ReachedBy path sent planner) (backend : β) :
      ReachedBy path sent { planner with backend := backend }

theorem reachable_iff {planner : Planner β} :
    planner.Reachable ↔ ∃ path sent, ReachedBy path sent planner := by
  constructor
  · intro h
    induction h with
    | make h => exact ⟨[], [], .make h⟩
    | perform hreachable call ih =>
      obtain ⟨path, sent, hreached⟩ := ih
      exact ⟨_, _, hreached.perform call⟩
    | lend hreachable backend ih =>
      obtain ⟨path, sent, hreached⟩ := ih
      exact ⟨path, sent, hreached.lend backend⟩
  · rintro ⟨path, sent, h⟩
    induction h with
    | make h => exact .make h
    | perform hreached call ih => exact .perform ih call
    | lend hreached backend ih => exact .lend ih backend

variable {planner : Planner β} {path : List Event} {sent : List Segment}

/-- The last segments are those of the last move of the path, left at rest. -/
def Landed (path : List Event) (sent : List Segment) : Prop :=
  ∃ move : Move, lastMove? path = some move.bare ∧ move.steps ≠ .zero ∧
    move.segments 0.0 <:+ sent

/-- What the path and the segments say of a planner: the last move waits in the window, or it was
handed over down to rest. -/
structure Pursued (path : List Event) (sent : List Segment) (planner : Planner β) : Prop where
  back : ∀ last ∈ planner.window.getLast?, lastMove? path = some last.bare
  rest : planner.window = [] → sent = [] ∨ Landed path sent

theorem getLast_replan {frontEntry : Float} {window : List Move} {last : Move}
    (h : (replan frontEntry window).getLast? = some last) :
    window.getLast?.map Move.bare = some last.bare := by
  rw [map_bare_getLast, ← map_unplanned_replan frontEntry, ← map_bare_getLast, h]
  rfl

theorem lastMove?_events (planner : Planner β) (call : Call) :
    lastMove? (planner.events call) = planner.added? call := by
  rw [lastMove?, moves_events]
  cases planner.added? call <;> rfl

theorem lastMove?_planned (hplanned : planner.Planned) (h : Pursued path sent planner)
    {call : Call} {last : Move} (hlast : (planner.planned call).getLast? = some last) :
    lastMove? (path ++ planner.events call) = some last.bare := by
  rw [lastMove?_append, lastMove?_events]
  obtain ⟨move, feedrate, hadded, hplan, hpush⟩ | ⟨hadded, hsame | hreplan⟩ :=
    planner.planned_cases call
  · obtain ⟨cap, -, hwindow⟩ := window_push hplanned move
    rw [hpush, hwindow] at hlast
    have hmove := getLast_replan hlast
    rw [List.getLast?_concat, Option.map_some] at hmove
    rw [hadded, ← hmove]
    exact congrArg some (Move.bare_of_plan hplan).symm
  · rw [hsame] at hlast
    rw [hadded]
    exact h.back last hlast
  · rw [hreplan] at hlast
    obtain ⟨back, hback, hbare⟩ := Option.map_eq_some_iff.mp (getLast_replan hlast)
    rw [hadded, ← hbare]
    exact h.back back hback

theorem pursued_of_nothing_planned (hplanned : planner.Planned) (h : Pursued path sent planner)
    {call : Call} (hnone : planner.planned call = []) :
    sent = [] ∨ Landed (path ++ planner.events call) sent := by
  obtain ⟨move, -, -, -, hpush⟩ | ⟨hadded, hsame⟩ := planner.planned_cases call
  · exact absurd (hpush.symm.trans hnone) (push_window_ne_nil planner move)
  · have hempty : planner.window = [] := by
      by_contra hwindow
      obtain ⟨front, rest, hcons⟩ := List.exists_cons_of_ne_nil hwindow
      obtain ⟨behind, hbehind⟩ := hplanned.planned_cons hcons call
      exact List.cons_ne_nil front behind (hbehind.symm.trans hnone)
    unfold Landed
    rw [lastMove?_append, lastMove?_events, hadded]
    exact h.rest hempty

theorem Pursued.perform (hreachable : planner.Reachable) (h : Pursued path sent planner)
    (call : Call) :
    Pursued (path ++ planner.events call) (sent ++ planner.emitted [call])
      (planner.perform call).state := by
  obtain ⟨k, part, refused, hdelivers, hwhole⟩ : ∃ k part refused,
      Delivers planner.traced (planner.planned call) k part refused
        (planner.traced.perform call).state ∧
      ((planner.planned call).drop k = [] → part = []) := by
    obtain ⟨-, k, -, hdelivers⟩ | ⟨-, -, k, part, segment, rest, hblock, hdelivers⟩ :=
      delivered_traced hreachable.planned call
    · exact ⟨k, [], [], hdelivers, fun _ => rfl⟩
    · refine ⟨k, part, [segment], hdelivers, fun hnone => ?_⟩
      obtain ⟨hk, -⟩ := List.getElem?_eq_some_iff.mp hblock
      rw [length_blocks] at hk
      exact absurd (List.drop_eq_nil_iff.mp hnone) hk.not_ge
  have hwindow : (planner.perform call).state.window = (planner.planned call).drop k := by
    rw [← window_perform_traced, hdelivers.window]
  have hemitted : planner.emitted [call] =
      ((blocks (planner.planned call)).take k).flatten ++ part := hdelivers.accepted
  constructor
  · intro last hlast
    rw [hwindow, Option.mem_def, List.getLast?_drop] at hlast
    split at hlast
    · contradiction
    · exact lastMove?_planned hreachable.planned h hlast
  · intro hempty
    rw [hwindow] at hempty
    rw [hemitted, hwhole hempty, List.append_nil,
      List.take_of_length_le (by simpa using List.drop_eq_nil_iff.mp hempty)]
    cases hlast : (planner.planned call).getLast? with
    | none =>
      have hnone := List.getLast?_eq_none_iff.mp hlast
      rw [hnone, blocks, List.flatten_nil, List.append_nil]
      exact pursued_of_nothing_planned hreachable.planned h hnone
    | some last =>
      exact .inr ⟨last, lastMove?_planned hreachable.planned h hlast,
        hreachable.moving_planned call last (List.mem_of_getLast? hlast),
        (segments_suffix_blocks hlast).trans (List.suffix_append _ _)⟩

theorem ReachedBy.pursued (h : ReachedBy path sent planner) : Pursued path sent planner := by
  induction h with
  | make h =>
    obtain ⟨-, rfl⟩ := make_eq_ok h
    exact ⟨by simp, fun _ => .inl rfl⟩
  | perform hreached call ih => exact ih.perform (reachable_iff.mpr ⟨_, _, hreached⟩) call
  | lend hreached backend ih => exact ⟨ih.back, ih.rest⟩

/-- Between calls a planner is idle exactly if no move waits, and then the last segment that the
backend took is the last one of the last move, down to rest. The speed into the window is the one
that was handed over, and a request that adds a move leaves one waiting. -/
theorem rests_only_when_landed (h : ReachedBy path sent planner) :
    planner.state ≠ .draining ∧
    (planner.state = .idle ↔ planner.window = []) ∧
    (planner.window = [] → planner.frontEntry = 0.0 ∧
      ∀ last ∈ sent.getLast?, ∃ move : Move, lastMove? path = some move.bare ∧
        move.segments 0.0 <:+ sent ∧ last ∈ (move.segments 0.0).getLast?) ∧
    (∀ front ∈ planner.window.head?, front.entry = planner.frontEntry) ∧
    ∀ target feedrate move, planner.requested? target feedrate = some move →
      (planner.enqueue target feedrate).state.window ≠ [] := by
  have hreachable : planner.Reachable := reachable_iff.mpr ⟨path, sent, h⟩
  have hstate : planner.state = if planner.window = [] then .idle else .buffering :=
    hreachable.rested
  have hfront : planner.frontEntry = entrySpeed planner.window := hreachable.planned.front
  refine ⟨?_, ?_, fun hempty => ⟨?_, fun last hlast => ?_⟩, fun front hhead => ?_, ?_⟩
  · rw [hstate]
    split <;> decide
  · rw [hstate]
    by_cases hempty : planner.window = [] <;> simp [hempty]
  · rw [hfront, hempty]
    rfl
  · obtain hnone | ⟨move, hmove, hsteps, part, hpart⟩ := h.pursued.rest hempty
    · simp [hnone] at hlast
    · refine ⟨move, hmove, ⟨part, hpart⟩, ?_⟩
      rw [← hpart, List.getLast?_append_of_ne_nil _ (Move.segments_ne_nil hsteps 0.0)] at hlast
      exact hlast
  · obtain ⟨rest, hcons⟩ := List.head?_eq_some_iff.mp hhead
    rw [hfront, hcons]
    rfl
  · intro target feedrate move hrequest
    exact (enqueue_buffers hreachable.braked.1 hrequest).1

def mendedSample : Planner Limited :=
  { brittleSample.run [goTo 10.0, .halt] with
    backend := { remaining := 8, failure := .queueClosed } }

theorem rests_only_when_landed_sample :
    (brittleSample.run [goTo 10.0, .halt]).state = .buffering ∧
    (mendedSample.run [.halt]).window.length = 0 ∧
    (mendedSample.run [.halt]).state = .idle ∧
    ∃ path sent, ReachedBy path sent (mendedSample.run [.halt]) ∧ sent.length = 4 ∧
      ∀ last ∈ sent.getLast?, ∃ move : Move, lastMove? path = some move.bare ∧
        move.segments 0.0 <:+ sent ∧ last ∈ (move.segments 0.0).getLast? := by
  have hstart : ReachedBy [] [] brittleSample := .make (make_sample_over _)
  have hbroken := (hstart.perform (goTo 10.0)).perform .halt
  have hmended : ReachedBy _ _ (mendedSample.run [.halt]) :=
    (hbroken.lend { remaining := 8, failure := .queueClosed }).perform .halt
  have hempty : (mendedSample.run [.halt]).window.length = 0 := by decide +kernel
  obtain ⟨-, hidle, hrest, -⟩ := rests_only_when_landed hmended
  have hwindow := List.eq_nil_of_length_eq_zero hempty
  exact ⟨by decide +kernel, hempty, hidle.mpr hwindow, _, _, hmended, by decide +kernel,
    (hrest hwindow).2⟩

end Landing
end Planner
end StepMotion
