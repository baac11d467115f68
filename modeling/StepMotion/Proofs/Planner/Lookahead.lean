import Mathlib.Data.List.DropRight
import StepMotion.Proofs.Planner.SharpCorners
import StepMotion.Proofs.Planner.StepLedger

/-! What waits in the window. The moves since the path was last at rest may still change, as far
back as the lookahead goes; they are in the window, and no others. -/
namespace StepMotion

open Move

namespace Window

theorem settledCount_eq_zero {window : List Move}
    (h : ∀ move ∈ window.tail, move.stopsBefore = false) : settledCount window = 0 := by
  cases window with
  | nil => rfl
  | cons front rest =>
    have hnone : rest.any Move.stopsBefore = false := by simpa using h
    simp [settledCount, hnone]

theorem forall_tail_replan {window : List Move}
    (h : ∀ move ∈ window.tail, move.stopsBefore = false) (frontEntry : Float) :
    ∀ move ∈ (replan frontEntry window).tail, move.stopsBefore = false := by
  have hsame : (replan frontEntry window).tail.map unplanned = window.tail.map unplanned := by
    rw [List.map_tail, map_unplanned_replan, List.map_tail]
  exact (forall_mem_congr (fun _ => Iff.rfl) hsame).mpr h

end Window

namespace Planner

open Window

section Lists

variable {α : Type}

theorem drop_rtake_concat (l : List α) (x : α) {n : Nat} (hn : 0 < n) :
    (l.rtake n ++ [x]).drop ((l.rtake n).length + 1 - n) = (l ++ [x]).rtake n := by
  unfold List.rtake
  rw [← List.drop_append_of_le_length (Nat.sub_le _ _), List.drop_drop]
  congr 1
  simp only [List.length_drop, List.length_append, List.length_singleton]
  omega

theorem rtake_of_suffix {l l' : List α} (h : l <:+ l') (n : Nat) :
    l.rtake n = l'.rtake (min n l.length) := by
  obtain ⟨before, rfl⟩ := h
  have hplace : (before ++ l).length - min n l.length = before.length + (l.length - n) := by
    rw [List.length_append]
    omega
  rw [List.rtake, List.rtake, hplace, List.drop_length_add_append]

end Lists

/-- The path stops between two moves: the corner is sharp, or one of them has no speed. -/
def stopsBetween (threshold : Float) (last move : Move) : Bool :=
  Corner.isSharp threshold (Corner.angle last.direction move.direction) ||
    Binary64.lesser last.cruise move.cruise == 0.0

theorem stopsBetween_eq (threshold : Float) (last move : Move) :
    stopsBetween threshold last move = (Corner.speedCap threshold last.direction last.cruise
      move.direction move.cruise == 0.0) := by
  unfold stopsBetween Corner.speedCap
  split
  · next hsharp =>
    rw [hsharp]
    rfl
  · next hshallow => rw [Bool.eq_false_iff.mpr hshallow, Bool.false_or]

def sinceRestThen (threshold : Float) (moves : List Move) : Event → List Move
  | .queued move =>
    if moves.getLast?.any fun last => !stopsBetween threshold last move then moves ++ [move]
    else [move]
  | .halted => []
  | .rebased _ => []

/-- The moves since the path was last at rest. The one behind a stop is the first. -/
def sinceRest (threshold : Float) (path : List Event) : List Move :=
  path.foldl (sinceRestThen threshold) []

theorem sinceRest_append (threshold : Float) (path path' : List Event) :
    sinceRest threshold (path ++ path') =
      path'.foldl (sinceRestThen threshold) (sinceRest threshold path) := List.foldl_append

theorem sinceRest_suffix (threshold : Float) (path : List Event) :
    sinceRest threshold path <:+ path.filterMap Event.move? := by
  induction path using List.reverseRecOn with
  | nil => exact List.suffix_rfl
  | append_singleton path event ih =>
    rw [sinceRest_append, List.filterMap_append, List.foldl_cons, List.foldl_nil]
    cases event with
    | queued move =>
      change _ <:+ path.filterMap Event.move? ++ [move]
      have hfirst : [move] <:+ path.filterMap Event.move? ++ [move] := List.suffix_append _ _
      have hlonger : sinceRest threshold path ++ [move] <:+
          path.filterMap Event.move? ++ [move] := by
        obtain ⟨before, hbefore⟩ := ih
        exact ⟨before, by rw [← hbefore, List.append_assoc]⟩
      rw [sinceRestThen]
      split
      · exact hlonger
      · exact hfirst
    | halted => exact List.nil_suffix
    | rebased jump => exact List.nil_suffix

variable {β : Type}

/-- The window holds the last of the moves since rest, and the path goes on between them. -/
structure Buffers (moves : List Move) (planner : Planner β) : Prop where
  window : planner.window.map bare = moves.rtake planner.lookahead
  goesOn : ∀ move ∈ planner.window.tail, move.stopsBefore = false

namespace Buffers

variable {moves : List Move} {planner : Planner β}

theorem frame (h : Buffers moves planner) {other : Planner β}
    (hwindow : other.window = planner.window) (hlookahead : other.lookahead = planner.lookahead) :
    Buffers moves other where
  window := by rw [hwindow, hlookahead, h.window]
  goesOn := by rw [hwindow]; exact h.goesOn

theorem of_empty (h : planner.window = []) : Buffers [] planner where
  window := by rw [h, List.rtake_nil]; rfl
  goesOn := by simp [h]

theorem of_setOut [MotorBackend β] (hlookahead : 0 < planner.lookahead) (target : Register Float)
    {move : Move} (hbare : move.bare = move) : Buffers [move] (planner.setOut target move) where
  window := by
    have hall : [move].rtake planner.lookahead = [move] := by
      rw [List.rtake, List.length_singleton, Nat.sub_eq_zero_of_le hlookahead, List.drop_zero]
    change [move.bare] = [move].rtake planner.lookahead
    rw [hbare, hall]
  goesOn := by simp [setOut]

theorem getLast? (h : Buffers moves planner) (hlookahead : 0 < planner.lookahead) :
    moves.getLast? = planner.window.getLast?.map bare := by
  rw [← List.getLast?_map, h.window, List.rtake, List.getLast?_drop]
  split
  · next hempty =>
    have hnone : moves = [] := List.length_eq_zero_iff.mp (by omega)
    rw [hnone]
    rfl
  · rfl

end Buffers

variable [MotorBackend β] {planner : Planner β} {moves : List Move}

theorem window_emitFront_of_accepting (h : MotorBackend.Accepting planner.backend) (count : Nat) :
    (emitFront count planner).state.window = planner.window.drop count := by
  induction count generalizing planner with
  | zero => rfl
  | succ count ih =>
    match hwindow : planner.window with
    | [] =>
      rw [emitFront_of_empty _ hwindow]
      exact hwindow
    | move :: rest =>
      rw [emitFront_of_accepted count hwindow (h _)]
      exact ih (MotorBackend.kept_accepting.enqueueAll _ h)

namespace Buffers

theorem emitSettled (haccepting : MotorBackend.Accepting planner.backend)
    (hgoes : ∀ move ∈ planner.window.tail, move.stopsBefore = false) :
    planner.emitSettled.state.window =
      planner.window.drop (planner.window.length - planner.lookahead) := by
  have hnone : planner.emitSettled =
      emitFront (planner.window.length - planner.lookahead) planner := by
    unfold Planner.emitSettled
    rw [settledCount_eq_zero hgoes]
    rfl
  rw [hnone, window_emitFront_of_accepting haccepting]

theorem emitSettled_push (h : Buffers moves planner) (hlookahead : 0 < planner.lookahead)
    (haccepting : MotorBackend.Accepting planner.backend) {last move : Move}
    (hlast : planner.window.getLast? = some last) (hbare : move.bare = move)
    (hgoes : stopsBetween planner.config.thresholdAngle last move = false) :
    Buffers (moves ++ [move]) (planner.push move).emitSettled.state := by
  have hpushed := (push_of_getLast hlast move).1
  have hnonempty : planner.window ≠ [] := List.ne_nil_of_mem (List.mem_of_getLast? hlast)
  have hopen : ∀ other ∈ (planner.push move).window.tail, other.stopsBefore = false := by
    rw [hpushed]
    refine forall_tail_replan ?_ _
    rw [List.tail_append_of_ne_nil hnonempty, List.forall_mem_append, List.forall_mem_singleton]
    rw [stopsBetween_eq] at hgoes
    exact ⟨h.goesOn, hgoes⟩
  have hframe : (planner.push move).lookahead = planner.lookahead := by
    unfold push
    split <;> rfl
  have hleft := emitSettled ((backend_push planner move).symm ▸ haccepting) hopen
  have hsettled : (planner.push move).emitSettled.state.lookahead = planner.lookahead := by
    rw [emitSettled_frame]
    exact hframe
  have hqueue : (planner.push move).window.map bare = moves.rtake planner.lookahead ++ [move] := by
    have hplaced : (planner.push move).window.map unplanned = (planner.window ++
        [{ move with entryCap := planner.cornerCap last move }]).map unplanned := by
      rw [hpushed, map_unplanned_replan]
    have hbared := congrArg (List.map bare) hplaced
    rw [List.map_map, List.map_map] at hbared
    change (planner.push move).window.map bare = (planner.window ++ [_]).map bare at hbared
    rw [hbared, List.map_append, h.window]
    exact congrArg (_ ++ [·]) hbare
  constructor
  · have hlength := congrArg List.length hqueue
    rw [hsettled, hleft, hframe, List.map_drop, hqueue, ← drop_rtake_concat _ _ hlookahead]
    simp only [List.length_map, List.length_append, List.length_singleton] at hlength
    rw [hlength]
  · intro other hother
    rw [hleft, List.tail_drop, ← List.drop_tail] at hother
    exact hopen other (List.mem_of_mem_drop hother)

theorem enqueue (h : Buffers moves planner) (hreachable : planner.Reachable)
    (haccepting : MotorBackend.Accepting planner.backend) (target : Register Float)
    (feedrate : Float) :
    Buffers ((planner.events (.enqueue target feedrate)).foldl
      (sinceRestThen planner.config.thresholdAngle) moves)
      (planner.enqueue target feedrate).state := by
  have hlookahead := hreachable.braked.1
  cases hrequest : planner.requested? target feedrate with
  | none =>
    obtain ⟨position, hignored⟩ := enqueue_of_ignored hrequest
    simp only [events, hrequest, hignored, Option.toList_none, List.map_nil, List.foldl_nil]
    exact h.frame rfl rfl
  | some move =>
    have hbare := bare_of_plan (requested?_plan hrequest)
    have hback := h.getLast? hlookahead
    simp only [events, hrequest, Option.toList_some, List.map_cons, List.map_nil, List.foldl_cons,
      List.foldl_nil, sinceRestThen, hback]
    cases hlast : planner.window.getLast? with
    | none =>
      have hempty := List.getLast?_eq_none_iff.mp hlast
      rw [enqueue_at_rest hlookahead hempty hrequest]
      exact .of_setOut hlookahead target hbare
    | some last =>
      have hsame : stopsBetween planner.config.thresholdAngle last.bare move =
          stopsBetween planner.config.thresholdAngle last move := rfl
      simp only [Option.map_some, Option.any_some, hsame]
      cases hstop : stopsBetween planner.config.thresholdAngle last move with
      | true =>
        rw [stopsBetween_eq] at hstop
        have hstopped : (planner.enqueue target feedrate).state =
            planner.halt.state.setOut target move :=
          congrArg Attempt.state
            (hreachable.perform_of_sharp haccepting hlast hstop hrequest).1
        obtain ⟨out, hchanges, -⟩ := planner.halt_changes
        rw [← hchanges.lookahead.2] at hlookahead
        rw [hstopped]
        exact .of_setOut hlookahead target hbare
      | false =>
        let aimed := planner.aim target (planner.stepPosition.add move.steps)
        have haimed : Buffers moves aimed := h.frame rfl rfl
        have hpushed : MotorBackend.Accepting (aimed.push move).backend := by
          rw [backend_push]
          exact haccepting
        rw [enqueue_of_requested hrequest,
          Attempt.andThen_of_succeeds (emitSettled_of_accepting hpushed)]
        refine (haimed.emitSettled_push hlookahead haccepting hlast hbare hstop).frame
          (settle_window _) ?_
        change (aimed.push move).emitSettled.state.settle.lookahead = _
        unfold settle
        split <;> rfl

theorem perform (h : Buffers moves planner) (hreachable : planner.Reachable)
    (haccepting : MotorBackend.Accepting planner.backend) (call : Call) :
    Buffers ((planner.events call).foldl (sinceRestThen planner.config.thresholdAngle) moves)
      (planner.perform call).state := by
  have hhalts : planner.halt.Succeeds := halt_of_accepting fun _ => haccepting
  cases call with
  | enqueue target feedrate => exact h.enqueue hreachable haccepting target feedrate
  | halt =>
    obtain ⟨-, -, hempty⟩ := planner.halt_changes
    simp only [events, hhalts, ↓reduceIte]
    exact .of_empty (hempty hhalts)
  | setPosition position =>
    by_cases hset : (planner.setPosition position).Succeeds
    · obtain ⟨-, -, hempty⟩ := planner.setPosition_changes position
      simp only [events, hset, ↓reduceIte]
      exact .of_empty (hempty hset)
    · have hrefused : stepsOf? planner.config planner.wiring position = none := by
        cases hsteps : stepsOf? planner.config planner.wiring position with
        | none => rfl
        | some steps =>
          rw [setPosition_of_halted hsteps hhalts] at hset
          exact absurd (Attempt.succeeds_done _) hset
      simp only [events, hset, ↓reduceIte, List.foldl_nil, Planner.perform]
      rw [setPosition_of_out_of_range hrefused]
      exact h

theorem run (h : Buffers moves planner) (hreachable : planner.Reachable)
    (haccepting : MotorBackend.Accepting planner.backend) (calls : List Call) :
    Buffers ((planner.history calls).foldl (sinceRestThen planner.config.thresholdAngle) moves)
      (planner.run calls) := by
  induction calls generalizing planner moves with
  | nil => exact h
  | cons call rest ih =>
    obtain ⟨out, hchanges, -⟩ := planner.perform_changes hreachable.braked.1 call
    have hafter := ih (h.perform hreachable haccepting call) (hreachable.perform call)
      (hchanges.backend MotorBackend.kept_accepting haccepting)
    rw [hchanges.lookahead.1] at hafter
    rw [history, List.foldl_append, run_cons]
    exact hafter

end Buffers

variable {config : MachineConfig} {wiring : Wiring} {backend : β} {lookahead : Nat}

/-- The window holds the last of the moves since rest, as many as the lookahead allows, with no stop
behind the first. All moves before them were handed over. -/
theorem window_holds_what_may_change (hmake : make config wiring backend lookahead = .ok planner)
    (haccepting : MotorBackend.Accepting backend) (calls : List Call) :
    let window := (planner.run calls).window
    let queued := planner.queued calls
    let waiting := min lookahead
      (sinceRest config.thresholdAngle (planner.history calls)).length
    window.map bare = queued.rtake waiting ∧
    window.length = waiting ∧
    (∀ move ∈ window.tail, move.stopsBefore = false) ∧
    ∃ out : List Emission, planner.emitted calls = out.flatMap Emission.segments ∧
      out.map (fun emission => emission.move.bare) = queued.take (queued.length - waiting) := by
  have hreachable : planner.Reachable := .make hmake
  obtain ⟨out, haccount⟩ := exists_account_of_make hmake haccepting calls
  have hstart : planner.config = config ∧ planner.lookahead = lookahead ∧
      planner.backend = backend ∧ planner.window = [] := by
    rw [(make_eq_ok hmake).2]
    exact ⟨rfl, rfl, rfl, rfl⟩
  obtain ⟨rfl, rfl, rfl, hempty⟩ := hstart
  have hbuffers : Buffers (sinceRest planner.config.thresholdAngle (planner.history calls))
      (planner.run calls) := (Buffers.of_empty hempty).run hreachable haccepting calls
  have hkept : (planner.run calls).lookahead = planner.lookahead := by
    obtain ⟨changed, hchanges⟩ := planner.run_changes hreachable.braked.1 calls
    exact hchanges.lookahead.2
  have hsuffix : sinceRest planner.config.thresholdAngle (planner.history calls) <:+
      planner.queued calls := sinceRest_suffix _ _
  have hwindow := hbuffers.window
  rw [hkept, rtake_of_suffix hsuffix] at hwindow
  have hlength : (planner.run calls).window.length = min planner.lookahead
      (sinceRest planner.config.thresholdAngle (planner.history calls)).length := by
    have hsame := congrArg List.length hwindow
    have hfewer := hsuffix.length_le
    rw [List.length_map, List.rtake, List.length_drop] at hsame
    omega
  have hsplit := congrArg List.length haccount.moves
  rw [window_run_traced, queued_traced, List.length_map, List.length_append, List.length_map,
    hlength] at hsplit
  have htaken := haccount.take
  rw [queued_traced] at htaken
  refine ⟨hwindow, hlength, hbuffers.goesOn, out, haccount.emitted, ?_⟩
  rw [← hsplit, Nat.add_sub_cancel, htaken]

def narrowSample : Planner Recorder := { sample with lookahead := 1 }

/-- At a lookahead of one the first of two moves overflows it; a corner that is a stop hands the
first over even though a second would fit; behind the front of a longer window there is no stop. -/
theorem window_holds_what_may_change_sample :
    ((narrowSample.emitted [goTo 10.0, goTo 20.0]).map (fun segment => (segment.v0, segment.v1)) =
        (if (narrowSample.run [goTo 10.0]).turnsSharply (goTo 20.0) then
          [(0.0, 5000.0), (5000.0, 5000.0), (5000.0, 0.0)]
        else [(0.0, 5000.0), (5000.0, 5000.0)]) ∧
      (narrowSample.run [goTo 10.0, goTo 20.0]).window.map bare =
        (narrowSample.queued [goTo 10.0, goTo 20.0]).rtake 1 ∧
      ∃ out : List Emission,
        narrowSample.emitted [goTo 10.0, goTo 20.0] = out.flatMap Emission.segments ∧
        out.map (fun emission => emission.move.bare) =
          (narrowSample.queued [goTo 10.0, goTo 20.0]).take
            ((narrowSample.queued [goTo 10.0, goTo 20.0]).length - 1)) ∧
    ((sinceRest slowSample.config.thresholdAngle
        (slowSample.history [goTo 10.0, creepTo 20.0])).length = 1 ∧
      (slowSample.emitted [goTo 10.0, creepTo 20.0]).length = 3 ∧
      (slowSample.run [goTo 10.0, creepTo 20.0]).window.map bare =
        (slowSample.queued [goTo 10.0, creepTo 20.0]).rtake 1 ∧
      ∃ out : List Emission,
        slowSample.emitted [goTo 10.0, creepTo 20.0] = out.flatMap Emission.segments ∧
        out.map (fun emission => emission.move.bare) =
          (slowSample.queued [goTo 10.0, creepTo 20.0]).take
            ((slowSample.queued [goTo 10.0, creepTo 20.0]).length - 1)) ∧
    (sample.run [goTo 10.0, goTo 20.0]).window.length =
      (if (sample.run [goTo 10.0]).turnsSharply (goTo 20.0) then 1 else 2) ∧
    (sample.run [goTo 10.0, goTo 20.0]).window.length = min 2
      (sinceRest sample.config.thresholdAngle (sample.history [goTo 10.0, goTo 20.0])).length ∧
    ∀ move ∈ (sample.run [goTo 10.0, goTo 20.0]).window.tail, move.stopsBefore = false := by
  have hmake : make narrowSample.config narrowSample.wiring narrowSample.backend 1 =
      .ok narrowSample := make_of_valid firstOffence_sample Nat.one_pos _ _
  obtain ⟨hnarrow, hnarrowLength, -, hnarrowSent⟩ :=
    window_holds_what_may_change hmake (accepting_recorder _) [goTo 10.0, goTo 20.0]
  obtain ⟨hslow, hslowLength, -, hslowSent⟩ := window_holds_what_may_change make_slowSample
    (accepting_recorder _) [goTo 10.0, creepTo 20.0]
  obtain ⟨-, hlength, hgoesOn, -⟩ :=
    window_holds_what_may_change make_sample (accepting_recorder _) [goTo 10.0, goTo 20.0]
  have hnarrowOne : (narrowSample.run [goTo 10.0, goTo 20.0]).window.length = 1 := by
    rw [run_second]
    cases (narrowSample.run [goTo 10.0]).turnsSharply (goTo 20.0) <;> decide +kernel
  have hslowOne : (slowSample.run [goTo 10.0, creepTo 20.0]).window.length = 1 := by
    rw [run_second]
    cases (slowSample.run [goTo 10.0]).turnsSharply (creepTo 20.0) <;> decide +kernel
  rw [← hnarrowLength, hnarrowOne] at hnarrow hnarrowSent
  rw [← hslowLength, hslowOne] at hslow hslowSent
  refine ⟨⟨?_, hnarrow, hnarrowSent⟩, ⟨by omega, ?_, hslow, hslowSent⟩, ?_, hlength, hgoesOn⟩
  · rw [emitted_second]
    cases (narrowSample.run [goTo 10.0]).turnsSharply (goTo 20.0) <;> decide +kernel
  · rw [emitted_second]
    cases (slowSample.run [goTo 10.0]).turnsSharply (creepTo 20.0) <;> decide +kernel
  · rw [run_second]
    cases (sample.run [goTo 10.0]).turnsSharply (goTo 20.0) <;> decide +kernel

end Planner
end StepMotion
