import StepMotion.Proofs.Planner.Ledger

/-! No step is lost: what was handed over and what is still in the window make up the steps that
were queued, move by move and in order. -/
namespace StepMotion.Planner

variable {β : Type}

/-- Segments that make exactly one move. -/
structure BlockOf (block : List Segment) (move : Move) : Prop where
  ne_nil : block ≠ []
  length_le : block.length ≤ 3
  total : ∀ axis, Segment.total block axis = move.steps axis

theorem blockOf_segments {emission : Emission} (h : emission.move.steps ≠ .zero) :
    BlockOf emission.segments emission.move.bare where
  ne_nil := Move.segments_ne_nil h _
  length_le := Move.length_segments_le _ _
  total := Move.total_segments _ _

section Moves

variable {out : List Emission} {window queued : List Move}
  (h : (out.map Emission.move ++ window).map Move.bare = queued)

include h

theorem take_of_moves : queued.take out.length = out.map fun emission => emission.move.bare := by
  rw [← h, List.map_append, List.take_append_of_le_length (by simp), List.take_of_length_le
    (by simp), List.map_map]
  rfl

theorem drop_of_moves : queued.drop out.length = window.map Move.bare := by
  rw [← h, List.map_append, List.drop_left' (by simp)]

theorem blocks_of_moves (hmoving : ∀ emission ∈ out, emission.move.steps ≠ .zero) :
    List.Forall₂ BlockOf (out.map Emission.segments) (queued.take out.length) := by
  rw [take_of_moves h, List.forall₂_map_left_iff, List.forall₂_map_right_iff, List.forall₂_same]
  exact fun emission hemission => blockOf_segments (hmoving emission hemission)

end Moves

variable [MotorBackend β]

section Account

variable {planner : Planner (Traced β)} {calls : List Call} {out : List Emission}

theorem Account.take (h : Account planner calls out) :
    (planner.queued calls).take out.length = out.map fun emission => emission.move.bare :=
  take_of_moves h.moves

theorem Account.drop (h : Account planner calls out) :
    (planner.queued calls).drop out.length = (planner.run calls).window.map Move.bare :=
  drop_of_moves h.moves

theorem Account.blocks (h : Account planner calls out) :
    List.Forall₂ BlockOf (out.map Emission.segments) ((planner.queued calls).take out.length) :=
  blocks_of_moves h.moves h.moving

end Account

theorem sum_total {blocks : List (List Segment)} {moves : List Move}
    (h : List.Forall₂ BlockOf blocks moves) (axis : Axis) :
    Segment.total blocks.flatten axis = (moves.map fun move => move.steps axis).sum := by
  induction h with
  | nil => rfl
  | cons hblock hrest ih =>
    rw [List.flatten_cons, Segment.total_append, hblock.total, ih, List.map_cons, List.sum_cons]

/-- The steps of the segments and those still in the window are the ones that were queued. -/
theorem total_of_moves {out : List Emission} {window queued : List Move}
    (h : (out.map Emission.move ++ window).map Move.bare = queued)
    (hmoving : ∀ emission ∈ out, emission.move.steps ≠ .zero) (axis : Axis) :
    Segment.total (out.flatMap Emission.segments) axis +
        (window.map fun move => move.steps axis).sum =
      (queued.map fun move => move.steps axis).sum := by
  have hsent := sum_total (blocks_of_moves h hmoving) axis
  have hkept : (window.map fun move => move.steps axis).sum =
      ((queued.drop out.length).map fun move => move.steps axis).sum := by
    rw [drop_of_moves h, List.map_map]
    rfl
  rw [← List.flatMap_def] at hsent
  rw [hsent, hkept, ← List.sum_append, ← List.map_append, List.take_append_drop]

theorem stepPosition_run {planner : Planner β} (hlookahead : 0 < planner.lookahead)
    (calls : List Call) (axis : Axis) :
    (planner.run calls).stepPosition axis = planner.stepPosition axis +
      (((planner.queued calls).map fun move => move.steps axis).sum +
        ((planner.jumps calls).map fun jump => jump axis).sum) := by
  obtain ⟨out, hchanges⟩ := planner.run_changes hlookahead calls
  rw [hchanges.stepPosition, Event.sum_shift]
  rfl

variable {config : MachineConfig} {wiring : Wiring} {backend : β} {lookahead : Nat}
  {planner : Planner β}

/-- Every move that left the window did so as one block of one to three segments, in the order in
which the moves were queued, and the others are still in the window. So on each axis the segments
and the window make up the way from the origin, less the jumps. -/
theorem emitted_blocks (hmake : make config wiring backend lookahead = .ok planner)
    (haccepting : MotorBackend.Accepting backend) (calls : List Call) :
    (∃ blocks : List (List Segment), planner.emitted calls = blocks.flatten ∧
      List.Forall₂ BlockOf blocks ((planner.queued calls).take blocks.length) ∧
      (planner.run calls).window.map Move.bare = (planner.queued calls).drop blocks.length) ∧
    ∀ axis, Segment.total (planner.emitted calls) axis +
        ((planner.run calls).window.map fun move => move.steps axis).sum =
      (planner.run calls).stepPosition axis -
        ((planner.jumps calls).map fun jump => jump axis).sum := by
  obtain ⟨out, haccount⟩ := exists_account_of_make hmake haccepting calls
  have hblocks := haccount.blocks
  have hwindow := haccount.drop
  rw [queued_traced] at hblocks hwindow
  rw [window_run_traced] at hwindow
  have hemitted : planner.emitted calls = (out.map Emission.segments).flatten :=
    haccount.emitted
  refine ⟨⟨out.map Emission.segments, hemitted, ?_, ?_⟩, fun axis => ?_⟩
  · rwa [List.length_map]
  · rw [List.length_map, hwindow]
  · obtain ⟨hlookahead, hplanner⟩ := make_eq_ok hmake
    have hpositive : 0 < planner.lookahead := by rwa [hplanner]
    have hstart : planner.stepPosition axis = 0 := by rw [hplanner]; exact Steps.get_zero axis
    have hposition := stepPosition_run hpositive calls axis
    have hsent : Segment.total (planner.emitted calls) axis =
        (((planner.queued calls).take out.length).map fun move => move.steps axis).sum := by
      rw [hemitted]
      exact sum_total hblocks axis
    have hkept : ((planner.run calls).window.map fun move => move.steps axis).sum =
        (((planner.queued calls).drop out.length).map fun move => move.steps axis).sum := by
      rw [hwindow, List.map_map]
      rfl
    have hall : ((planner.queued calls).map fun move => move.steps axis).sum =
        (((planner.queued calls).take out.length).map fun move => move.steps axis).sum +
          (((planner.queued calls).drop out.length).map fun move => move.steps axis).sum := by
      rw [← List.sum_append, ← List.map_append, List.take_append_drop]
    omega

theorem emitted_blocks_sample :
    (sample.emitted joinedCalls).map (fun segment => segment.steps .x) =
      (if (sample.run [goTo 10.0]).turnsSharply (goTo 20.0) then
        [125, 750, 125, 125, 750, 125] else [125, 875, 875, 125]) ++ [-125, -50, -125] ∧
    (sample.jumps joinedCalls).map (fun jump => jump .x) = [-1700] ∧
    (∃ blocks : List (List Segment), sample.emitted joinedCalls = blocks.flatten ∧
      List.Forall₂ BlockOf blocks ((sample.queued joinedCalls).take blocks.length) ∧
      (sample.run joinedCalls).window.map Move.bare =
        (sample.queued joinedCalls).drop blocks.length) ∧
    ∀ axis, Segment.total (sample.emitted joinedCalls) axis +
        ((sample.run joinedCalls).window.map fun move => move.steps axis).sum =
      (sample.run joinedCalls).stepPosition axis -
        ((sample.jumps joinedCalls).map fun jump => jump axis).sum := by
  refine ⟨?_, ?_, emitted_blocks make_sample (accepting_recorder sample.backend) joinedCalls⟩
  · rw [joinedCalls, emitted_second]
    cases (sample.run [goTo 10.0]).turnsSharply (goTo 20.0) <;> decide +kernel
  · simp only [jumps, joinedCalls, history]
    rw [perform_eq_performTurning (sample.perform (goTo 10.0)).state (goTo 20.0)]
    cases (sample.perform (goTo 10.0)).state.turnsSharply (goTo 20.0) <;> decide +kernel

end StepMotion.Planner
