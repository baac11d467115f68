import StepMotion.Proofs.Planner.Refusal
import StepMotion.Proofs.Planner.StepLedger

/-! What was queued is handed over, whatever the backend refuses on the way. A refused move stays in
the window and is offered again from its first segment, so the accepted segments hold all segments
of the moves that left the window, in order, and perhaps some more. -/
namespace StepMotion.Planner

variable {β : Type}

/-- The moves that were queued so far, all of them handed over but for those in the window. -/
structure Tally (moves : List Move) (planner : Planner (Traced β)) : Prop where
  lookahead : 0 < planner.lookahead
  moving : ∀ move ∈ moves, move.bare = move ∧ move.steps ≠ .zero
  account : ∃ path out, Ledger path out planner ∧ path.filterMap Event.move? = moves ∧
    (out.flatMap Emission.segments).Sublist planner.backend.accepted

namespace Tally

variable {moves : List Move} {planner : Planner (Traced β)}

theorem start (hlookahead : 0 < planner.lookahead) (hplanned : planner.Planned)
    (hempty : planner.window = []) : Tally [] planner where
  lookahead := hlookahead
  moving := List.forall_mem_nil _
  account := ⟨[], [], .start hplanned hempty, rfl, List.nil_sublist _⟩

theorem lend (h : Tally moves planner) {backend : Traced β}
    (hbackend : backend.accepted = planner.backend.accepted) :
    Tally moves { planner with backend := backend } where
  lookahead := h.lookahead
  moving := h.moving
  account := by
    obtain ⟨path, out, hledger, hpath, hsent⟩ := h.account
    rw [← hbackend] at hsent
    exact ⟨path, out, hledger.frame rfl rfl rfl, hpath, hsent⟩

theorem handedOver (h : Tally moves planner) (hempty : planner.window = []) :
    ∃ blocks, List.Forall₂ BlockOf blocks moves ∧
      blocks.flatten.Sublist planner.backend.accepted := by
  obtain ⟨path, out, hledger, hpath, hsent⟩ := h.account
  have hmoves : (out.map Emission.move ++ planner.window).map Move.bare = moves := by
    rw [← hpath] at h ⊢
    exact hledger.queued fun move hmove =>
      (h.moving move (List.mem_filterMap.mpr ⟨_, hmove, rfl⟩)).1
  have hall : moves.length = out.length := by
    rw [← hmoves, hempty, List.append_nil, List.length_map, List.length_map]
  have hblocks := blocks_of_moves hmoves (moving_of_queued hmoves fun move hmove =>
    (h.moving move hmove).2)
  rw [← hall, List.take_length] at hblocks
  exact ⟨_, hblocks, hsent⟩

end Tally

variable [MotorBackend β] {moves : List Move} {first second planner : Planner (Traced β)}
  {path : List Event} {out : List Emission}

/-- Of a refused move too, some segments may be taken. -/
theorem Change.accepted_sublist (h : Change first path out second) :
    (first.backend.accepted ++ out.flatMap Emission.segments).Sublist second.backend.accepted := by
  cases h with
  | push hplan =>
    rw [backend_push, List.flatMap_nil, List.append_nil]
  | emit hwindow hsent =>
    rw [List.flatMap_singleton]
    exact (MotorBackend.accepted_enqueueAll hsent).symm ▸ .refl _
  | drain hwindow hsent =>
    rw [List.flatMap_singleton]
    exact (MotorBackend.accepted_enqueueAll hsent).symm ▸ .refl _
  | @refuse move rest hwindow hsent =>
    obtain ⟨part, segment, others, -, hcalls⟩ := MotorBackend.calls_enqueueAll_of_refused hsent
    have haccepted : (first.offer move rest).state.accepted = first.backend.accepted ++ part := by
      rw [Traced.accepted, offer, hcalls, List.filterMap_append,
        MotorCall.filterMap_accepted_handing]
      rfl
    rw [List.flatMap_nil, List.append_nil]
    change first.backend.accepted.Sublist (first.offer move rest).state.accepted
    rw [haccepted]
    exact List.sublist_append_left _ _
  | _ =>
    rw [List.flatMap_nil, List.append_nil]

theorem Changes.accepted_sublist (h : Changes first path out second) :
    (first.backend.accepted ++ out.flatMap Emission.segments).Sublist second.backend.accepted := by
  induction h with
  | refl => rw [List.flatMap_nil, List.append_nil]
  | step hchange hrest ih =>
    rw [List.flatMap_append, ← List.append_assoc]
    exact (hchange.accepted_sublist.append_right _).trans ih

theorem Tally.changes (h : Tally moves first) (hchanges : Changes first path out second) :
    Tally (moves ++ path.filterMap Event.move?) second where
  lookahead := hchanges.lookahead.2 ▸ h.lookahead
  moving := by
    rw [List.forall_mem_append]
    exact ⟨h.moving, fun move hmove => hchanges.queued (mem_of_filterMap_move hmove)⟩
  account := by
    obtain ⟨path, sent, hledger, hpath, hsent⟩ := h.account
    refine ⟨_, _, hledger.changes hchanges, ?_, ?_⟩
    · rw [List.filterMap_append, hpath]
    · rw [List.flatMap_append]
      exact (hsent.append_right _).trans hchanges.accepted_sublist

theorem Tally.perform (h : Tally moves planner) (call : Call) :
    Tally (moves ++ (planner.added? call).toList) (planner.perform call).state := by
  obtain ⟨out, hchanges, -⟩ := planner.perform_changes h.lookahead call
  rw [← moves_events]
  exact h.changes hchanges

theorem Tally.perform_of_none (h : Tally moves planner) {call : Call}
    (hnone : planner.added? call = none) : Tally moves (planner.perform call).state := by
  have hperformed := h.perform call
  rwa [hnone, Option.toList_none, List.append_nil] at hperformed

end StepMotion.Planner
