import StepMotion.Proofs.Planner.Plan

/-! The account of a run from rest: which moves left the window, in which order, between which
speeds and below which caps. -/
namespace StepMotion

namespace Move

/-- The move as it was queued, before its corner and its speed were known. -/
def bare (move : Move) : Move := { move with entryCap := 0.0, entry := 0.0 }

theorem bare_of_plan {config : MachineConfig} {steps : Steps} {feedrate : Float} {move : Move}
    (h : plan? config steps feedrate = some move) : move.bare = move := by
  obtain ⟨-, -, hcap, hentry⟩ := plan?_eq_some h
  cases move
  simp only [bare] at hcap hentry ⊢
  rw [hcap, hentry]

end Move

namespace Planner

open Move

def lastQueued (path : List Event) : Option Move := path.getLast?.bind Event.move?

def capAfter (threshold : Float) (last : Option Move) (move : Move) : Float :=
  match last with
  | none => 0.0
  | some last => Corner.speedCap threshold last.direction last.cruise move.direction move.cruise

/-- The moves of a path with the caps of the corners between them. -/
def capped (threshold : Float) : Option Move → List Event → List Move
  | _, [] => []
  | last, .queued move :: rest =>
    { move with entryCap := capAfter threshold last move, entry := 0.0 } ::
      capped threshold (some move) rest
  | _, _ :: rest => capped threshold none rest

theorem lastQueued_append (path : List Event) (event : Event) :
    lastQueued (path ++ [event]) = event.move? := by
  rw [lastQueued, List.getLast?_concat]
  rfl

theorem capped_append (threshold : Float) (path path' : List Event) :
    capped threshold none (path ++ path') =
      capped threshold none path ++ capped threshold (lastQueued path) path' := by
  have hgeneral : ∀ last, capped threshold last (path ++ path') = capped threshold last path ++
      capped threshold (if path = [] then last else lastQueued path) path' := by
    induction path with
    | nil => simp [capped]
    | cons head rest ih =>
      intro last
      have hlast : lastQueued (head :: rest) =
          if rest = [] then head.move? else lastQueued rest := by
        cases rest with
        | nil => rfl
        | cons next rest => rfl
      rw [if_neg (by simp), hlast]
      cases head <;> simp only [List.cons_append, capped, ih, Event.move?]
  have hnone : (if path = [] then none else lastQueued path) = lastQueued path := by
    split
    · next hempty =>
      rw [hempty]
      rfl
    · rfl
  rw [hgeneral none, hnone]

/-- The emissions lead from the speed `v` to the speed `w`. -/
def Linked (v : Float) : List Emission → Float → Prop
  | [], w => v = w
  | emission :: rest, w => emission.move.entry = v ∧ Linked emission.exit rest w

theorem Linked.append {u v w : Float} {first second : List Emission} (hfirst : Linked u first v)
    (hsecond : Linked v second w) : Linked u (first ++ second) w := by
  induction first generalizing u with
  | nil => exact hfirst ▸ hsecond
  | cons emission rest ih => exact ⟨hfirst.1, ih hfirst.2⟩

variable {β : Type}

/-- The account of the moves that left the window and of those in it. -/
structure Ledger (path : List Event) (out : List Emission) (planner : Planner β) : Prop where
  planned : planner.Planned
  moves : (out.map Emission.move ++ planner.window).map unplanned =
    capped planner.config.thresholdAngle none path
  back : planner.window.getLast?.map bare = lastQueued path
  withinCap : ∀ emission ∈ out, emission.move.WithinCap
  linked : Linked 0.0 out planner.frontEntry

theorem Ledger.frame {path : List Event} {out : List Emission} {planner other : Planner β}
    (h : Ledger path out planner) (hconfig : other.config = planner.config)
    (hwindow : other.window = planner.window) (hfront : other.frontEntry = planner.frontEntry) :
    Ledger path out other where
  planned := h.planned.frame hwindow hfront
  moves := by rw [hwindow, hconfig, h.moves]
  back := by rw [hwindow, h.back]
  withinCap := h.withinCap
  linked := by rw [hfront]; exact h.linked

theorem Ledger.start {planner : Planner β} (hplanned : planner.Planned)
    (hempty : planner.window = []) : Ledger [] [] planner where
  planned := hplanned
  moves := by simp [hempty, capped]
  back := by simp [hempty, lastQueued]
  withinCap := by simp
  linked := (hplanned.frontEntry_of_empty hempty).symm

theorem Ledger.rest {path : List Event} {out : List Emission} {planner : Planner β}
    (h : Ledger path out planner) (hempty : planner.window = []) {event : Event}
    (hevent : event.move? = none) : Ledger (path ++ [event]) out planner where
  planned := h.planned
  moves := by
    have hcapped : ∀ last, capped planner.config.thresholdAngle last [event] = [] := by
      cases event <;> first | contradiction | exact fun _ => rfl
    rw [h.moves, capped_append, hcapped, List.append_nil]
  back := by rw [hempty, lastQueued_append, hevent]; rfl
  withinCap := h.withinCap
  linked := h.linked

theorem map_bare_getLast (window : List Move) :
    window.getLast?.map bare = (window.map unplanned).getLast?.map bare := by
  rw [List.getLast?_map, Option.map_map]
  rfl

theorem Ledger.replan {path : List Event} {out : List Emission} {planner : Planner β}
    (h : Ledger path out planner) :
    Ledger path out
      { planner with window := Window.replan planner.frontEntry planner.window } where
  planned := h.planned.replanned
  moves := by
    rw [List.map_append, Window.map_unplanned_replan, ← List.map_append]
    exact h.moves
  back := by
    rw [map_bare_getLast, Window.map_unplanned_replan, ← map_bare_getLast]
    exact h.back
  withinCap := h.withinCap
  linked := h.linked

theorem Ledger.emit {path path' : List Event} {out : List Emission} {planner : Planner β}
    {move : Move} {rest : List Move} (h : Ledger path out planner)
    (hwindow : planner.window = move :: rest) (backend : β)
    (hcapped : capped planner.config.thresholdAngle none path' =
      capped planner.config.thresholdAngle none path)
    (hback : rest.getLast?.map bare = lastQueued path') :
    Ledger path' (out ++ [⟨move, Window.entrySpeed rest⟩]) (planner.goOn rest backend) where
  planned := h.planned.goOn hwindow backend
  moves := by
    have hmoves := h.moves
    rw [hwindow] at hmoves
    change (_ ++ rest).map unplanned = capped planner.config.thresholdAngle none path'
    rw [hcapped, ← hmoves, List.map_append (f := Emission.move), List.append_assoc]
    rfl
  back := hback
  withinCap := by
    have hfront := h.planned.withinCap move (by simp [hwindow])
    rw [List.forall_mem_append, List.forall_mem_singleton]
    exact ⟨h.withinCap, hfront⟩
  linked := by
    have hfront := h.planned.front
    rw [hwindow] at hfront
    exact h.linked.append ⟨hfront.symm, rfl⟩

theorem Ledger.push {path : List Event} {out : List Emission} {planner : Planner β} {move : Move}
    {feedrate : Float} (h : Ledger path out planner)
    (hplan : Move.plan? planner.config move.steps feedrate = some move) :
    Ledger (path ++ [.queued move]) out (planner.push move) := by
  have hconfig : (planner.push move).config = planner.config := by
    unfold Planner.push
    split <;> rfl
  have hpushed : (planner.push move).window.map unplanned = planner.window.map unplanned ++
      capped planner.config.thresholdAngle (lastQueued path) [.queued move] := by
    rw [← h.back]
    cases hlast : planner.window.getLast? with
    | none =>
      have hempty := List.getLast?_eq_none_iff.mp hlast
      obtain ⟨-, -, hcap, -⟩ := Move.plan?_eq_some hplan
      rw [(push_of_empty hempty move).1, hempty]
      simp only [List.map_cons, List.map_nil, List.nil_append, capped, unplanned, hcap]
      rfl
    | some last =>
      rw [(push_of_getLast hlast move).1, Window.map_unplanned_replan, List.map_append]
      rfl
  refine ⟨h.planned.push hplan, ?_, ?_, h.withinCap, ?_⟩
  · rw [hconfig, capped_append, ← h.moves, List.map_append, hpushed, List.map_append,
      List.append_assoc]
  · rw [map_bare_getLast, hpushed, lastQueued_append]
    simp only [capped, List.getLast?_concat, Option.map_some, Event.move?, Option.some.injEq]
    exact Move.bare_of_plan hplan
  · rw [frontEntry_push h.planned]
    exact h.linked

theorem map_bare_capped (threshold : Float) {path : List Event}
    (h : ∀ move, .queued move ∈ path → move.bare = move) (last : Option Move) :
    (capped threshold last path).map bare = path.filterMap Event.move? := by
  induction path generalizing last with
  | nil => rfl
  | cons event rest ih =>
    have hrest := ih fun move hmove => h move (List.mem_cons_of_mem _ hmove)
    cases event with
    | queued move =>
      rw [capped, List.map_cons, hrest]
      exact congrArg (· :: _) (h move (by simp))
    | halted => exact hrest none
    | rebased jump => exact hrest none

section Queued

variable {path : List Event} {out : List Emission} {planner : Planner β}

theorem Ledger.queued (h : Ledger path out planner)
    (hbare : ∀ move, .queued move ∈ path → move.bare = move) :
    (out.map Emission.move ++ planner.window).map bare = path.filterMap Event.move? := by
  rw [← map_bare_capped planner.config.thresholdAngle hbare none, ← h.moves, List.map_map]
  rfl

theorem moving_of_queued {queued window : List Move}
    (h : (out.map Emission.move ++ window).map bare = queued)
    (hmoving : ∀ move ∈ queued, move.steps ≠ .zero) :
    ∀ emission ∈ out, emission.move.steps ≠ .zero := by
  intro emission hemission
  have hmember : emission.move.bare ∈ queued := by
    rw [← h, List.map_append, List.map_map]
    exact List.mem_append_left _ (List.mem_map_of_mem hemission)
  have hmoves : emission.move.bare.steps ≠ .zero := hmoving _ hmember
  exact hmoves

theorem mem_of_filterMap_move {move : Move} (h : move ∈ path.filterMap Event.move?) :
    .queued move ∈ path := by
  obtain ⟨event, hevent, hsome⟩ := List.mem_filterMap.mp h
  cases event with
  | queued other =>
    obtain rfl : other = move := Option.some.inj hsome
    exact hevent
  | halted => contradiction
  | rebased jump => contradiction

end Queued

variable [MotorBackend β]

theorem Ledger.change {path path' : List Event} {out out' : List Emission}
    {first second : Planner β} (h : Ledger path out first)
    (hchange : Change first path' out' second) :
    Ledger (path ++ path') (out ++ out') second := by
  cases hchange with
  | note position state =>
    rw [List.append_nil, List.append_nil]
    exact h.frame rfl rfl rfl
  | @push move _ hplan =>
    have hstepped : Ledger path out
        ({ first with stepPosition := first.stepPosition.add move.steps } : Planner β) :=
      h.frame rfl rfl rfl
    rw [List.append_nil]
    exact hstepped.push hplan
  | replan =>
    rw [List.append_nil, List.append_nil]
    exact h.replan
  | @emit move next rest hwindow hsent =>
    rw [List.append_nil]
    refine h.emit hwindow _ rfl ?_
    rw [← h.back, hwindow]
    rfl
  | @drain move hwindow hsent =>
    refine h.emit hwindow _ ?_ ?_
    · rw [capped_append]
      exact List.append_nil _
    · rw [lastQueued_append]
      rfl
  | refuse hwindow hsent =>
    rw [List.append_nil, List.append_nil]
    exact h.frame rfl rfl rfl
  | halt hempty =>
    rw [List.append_nil]
    exact h.rest hempty rfl
  | rebase hempty steps =>
    rw [List.append_nil]
    have hevent : Event.move? (.rebased (steps.sub first.stepPosition)) = none := rfl
    exact (h.rest hempty hevent).frame rfl rfl rfl

theorem Ledger.changes {path path' : List Event} {out out' : List Emission}
    {first second : Planner β} (h : Ledger path out first)
    (hchanges : Changes first path' out' second) : Ledger (path ++ path') (out ++ out') second := by
  induction hchanges generalizing path out with
  | refl =>
    rw [List.append_nil, List.append_nil]
    exact h
  | step hchange hrest ih =>
    rw [← List.append_assoc, ← List.append_assoc]
    exact ih (h.change hchange)

theorem Changes.queued {first second : Planner β} {path : List Event} {out : List Emission}
    (h : Changes first path out second) {move : Move} (hmove : .queued move ∈ path) :
    move.bare = move ∧ move.steps ≠ .zero := by
  induction h with
  | refl => simp at hmove
  | step hchange hrest ih =>
    rcases List.mem_append.mp hmove with hnow | hlater
    · cases hchange with
      | push hplan =>
        obtain rfl : move = _ := by simpa using hnow
        refine ⟨Move.bare_of_plan hplan, Steps.ne_zero_of_count ?_⟩
        have hleast := (Move.plan?_eq_some hplan).2.1
        exact Nat.lt_of_lt_of_le (by decide) hleast
      | _ => simp at hnow
    · exact ih hlater

section Accepted

open MotorBackend

/-- What the backend takes is what is emitted, where it takes moves whole or not at all. -/
theorem Change.accepted {first second : Planner (Traced β)} {path : List Event}
    {out : List Emission} (h : Change first path out second) (hwhole : TakesWhole first.backend) :
    second.backend.accepted = first.backend.accepted ++ out.flatMap Emission.segments := by
  cases h with
  | push hplan =>
    rw [backend_push]
    exact (List.append_nil _).symm
  | emit hwindow hsent =>
    rw [List.flatMap_singleton]
    exact accepted_enqueueAll hsent
  | drain hwindow hsent =>
    rw [List.flatMap_singleton]
    exact accepted_enqueueAll hsent
  | @refuse move rest hwindow hsent =>
    obtain htaken | hnothing := hwhole (move.segments (Window.entrySpeed rest))
    · exact absurd htaken hsent
    · exact hnothing.trans (List.append_nil _).symm
  | _ => exact (List.append_nil _).symm

theorem Changes.accepted {P : Traced β → Prop} (hkept : Kept P)
    (hwhole : ∀ traced, P traced → TakesWhole traced) {first second : Planner (Traced β)}
    {path : List Event} {out : List Emission} (h : Changes first path out second)
    (hfirst : P first.backend) :
    second.backend.accepted = first.backend.accepted ++ out.flatMap Emission.segments := by
  induction h with
  | refl => exact (List.append_nil _).symm
  | step hchange hrest ih =>
    rw [ih (hchange.backend hkept hfirst), hchange.accepted (hwhole _ hfirst), List.append_assoc,
      List.flatMap_append]

/-- What a run from rest over an accepting backend comes to. -/
structure Account (planner : Planner (Traced β)) (calls : List Call) (out : List Emission) :
    Prop where
  ledger : Ledger (planner.history calls) out (planner.run calls)
  accepted : (planner.run calls).backend.accepted =
    planner.backend.accepted ++ out.flatMap Emission.segments
  moves : (out.map Emission.move ++ (planner.run calls).window).map bare = planner.queued calls
  moving : ∀ emission ∈ out, emission.move.steps ≠ .zero
  config : (planner.run calls).config = planner.config
  accepting : Accepting (planner.run calls).backend
  lookahead : 0 < (planner.run calls).lookahead

theorem exists_account {planner : Planner (Traced β)} (hplanned : planner.Planned)
    (hempty : planner.window = []) (hlookahead : 0 < planner.lookahead)
    (haccepting : Accepting planner.backend) (calls : List Call) :
    ∃ out, Account planner calls out := by
  obtain ⟨out, hchanges⟩ := planner.run_changes hlookahead calls
  have hafter := hchanges.backend kept_accepting haccepting
  have haccepted :=
    hchanges.accepted kept_accepting (fun _ hall => hall.takesWhole) haccepting
  have hledger := (Ledger.start hplanned hempty).changes hchanges
  rw [List.nil_append, List.nil_append] at hledger
  have hmoves := hledger.queued fun move hmove => (hchanges.queued hmove).1
  have hmoving := moving_of_queued hmoves fun move hmove =>
    (hchanges.queued (mem_of_filterMap_move hmove)).2
  refine ⟨out, hledger, haccepted, hmoves, hmoving, hchanges.lookahead.1, hafter, ?_⟩
  rwa [hchanges.lookahead.2]

end Accepted

variable {config : MachineConfig} {wiring : Wiring} {backend : β} {lookahead : Nat}
  {planner : Planner β}

theorem exists_account_of_make (hmake : make config wiring backend lookahead = .ok planner)
    (haccepting : MotorBackend.Accepting backend) (calls : List Call) :
    ∃ out, Account planner.traced calls out := by
  obtain ⟨hlookahead, rfl⟩ := make_eq_ok hmake
  exact exists_account ⟨rfl, by simp [traced, map]⟩ rfl hlookahead haccepting.traced calls

theorem Account.emitted {calls : List Call} {out : List Emission}
    (h : Account planner.traced calls out) :
    planner.emitted calls = out.flatMap Emission.segments := by
  rw [Planner.emitted, h.accepted]
  rfl

end Planner
end StepMotion
