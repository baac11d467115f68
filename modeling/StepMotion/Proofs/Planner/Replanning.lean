import StepMotion.Proofs.Planner.Refusal

/-! What planning anew does to speeds that are planned. Without a new move it changes none of them,
also after moves were handed over, so a halt hands over the window as it stands; behind a new move
none of them becomes lower. -/
namespace StepMotion

namespace Window

open Move Binary64

section Firm

def Firm (window : List Move) : Prop := replan (entrySpeed window) window = window

theorem planBackward_congr {window window' : List Move}
    (h : window.map unplanned = window'.map unplanned) :
    planBackward window = planBackward window' := by
  induction window generalizing window' with
  | nil =>
    obtain rfl := List.map_eq_nil_iff.mp h.symm
    rfl
  | cons move rest ih =>
    obtain ⟨move', rest', rfl, hmove, hrest⟩ := List.map_eq_cons_iff.mp h.symm
    obtain ⟨steps, direction, distance, cruise, acceleration, cap, entry⟩ := move
    obtain ⟨steps', direction', distance', cruise', acceleration', cap', entry'⟩ := move'
    obtain ⟨rfl, rfl, rfl, rfl, rfl, rfl, -⟩ := Move.mk.inj hmove
    rw [planBackward, planBackward, ih hrest.symm]
    rfl

theorem entrySpeed_replan (frontEntry : Float) {window : List Move} (h : window ≠ []) :
    entrySpeed (replan frontEntry window) = frontEntry := by
  obtain ⟨front, rest, rfl⟩ := List.exists_cons_of_ne_nil h
  rfl

/-- The pass from the back does not look at the speeds, so it finds again what it found. -/
theorem firm_replan (frontEntry : Float) (window : List Move) :
    Firm (replan frontEntry window) := by
  cases window with
  | nil => rfl
  | cons front rest =>
    have hback : planBackward (planForward (front.reachableFrom frontEntry) (planBackward rest)) =
        planBackward rest :=
      planBackward_congr ((map_unplanned_planForward _ _).trans (map_unplanned_planBackward rest))
    rw [Firm, entrySpeed_replan frontEntry (List.cons_ne_nil front rest)]
    exact congrArg (fun behind => { front with entry := frontEntry } ::
      planForward (front.reachableFrom frontEntry) behind) hback

/-- The pass from the front goes on from the speed into a move as it did when it came there. -/
theorem Firm.tail {move : Move} {rest : List Move} (h : Firm (move :: rest)) : Firm rest := by
  cases rest with
  | nil => rfl
  | cons next others =>
    obtain ⟨-, hplanned⟩ := List.cons.inj h
    obtain ⟨hnext, hothers⟩ := List.cons.inj hplanned
    rw [hnext] at hothers
    exact congrArg (next :: ·) hothers

theorem Firm.drop {window : List Move} (h : Firm window) (k : Nat) : Firm (window.drop k) := by
  induction k generalizing window with
  | zero => exact h
  | succ k ih =>
    cases window with
    | nil => exact h
    | cons move rest => exact ih h.tail

end Firm

section Growth

/-- The same move, into which the speed is no lower. -/
structure NoSlower (old new : Move) : Prop where
  same : new.unplanned = old.unplanned
  faster : old.entry ≤ new.entry

theorem planForward_cons (reachable : Float) (move : Move) (rest : List Move) :
    ∃ speed, (speed = reachable ∨ speed = move.entry) ∧
      planForward reachable (move :: rest) =
        { move with entry := speed } :: planForward (move.reachableFrom speed) rest := by
  by_cases hslow : reachable < move.entry
  · exact ⟨reachable, .inl rfl, by rw [planForward, if_pos hslow]; rfl⟩
  · exact ⟨move.entry, .inr rfl, by rw [planForward, if_neg hslow]⟩

/-- Behind a move that is reached no slower than before, with moves added at the end, the pass from
the front leaves no speed lower than it was. -/
theorem noSlower_planForward {before : Move} {window added : List Move} {reachable : Float}
    (h : ∀ move ∈ before :: (window ++ added), move.Regular)
    (hcaps : (before :: (window ++ added)).IsChain CapFollows)
    (hfollows : (before :: window).IsChain Follows) (hbrakes : Brakes window)
    (hwithin : ∀ move ∈ window, move.WithinCap) (hreachable : IsSpeed reachable)
    (hfaster : before.reachableFrom before.entry ≤ reachable) :
    ∃ kept behind, planForward reachable (planBackward (window ++ added)) = kept ++ behind ∧
      List.Forall₂ NoSlower window kept := by
  induction window generalizing before reachable with
  | nil => exact ⟨[], _, rfl, .nil⟩
  | cons move rest ih =>
    obtain ⟨hbefore, hregular⟩ := List.forall_mem_cons.mp h
    obtain ⟨hmove, hrest⟩ := List.forall_mem_cons.mp hregular
    have hentry : IsSpeed move.entry := hfollows.rel.entry hbefore hmove
    have hback : IsSpeed (entrySpeed (planBackward (move :: (rest ++ added)))) :=
      isSpeed_entrySpeed_planBackward hbefore hregular hcaps
    have hkept : entrySpeed (move :: rest) ≤ entrySpeed (planBackward (move :: (rest ++ added))) :=
      entrySpeed_le_planBackward h hcaps hfollows hbrakes hwithin
    have hreached : move.entry ≤ reachable := by
      refine Binary64.le_trans (Binary64.le_of_not_lt hentry.isNaN ?_ hfollows.rel.reached) hfaster
      exact (le_iff.mp hfaster).1
    obtain ⟨speed, hspeed, hplanned⟩ := planForward_cons reachable
      { move with entry := entrySpeed (planBackward (move :: (rest ++ added))) }
      (planBackward (rest ++ added))
    have hnew : IsSpeed speed ∧ move.entry ≤ speed := by
      rcases hspeed with rfl | rfl
      · exact ⟨hreachable, hreached⟩
      · exact ⟨hback, hkept⟩
    obtain ⟨kept, behind, hrests, hkepts⟩ := ih hregular hcaps.tail hfollows.tail hbrakes.2
      (List.forall_mem_cons.mp hwithin).2 (hmove.isSpeed_reachableFrom hnew.1.isNaN)
      (hmove.reachableFrom_mono hentry hnew.1 hnew.2)
    refine ⟨{ move with entry := speed } :: kept, behind, ?_, .cons ⟨rfl, hnew.2⟩ hkepts⟩
    exact hplanned.trans (congrArg ({ move with entry := speed } :: ·) hrests)

theorem Braked.noSlower {front : Move} {rest added : List Move} (h : Braked (front :: rest))
    (hwithin : ∀ move ∈ rest, move.WithinCap)
    (hcaps : (front :: (rest ++ added)).IsChain CapFollows)
    (hregular : ∀ move ∈ front :: (rest ++ added), move.Regular) :
    ∃ kept behind, Window.replan front.entry (front :: (rest ++ added)) = kept ++ behind ∧
      List.Forall₂ NoSlower (front :: rest) kept := by
  obtain ⟨hfront, hbehind⟩ := List.forall_mem_cons.mp hregular
  have hself : ∀ move ∈ front :: rest, move.Regular := fun move hmove =>
    hregular move (by simpa using List.mem_append_left added hmove)
  have hnumber : front.entry.isNaN = false := (le_iff.mp (h.brakes.1 hself)).1
  have hreach := hfront.isSpeed_reachableFrom hnumber
  obtain ⟨kept, behind, hplanned, hkept⟩ := noSlower_planForward hregular hcaps h.follows
    h.brakes.2 hwithin hreach (Binary64.le_of_not_lt hreach.isNaN hreach.isNaN (not_lt_self _))
  have hhead : front.entry ≤ front.entry :=
    Binary64.le_of_not_lt hnumber hnumber (not_lt_self _)
  refine ⟨front :: kept, behind, ?_, .cons ⟨rfl, hhead⟩ hkept⟩
  rw [List.cons_append, ← hplanned]
  rfl

end Growth

end Window

namespace Planner

open Window

variable {β : Type} {planner : Planner β}

theorem Planned.replan_of_firm (h : planner.Planned) (hfirm : Firm planner.window) :
    Window.replan planner.frontEntry planner.window = planner.window := by
  rw [h.front]
  exact hfirm

theorem Planned.firm_planned (h : planner.Planned) (hfirm : Firm planner.window) (call : Call) :
    Firm (planner.planned call) := by
  obtain ⟨move, -, -, -, hpush⟩ | ⟨-, hsame | hreplan⟩ := planner.planned_cases call
  · obtain ⟨cap, -, hpushed⟩ := window_push h move
    rw [hpush, hpushed]
    exact firm_replan _ _
  · rw [hsame]
    exact hfirm
  · rw [hreplan]
    exact firm_replan _ _

theorem Planned.noSlower_push (h : planner.Planned) (hbraked : Braked planner.window)
    (hregular : ∀ other ∈ planner.window, other.Regular) {move : Move} (hmove : move.Regular) :
    ∃ kept added, (planner.push move).window = kept ++ [added] ∧
      List.Forall₂ NoSlower planner.window kept := by
  cases hlast : planner.window.getLast? with
  | none =>
    have hempty := List.getLast?_eq_none_iff.mp hlast
    exact ⟨[], _, (push_of_empty hempty move).1, by rw [hempty]; exact .nil⟩
  | some last =>
    have hcaps := isChain_capped hbraked hlast move
    have hcapped : ({ move with entryCap := planner.cornerCap last move } : Move).Regular :=
      ⟨hmove.1, hmove.2, hmove.3, hmove.4⟩
    have hall := List.forall_mem_append.mpr ⟨hregular, List.forall_mem_singleton.mpr hcapped⟩
    rw [(push_of_getLast hlast move).1]
    obtain ⟨front, rest, hwindow⟩ :=
      List.exists_cons_of_ne_nil (List.ne_nil_of_mem (List.mem_of_getLast? hlast))
    have hfront := h.front
    have hwithin := h.withinCap
    rw [hwindow] at hcaps hall hfront hwithin hbraked ⊢
    rw [hfront]
    obtain ⟨kept, behind, hplanned, hkept⟩ :=
      hbraked.noSlower (List.forall_mem_cons.mp hwithin).2 hcaps hall
    have hsingle : behind.length = 1 := by
      have hlength := congrArg List.length hplanned
      simp only [length_replan, List.length_append, List.length_cons, List.length_nil,
        ← hkept.length_eq] at hlength
      omega
    obtain ⟨added, rfl⟩ := List.length_eq_one_iff.mp hsingle
    exact ⟨kept, added, hplanned, hkept⟩

variable [MotorBackend β]

theorem Reachable.firm (h : planner.Reachable) : Firm planner.window := by
  induction h with
  | make h =>
    obtain ⟨-, rfl⟩ := make_eq_ok h
    rfl
  | perform hreachable call ih =>
    obtain ⟨k, hleft⟩ := exists_window_eq_drop hreachable.planned call
    rw [hleft]
    exact (hreachable.planned.firm_planned ih call).drop k
  | lend hreachable backend ih => exact ih

theorem Reachable.planned_of_none (h : planner.Reachable) {call : Call}
    (hnone : planner.added? call = none) : planner.planned call = planner.window := by
  obtain ⟨move, -, hsome, -⟩ | ⟨-, hsame | hreplan⟩ := planner.planned_cases call
  · rw [hnone] at hsome
    contradiction
  · exact hsame
  · rw [hreplan, h.planned.replan_of_firm h.firm]

theorem replan_emitFront (h : planner.Planned) (hfirm : Firm planner.window) (count : Nat) :
    Window.replan (emitFront count planner).state.frontEntry
      (emitFront count planner).state.window = (emitFront count planner).state.window := by
  obtain ⟨hplanned, hleft⟩ : (emitFront count planner).state.Planned ∧
      Firm (emitFront count planner).state.window := by
    refine emitFront_keeps (P := fun left => left.Planned ∧ Firm left.window) ?_ ?_ count ⟨h, hfirm⟩
    · intro left move rest backend hwindow ⟨hplanned, hleft⟩
      rw [hwindow] at hleft
      exact ⟨hplanned.goOn hwindow backend, hleft.tail⟩
    · exact fun backend ⟨hplanned, hleft⟩ => ⟨hplanned.frame rfl rfl, hleft⟩
  exact hplanned.replan_of_firm hleft

/-- States that a planner comes to without a move entering the window. -/
inductive Unextended : Planner β → Planner β → Prop where
  | refl (planner : Planner β) : Unextended planner planner
  | perform {planner later : Planner β} (h : Unextended planner later) (call : Call)
      (hnone : later.added? call = none) : Unextended planner (later.perform call).state
  | lend {planner later : Planner β} (h : Unextended planner later) (backend : β) :
      Unextended planner { later with backend := backend }

theorem Unextended.window {later : Planner β} (h : Unextended planner later)
    (hreachable : planner.Reachable) :
    later.Reachable ∧ ∃ k, later.window = planner.window.drop k := by
  induction h with
  | refl => exact ⟨hreachable, 0, rfl⟩
  | perform _ call hnone ih =>
    obtain ⟨hlater, k, hwindow⟩ := ih
    obtain ⟨j, hleft⟩ := exists_window_eq_drop hlater.planned call
    rw [hlater.planned_of_none hnone, hwindow, List.drop_drop] at hleft
    exact ⟨hlater.perform call, k + j, hleft⟩
  | lend _ backend ih =>
    obtain ⟨hlater, k, hwindow⟩ := ih
    exact ⟨hlater.lend backend, k, hwindow⟩

/-- A halt offers the window as it stands, and hands it over whole if it succeeds. -/
theorem Reachable.blocks_of_halt (h : planner.Reachable) :
    planner.offered .halt <+: (blocks planner.window).flatten ∧
      (planner.halt.Succeeds → planner.emitted [.halt] = (blocks planner.window).flatten) := by
  have hplanned : planner.planned .halt = planner.window := h.planned_of_none rfl
  have hoffered := offered_prefix h.planned .halt
  have hdelivered := delivered_traced h.planned .halt
  rw [hplanned] at hoffered hdelivered
  refine ⟨hoffered, fun hdone => ?_⟩
  obtain ⟨-, k, -, hdelivers⟩ | ⟨hrefused, -⟩ := hdelivered
  · obtain ⟨-, -, hempty⟩ := planner.halt_changes
    have hleft : planner.window.drop k = [] := by
      rw [← hdelivers.window, window_perform_traced]
      exact hempty hdone
    have hall : (blocks planner.window).take k = blocks planner.window := by
      apply List.take_of_length_le
      rw [length_blocks]
      exact List.drop_eq_nil_iff.mp hleft
    have hsent := hdelivers.accepted
    rw [hall, List.append_nil] at hsent
    exact hsent
  · exact absurd hdone ((refused_within planner.halt id).mp hrefused)

/-- Planning anew without a new move changes no speed, also after any number of moves was handed
over. So from a call on, until a move enters the window again, it holds the last of the moves that
this call planned, entered at the speeds that it planned, and these are what a halt hands over.
Behind a new move no speed into a regular one becomes lower. -/
theorem replanning_keeps_speeds (h : planner.Reachable) :
    (∀ count, Window.replan (emitFront count planner).state.frontEntry
      (emitFront count planner).state.window = (emitFront count planner).state.window) ∧
    (∀ call later, Unextended (planner.perform call).state later →
      Window.replan later.frontEntry later.window = later.window ∧
      ∃ k, later.window = (planner.planned call).drop k ∧
        later.offered .halt <+: ((blocks (planner.planned call)).drop k).flatten ∧
        (later.halt.Succeeds →
          later.emitted [.halt] = ((blocks (planner.planned call)).drop k).flatten)) ∧
    ((∀ other ∈ planner.window, other.Regular) → ∀ move : Move, move.Regular →
      ∃ kept added, (planner.push move).window = kept ++ [added] ∧
        List.Forall₂ NoSlower planner.window kept) := by
  obtain ⟨-, hplanned, hbraked⟩ := h.braked
  refine ⟨replan_emitFront hplanned h.firm, fun call later hlater => ?_,
    fun hregular move hmove => hplanned.noSlower_push hbraked hregular hmove⟩
  obtain ⟨hreachable, k, hwindow⟩ := hlater.window (h.perform call)
  obtain ⟨j, hleft⟩ := exists_window_eq_drop hplanned call
  rw [hleft, List.drop_drop] at hwindow
  obtain ⟨hoffered, hemitted⟩ := hreachable.blocks_of_halt
  rw [hwindow, ← drop_blocks] at hoffered hemitted
  exact ⟨hreachable.planned.replan_of_firm hreachable.firm, j + k, hwindow, hoffered, hemitted⟩

def sampleMove : Move where
  steps := Steps.zero.set .x 800
  direction := (Register.fill 0.0).set .x 1.0
  distance := 800.0
  cruise := 4000.0
  acceleration := 80000.0
  entryCap := 0.0
  entry := 0.0

/-- The two moves in the window after a halt that the link refused and a new link. -/
def relinkedSample : Planner Limited :=
  { (joinedSample.perform .halt).state with
    backend := { remaining := 8, failure := .queueClosed } }

theorem replanning_keeps_speeds_sample :
    (joinedSample.perform .halt).outcome = .error (.motor .queueClosed) ∧
    relinkedSample.window.map Move.entry =
      [0.0, if (heldSample.run [goTo 10.0]).turnsSharply (goTo 10.45) then 0.0 else 3000.0] ∧
    (emitFront 1 relinkedSample).state.window.length = 1 ∧
    (∀ count, Window.replan (emitFront count relinkedSample).state.frontEntry
      (emitFront count relinkedSample).state.window =
        (emitFront count relinkedSample).state.window) ∧
    (Window.replan relinkedSample.frontEntry relinkedSample.window = relinkedSample.window ∧
      ∃ k, relinkedSample.window =
          ((heldSample.run [goTo 10.0]).planned (goTo 10.45)).drop k ∧
        relinkedSample.offered .halt <+:
          ((blocks ((heldSample.run [goTo 10.0]).planned (goTo 10.45))).drop k).flatten ∧
        relinkedSample.emitted [.halt] =
          ((blocks ((heldSample.run [goTo 10.0]).planned (goTo 10.45))).drop k).flatten) ∧
    (relinkedSample.push sampleMove).window.map Move.entry =
      (if (heldSample.run [goTo 10.0]).turnsSharply (goTo 10.45) then
        if relinkedSample.meetsSharply sampleMove then [0.0, 0.0, 0.0] else [0.0, 0.0, 3000.0]
      else if relinkedSample.meetsSharply sampleMove then [0.0, 3000.0, 0.0]
      else [0.0, 5000.0, 4000.0]) ∧
    ∃ kept added, (relinkedSample.push sampleMove).window = kept ++ [added] ∧
      List.Forall₂ NoSlower relinkedSample.window kept := by
  have hhalted : Unextended joinedSample (joinedSample.perform .halt).state :=
    .perform (.refl joinedSample) .halt rfl
  have hlater : Unextended ((heldSample.run [goTo 10.0]).perform (goTo 10.45)).state
      relinkedSample := hhalted.lend _
  have hbefore : (heldSample.run [goTo 10.0]).Reachable := .run (.make (make_sample_over _)) _
  have hreachable : relinkedSample.Reachable := (hlater.window (hbefore.perform _)).1
  obtain ⟨-, hkeeps, -⟩ := replanning_keeps_speeds hbefore
  obtain ⟨hfirm, k, hwindow, hoffered, hemitted⟩ := hkeeps (goTo 10.45) relinkedSample hlater
  obtain ⟨hfront, -, hgrows⟩ := replanning_keeps_speeds hreachable
  have hruns : relinkedSample.halt.Succeeds ∧ ∀ move ∈ relinkedSample.window, move.Regular := by
    rw [relinkedSample, joinedSample, run_second]
    cases (heldSample.run [goTo 10.0]).turnsSharply (goTo 10.45) <;> decide +kernel
  obtain ⟨hhalts, hregular⟩ := hruns
  refine ⟨?_, ?_, ?_, hfront, ⟨hfirm, k, hwindow, hoffered, hemitted hhalts⟩, ?_,
    hgrows hregular sampleMove (by decide +kernel)⟩
  · rw [joinedSample, run_second]
    cases (heldSample.run [goTo 10.0]).turnsSharply (goTo 10.45) <;> decide +kernel
  · rw [relinkedSample, joinedSample, run_second]
    cases (heldSample.run [goTo 10.0]).turnsSharply (goTo 10.45) <;> decide +kernel
  · rw [relinkedSample, joinedSample, run_second]
    cases (heldSample.run [goTo 10.0]).turnsSharply (goTo 10.45) <;> decide +kernel
  · rw [push_eq_pushTurning]
    -- The corner before the third move is sharp or not, and so is the one before the second.
    cases relinkedSample.meetsSharply sampleMove <;>
    · rw [relinkedSample, joinedSample, run_second]
      cases (heldSample.run [goTo 10.0]).turnsSharply (goTo 10.45) <;> decide +kernel

end Planner
end StepMotion
