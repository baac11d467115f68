import StepMotion.Motor.Limited
import StepMotion.Proofs.Planner.Plan

/-! The planner can always brake. Whatever is handed over and whatever is requested next, the
planned speeds let every move slow down to the speed out of it, and so to the stop at the end. -/
namespace StepMotion

theorem Move.regular_entry {move : Move} {speed : Float} :
    ({ move with entry := speed } : Move).Regular ↔ move.Regular :=
  ⟨fun h => ⟨h.1, h.2, h.3, h.4⟩, fun h => ⟨h.1, h.2, h.3, h.4⟩⟩

@[simp] theorem Move.regular_unplanned (move : Move) : move.unplanned.Regular ↔ move.Regular :=
  regular_entry

namespace Window

open Move Binary64

/-- The cap of the corner between two regular moves is a speed. -/
def CapFollows (a b : Move) : Prop := a.Regular → b.Regular → IsSpeed b.entryCap

structure Follows (a b : Move) : Prop where
  cap : CapFollows a b
  entry : a.Regular → b.Regular → IsSpeed b.entry
  reached : ¬ a.reachableFrom a.entry < b.entry

/-- From every move on the plan can be braked, provided that the moves from there on are regular. -/
def Brakes : List Move → Prop
  | [] => True
  | move :: rest =>
    ((∀ other ∈ move :: rest, other.Regular) →
      move.entry ≤ move.reachableFrom (entrySpeed rest)) ∧ Brakes rest

theorem capFollows_unplanned (a b : Move) :
    CapFollows a.unplanned b.unplanned ↔ CapFollows a b := by
  unfold CapFollows
  rw [regular_unplanned, regular_unplanned]
  rfl

theorem isChain_capFollows_congr {window window' : List Move}
    (h : window.map unplanned = window'.map unplanned) :
    window.IsChain CapFollows ↔ window'.IsChain CapFollows := by
  have hunplanned : ∀ w : List Move,
      w.IsChain CapFollows ↔ (w.map unplanned).IsChain CapFollows := by
    intro w
    simp only [List.isChain_map, capFollows_unplanned]
  rw [hunplanned window, hunplanned window', h]

variable {window : List Move}

theorem entrySpeed_planBackward_cons (move : Move) (rest : List Move) :
    entrySpeed (planBackward (move :: rest)) =
      lesser move.entryCap (move.reachableFrom (entrySpeed (planBackward rest))) := rfl

theorem isNaN_entrySpeed_planBackward (h : ∀ move ∈ window, move.Regular) :
    (entrySpeed (planBackward window)).isNaN = false := by
  induction window with
  | nil => rfl
  | cons move rest ih =>
    rw [List.forall_mem_cons] at h
    have hreach := h.1.isSpeed_reachableFrom (ih h.2)
    rw [entrySpeed_planBackward_cons]
    obtain ⟨heq, hle | hnan⟩ | ⟨heq, hnumber, -⟩ :=
      lesser_cases move.entryCap (move.reachableFrom (entrySpeed (planBackward rest)))
    · rw [heq]
      exact (le_iff.mp hle).1
    · rw [hreach.isNaN] at hnan
      contradiction
    · rw [heq]
      exact hnumber

theorem isSpeed_entrySpeed_planBackward {before : Move} (hbefore : before.Regular)
    (h : ∀ move ∈ window, move.Regular) (hcaps : (before :: window).IsChain CapFollows) :
    IsSpeed (entrySpeed (planBackward window)) := by
  cases window with
  | nil => exact isSpeed_zero
  | cons move rest =>
    rw [List.forall_mem_cons] at h
    have hcap : IsSpeed move.entryCap := hcaps.rel hbefore h.1
    rw [entrySpeed_planBackward_cons]
    exact hcap.lesser (value_sqrt_nonneg _)

/-- The speeds of a plan are not above those planned backward, also with moves added. -/
theorem entrySpeed_le_planBackward {before : Move} {added : List Move}
    (h : ∀ move ∈ before :: (window ++ added), move.Regular)
    (hcaps : (before :: (window ++ added)).IsChain CapFollows)
    (hfollows : (before :: window).IsChain Follows) (hbrakes : Brakes window)
    (hwithin : ∀ move ∈ window, move.WithinCap) :
    entrySpeed window ≤ entrySpeed (planBackward (window ++ added)) := by
  induction window generalizing before with
  | nil =>
    rw [List.forall_mem_cons] at h
    exact (isSpeed_entrySpeed_planBackward h.1 h.2 hcaps).zero_le
  | cons move rest ih =>
    obtain ⟨-, hregular⟩ := List.forall_mem_cons.mp h
    obtain ⟨hmove, hrest⟩ := List.forall_mem_cons.mp hregular
    have hkept := ih hregular hcaps.tail hfollows.tail hbrakes.2 (List.forall_mem_cons.mp hwithin).2
    have hnext : IsSpeed (entrySpeed rest) := by
      cases rest with
      | nil => exact isSpeed_zero
      | cons next rest => exact hfollows.tail.rel.entry hmove (hrest next (by simp))
    have hplanned := isSpeed_entrySpeed_planBackward hmove hrest hcaps.tail
    have hself : ∀ other ∈ move :: rest, other.Regular := by
      intro other hother
      exact hregular other (by simpa using List.mem_append_left added hother)
    have hreach : move.entry ≤ move.reachableFrom (entrySpeed (planBackward (rest ++ added))) :=
      Binary64.le_trans (hbrakes.1 hself) (hmove.reachableFrom_mono hnext hplanned hkept)
    exact le_lesser hreach (hwithin move (by simp)).notAbove

theorem forall_regular_congr {window' : List Move}
    (h : window.map unplanned = window'.map unplanned) :
    (∀ move ∈ window, move.Regular) ↔ ∀ move ∈ window', move.Regular :=
  forall_mem_congr regular_unplanned h

theorem le_reachableFrom_planForward {move : Move} (hmove : move.Regular) {rest : List Move}
    (hback : move.entry ≤ move.reachableFrom (entrySpeed rest)) :
    move.entry ≤ move.reachableFrom
      (entrySpeed (planForward (move.reachableFrom move.entry) rest)) := by
  cases rest with
  | nil => exact hback
  | cons next rest =>
    by_cases hslow : move.reachableFrom move.entry < next.entry
    · simp only [planForward, hslow, ↓reduceIte, entrySpeed]
      exact hmove.le_reachableFrom_reachableFrom (le_iff.mp hback).1
    · simp only [planForward, hslow, ↓reduceIte]
      exact hback

theorem brakes_plan (reachable : Float) (window : List Move) :
    Brakes (planForward reachable (planBackward window)) := by
  induction window generalizing reachable with
  | nil => trivial
  | cons move rest ih =>
    refine ⟨fun hregular => ?_, ih _⟩
    have hall : ∀ other ∈ move :: rest, other.Regular := by
      apply (forall_regular_congr _).mp hregular
      exact (map_unplanned_planForward reachable (planBackward (move :: rest))).trans
        (map_unplanned_planBackward (move :: rest))
    obtain ⟨hmove, hrest⟩ := List.forall_mem_cons.mp hall
    have hexit := isNaN_entrySpeed_planBackward hrest
    have hfastest := hmove.isSpeed_reachableFrom hexit
    have hnumber := isNaN_entrySpeed_planBackward hall
    rw [entrySpeed_planBackward_cons] at hnumber
    have hback : lesser move.entryCap (move.reachableFrom (entrySpeed (planBackward rest))) ≤
        move.reachableFrom (entrySpeed (planBackward rest)) :=
      Binary64.le_of_not_lt hnumber hfastest.isNaN (not_lt_lesser_right _ _)
    obtain ⟨hhead, -⟩ := List.forall_mem_cons.mp hregular
    apply le_reachableFrom_planForward hhead
    dsimp only
    split
    · next hslow => exact Binary64.le_trans (Binary64.le_of_lt hslow) hback
    · exact hback

theorem follows_slower {before move : Move} (hcap : CapFollows before move)
    (hentry : before.Regular → move.Regular → IsSpeed move.entry) :
    Follows before (if before.reachableFrom before.entry < move.entry then
      { move with entry := before.reachableFrom before.entry } else move) := by
  split
  · next hslow =>
    refine ⟨fun hbefore hmove => hcap hbefore (regular_entry.mp hmove),
      fun _ _ => ⟨(lt_iff.mp hslow).1, value_sqrt_nonneg _⟩, not_lt_self _⟩
  · next hfast => exact ⟨hcap, hentry, hfast⟩

theorem follows_plan {before : Move} {window : List Move}
    (hcaps : (before :: window).IsChain CapFollows) :
    (before :: planForward (before.reachableFrom before.entry) (planBackward window)).IsChain
      Follows := by
  induction window generalizing before with
  | nil => exact .singleton before
  | cons move rest ih =>
    have hcap : CapFollows before move := hcaps.rel
    rw [planBackward, planForward]
    refine .cons_cons (follows_slower ?_ ?_) (ih ?_)
    · exact fun hbefore hmove => hcap hbefore (regular_entry.mp hmove)
    · intro hbefore hmove
      have hspeed : IsSpeed move.entryCap := hcap hbefore (regular_entry.mp hmove)
      exact hspeed.lesser (value_sqrt_nonneg _)
    · refine (isChain_capFollows_congr ?_).mp (List.IsChain.tail hcaps)
      change unplanned move :: _ = unplanned (if _ then _ else _) :: _
      split <;> rfl

structure Braked (window : List Move) : Prop where
  follows : window.IsChain Follows
  brakes : Brakes window

theorem Braked.caps (h : Braked window) : window.IsChain CapFollows :=
  h.follows.imp fun _ _ hfollows => hfollows.cap

/-- Planning anew keeps the room to brake from the first speed, which does not change. -/
theorem Braked.replan {front : Move} {rest added : List Move} (h : Braked (front :: rest))
    (hwithin : ∀ move ∈ rest, move.WithinCap)
    (hcaps : (front :: (rest ++ added)).IsChain CapFollows) :
    Braked (Window.replan front.entry (front :: (rest ++ added))) := by
  refine ⟨follows_plan hcaps, fun hregular => ?_, brakes_plan _ _⟩
  have hall : ∀ move ∈ front :: (rest ++ added), move.Regular :=
    (forall_regular_congr (map_unplanned_replan front.entry _)).mp hregular
  obtain ⟨hfront, hbehind⟩ := List.forall_mem_cons.mp hall
  obtain ⟨hkept, hadded⟩ := List.forall_mem_append.mp hbehind
  have hold : front.entry ≤ front.reachableFrom (entrySpeed rest) :=
    h.brakes.1 (List.forall_mem_cons.mpr ⟨hfront, hkept⟩)
  have hspeed : IsSpeed (entrySpeed rest) := by
    cases rest with
    | nil => exact isSpeed_zero
    | cons next rest => exact h.follows.rel.entry hfront (hkept next (by simp))
  have hplanned := isSpeed_entrySpeed_planBackward hfront hbehind hcaps
  have hgrown := entrySpeed_le_planBackward hall hcaps h.follows h.brakes.2 hwithin
  exact le_reachableFrom_planForward hfront
    (Binary64.le_trans hold (hfront.reachableFrom_mono hspeed hplanned hgrown))

theorem Brakes.getElem (h : Brakes window) (hregular : ∀ move ∈ window, move.Regular) (i : Nat)
    (hi : i < window.length) :
    window[i].entry ≤ window[i].reachableFrom (entrySpeed (window.drop (i + 1))) := by
  induction window generalizing i with
  | nil => simp at hi
  | cons move rest ih =>
    cases i with
    | zero => exact h.1 hregular
    | succ i =>
      exact ih h.2 (List.forall_mem_cons.mp hregular).2 i (Nat.lt_of_succ_lt_succ hi)

theorem braked_singleton {move : Move} (h : move.entry = 0.0) : Braked [move] := by
  refine ⟨.singleton move, fun hregular => ?_, trivial⟩
  rw [h]
  exact (hregular move (by simp)).le_reachableFrom rfl

end Window

namespace Planner

variable {β : Type}

open Window

theorem capFollows_cornerCap (planner : Planner β) (last move : Move) :
    CapFollows last { move with entryCap := planner.cornerCap last move } := by
  intro hlast hmove
  change Binary64.IsSpeed (planner.cornerCap last move)
  unfold cornerCap Corner.speedCap
  split
  · exact Binary64.isSpeed_zero
  · exact hlast.isSpeed_cruise.lesser hmove.isSpeed_cruise.nonneg

theorem isChain_capped {planner : Planner β} (h : Braked planner.window) {last : Move}
    (hlast : planner.window.getLast? = some last) (move : Move) :
    (planner.window ++ [{ move with entryCap := planner.cornerCap last move }]).IsChain
      CapFollows := by
  refine h.caps.append (.singleton _) ?_
  intro a ha b hb
  obtain rfl : last = a := by simpa [hlast] using ha
  obtain rfl : _ = b := by simpa using hb
  exact planner.capFollows_cornerCap last move

theorem Planned.braked_replan {planner : Planner β} (hplanned : planner.Planned)
    (h : Braked planner.window) {added : List Move} (hwindow : planner.window ≠ [])
    (hcaps : (planner.window ++ added).IsChain CapFollows) :
    Braked (Window.replan planner.frontEntry (planner.window ++ added)) := by
  obtain ⟨hfront, hwithin⟩ := hplanned
  cases hcons : planner.window with
  | nil => contradiction
  | cons front rest =>
    rw [hcons] at hfront hwithin h hcaps
    rw [hfront]
    exact h.replan (List.forall_mem_cons.mp hwithin).2 hcaps

theorem Planned.braked_push {planner : Planner β} (hplanned : planner.Planned)
    (h : Braked planner.window) (move : Move) : Braked (planner.push move).window := by
  cases hlast : planner.window.getLast? with
  | none =>
    rw [(push_of_empty (List.getLast?_eq_none_iff.mp hlast) move).1]
    exact braked_singleton rfl
  | some last =>
    have hnonempty := List.ne_nil_of_mem (List.mem_of_getLast? hlast)
    rw [(push_of_getLast hlast move).1]
    exact hplanned.braked_replan h hnonempty (isChain_capped h hlast move)

variable [MotorBackend β]

theorem Change.braked {first second : Planner β} {path : List Event} {out : List Emission}
    (h : Change first path out second) (hplanned : first.Planned) (hbraked : Braked first.window) :
    Braked second.window := by
  cases h with
  | note position state => exact hbraked
  | @push move _ hplan =>
    have hstepped : Planned
        ({ first with stepPosition := first.stepPosition.add move.steps } : Planner β) :=
      hplanned.frame rfl rfl
    exact hstepped.braked_push hbraked move
  | replan =>
    by_cases hempty : first.window = []
    · simp only [hempty, Window.replan]
      exact ⟨.nil, trivial⟩
    · have hcaps := hbraked.caps
      rw [← List.append_nil first.window] at hcaps
      have hreplanned := hplanned.braked_replan hbraked hempty hcaps
      rwa [List.append_nil] at hreplanned
  | emit hwindow hsent =>
    rw [hwindow] at hbraked
    exact ⟨hbraked.follows.tail, hbraked.brakes.2⟩
  | drain hwindow hsent => exact ⟨.nil, trivial⟩
  | refuse hwindow hsent => exact hbraked
  | halt hempty => exact hbraked
  | rebase hempty steps => exact hbraked

theorem Changes.braked {first second : Planner β} {path : List Event} {out : List Emission}
    (h : Changes first path out second) (hplanned : first.Planned) (hbraked : Braked first.window) :
    Braked second.window := by
  induction h with
  | refl => exact hbraked
  | step hchange hrest ih => exact ih (hchange.planned hplanned) (hchange.braked hplanned hbraked)

/-- Whatever was called and however the backend answered, the window is planned to brake. -/
theorem Reachable.braked {planner : Planner β} (h : planner.Reachable) :
    0 < planner.lookahead ∧ planner.Planned ∧ Braked planner.window := by
  induction h with
  | make h =>
    obtain ⟨hlookahead, rfl⟩ := make_eq_ok h
    exact ⟨hlookahead, ⟨rfl, by simp⟩, .nil, trivial⟩
  | perform hreachable call ih =>
    obtain ⟨hlookahead, hplanned, hbraked⟩ := ih
    obtain ⟨out, hchanges, -⟩ := perform_changes _ hlookahead call
    refine ⟨?_, hchanges.planned hplanned, hchanges.braked hplanned hbraked⟩
    rwa [hchanges.lookahead.2]
  | lend hreachable backend ih =>
    obtain ⟨hlookahead, hplanned, hbraked⟩ := ih
    exact ⟨hlookahead, hplanned.frame rfl rfl, hbraked⟩

/-- The speed into each move of the window is one from which it can slow down to the speed out of
it, and so to the stop at the end of the window, and one that the move before it can reach. -/
theorem window_can_brake {planner : Planner β} (h : planner.Reachable)
    (hregular : ∀ move ∈ planner.window, move.Regular) :
    planner.frontEntry = Window.entrySpeed planner.window ∧
    (∀ (i : Nat) (hi : i < planner.window.length), planner.window[i].entry ≤
      planner.window[i].reachableFrom (Window.entrySpeed (planner.window.drop (i + 1)))) ∧
    ∀ (i : Nat) (hi : i + 1 < planner.window.length), planner.window[i + 1].entry ≤
      planner.window[i].reachableFrom planner.window[i].entry := by
  obtain ⟨-, hplanned, hfollows, hbrakes⟩ := h.braked
  refine ⟨hplanned.front, hbrakes.getElem hregular, fun i hi => ?_⟩
  have hmove := hregular _ (List.getElem_mem (Nat.lt_of_succ_lt hi))
  have hnext := hregular _ (List.getElem_mem hi)
  have hpair := List.isChain_iff_getElem.mp hfollows i hi
  have hentry := (Binary64.le_iff.mp (hbrakes.getElem hregular i (Nat.lt_of_succ_lt hi))).1
  exact Binary64.le_of_not_lt (hpair.entry hmove hnext).isNaN
    (hmove.isSpeed_reachableFrom hentry).isNaN hpair.reached

/-- The sample over a link that carries nothing, so that every move stays in the window. -/
def heldSample : Planner Limited := sample.map fun _ => { remaining := 0, failure := .queueClosed }

/-- A short move behind a long one, which has to slow down to the speed at which the short one can
still stop. -/
def joinedSample : Planner Limited := heldSample.run [goTo 10.0, goTo 10.45]

theorem window_can_brake_sample :
    joinedSample.window.map Move.entry =
      [0.0, if (heldSample.run [goTo 10.0]).turnsSharply (goTo 10.45) then 0.0 else 3000.0] ∧
    (∀ move ∈ joinedSample.window, move.Regular) ∧
    joinedSample.frontEntry = Window.entrySpeed joinedSample.window ∧
    (∀ (i : Nat) (hi : i < joinedSample.window.length), joinedSample.window[i].entry ≤
      joinedSample.window[i].reachableFrom
        (Window.entrySpeed (joinedSample.window.drop (i + 1)))) ∧
    ∀ (i : Nat) (hi : i + 1 < joinedSample.window.length), joinedSample.window[i + 1].entry ≤
      joinedSample.window[i].reachableFrom joinedSample.window[i].entry := by
  have hreachable : joinedSample.Reachable := Reachable.run (.make (make_sample_over _)) _
  have hregular : ∀ move ∈ joinedSample.window, move.Regular := by
    rw [joinedSample, run_second]
    cases (heldSample.run [goTo 10.0]).turnsSharply (goTo 10.45) <;> decide +kernel
  refine ⟨?_, hregular, window_can_brake hreachable hregular⟩
  rw [joinedSample, run_second]
  cases (heldSample.run [goTo 10.0]).turnsSharply (goTo 10.45) <;> decide +kernel

end Planner
end StepMotion
