import StepMotion.Proofs.Motion.Braking
import StepMotion.Proofs.Planner.Changes

/-! What planning keeps to: it changes nothing but the speeds into the moves, none of these is above
its cap, and the speed into the first move stays the one that was handed over. -/
namespace StepMotion

namespace Move

open Binary64

theorem not_reachableFrom_neg (move : Move) (speed : Float) : ¬ move.reachableFrom speed < 0.0 := by
  rw [lt_iff, value_zero]
  exact fun h => h.2.2.not_ge (value_sqrt_nonneg _)

/-- No faster than the corner before the move allows, and at rest at a stop. -/
structure WithinCap (move : Move) : Prop where
  notAbove : ¬ move.entryCap < move.entry
  stop : move.entryCap = 0.0 → move.entry = 0.0

def unplanned (move : Move) : Move := { move with entry := 0.0 }

theorem withinCap_lesser (move : Move) {fastest : Float} (h : ¬ fastest < 0.0) :
    ({ move with entry := lesser move.entryCap fastest } : Move).WithinCap where
  notAbove := not_lt_lesser_left _ _
  stop hstop := by
    change move.entryCap = 0.0 at hstop
    change lesser move.entryCap fastest = 0.0
    rw [hstop]
    rcases lesser_cases 0.0 fastest with ⟨heq, -⟩ | ⟨-, -, hlt | hnan⟩
    · exact heq
    · exact absurd hlt h
    · exact absurd hnan (by decide)

theorem WithinCap.slower {move : Move} (hcap : move.WithinCap) {reachable : Float}
    (h : ¬ reachable < 0.0) :
    (if reachable < move.entry then { move with entry := reachable } else move).WithinCap := by
  split
  · next hlt =>
    refine ⟨fun habove => hcap.notAbove (Binary64.lt_trans habove hlt), fun hstop => ?_⟩
    rw [hcap.stop hstop] at hlt
    exact absurd hlt h
  · exact hcap

end Move

namespace Window

open Move

theorem map_unplanned_planBackward (window : List Move) :
    (planBackward window).map unplanned = window.map unplanned := by
  induction window with
  | nil => rfl
  | cons move rest ih =>
    rw [planBackward, List.map_cons, List.map_cons, ih]
    rfl

theorem map_unplanned_planForward (reachable : Float) (window : List Move) :
    (planForward reachable window).map unplanned = window.map unplanned := by
  induction window generalizing reachable with
  | nil => rfl
  | cons move rest ih =>
    rw [planForward, List.map_cons, List.map_cons, ih]
    split <;> rfl

theorem map_unplanned_replan (frontEntry : Float) (window : List Move) :
    (replan frontEntry window).map unplanned = window.map unplanned := by
  cases window with
  | nil => rfl
  | cons front rest =>
    rw [replan, List.map_cons, List.map_cons, map_unplanned_planForward, map_unplanned_planBackward]
    rfl

theorem forall_mem_congr {P : Move → Prop} (hP : ∀ move, P move.unplanned ↔ P move)
    {window window' : List Move} (h : window.map unplanned = window'.map unplanned) :
    (∀ move ∈ window, P move) ↔ ∀ move ∈ window', P move := by
  have hunplanned : ∀ w : List Move,
      (∀ move ∈ w, P move) ↔ ∀ move ∈ w.map unplanned, P move := by
    intro w
    simp only [List.forall_mem_map, hP]
  rw [hunplanned window, hunplanned window', h]

/-- A property of moves and one of speeds that planning keeps, whichever speeds it decides on. -/
structure Keeps (P : Move → Prop) (S : Float → Prop) : Prop where
  rest : S 0.0
  speed : ∀ {move : Move}, P move → S move.entry
  given : ∀ {move : Move} {speed : Float}, P move → S speed → P { move with entry := speed }
  backward : ∀ {move : Move} {speed : Float}, P move → S speed →
    P { move with entry := Binary64.lesser move.entryCap (move.reachableFrom speed) }
  forward : ∀ {before move : Move} {speed : Float}, P before → S speed → P move →
    before.reachableFrom speed < move.entry →
      P { move with entry := before.reachableFrom speed }

namespace Keeps

variable {P : Move → Prop} {S : Float → Prop} (h : Keeps P S) {window : List Move}

include h

theorem entrySpeed (hwindow : ∀ move ∈ window, P move) : S (entrySpeed window) := by
  cases window with
  | nil => exact h.rest
  | cons move rest => exact h.speed (hwindow move List.mem_cons_self)

theorem planBackward (hwindow : ∀ move ∈ window, P move) :
    ∀ move ∈ planBackward window, P move := by
  induction window with
  | nil => exact List.forall_mem_nil _
  | cons move rest ih =>
    rw [List.forall_mem_cons] at hwindow
    rw [Window.planBackward, List.forall_mem_cons]
    exact ⟨h.backward hwindow.1 (h.entrySpeed (ih hwindow.2)), ih hwindow.2⟩

theorem planForward {before : Move} {speed : Float} (hbefore : P before) (hspeed : S speed)
    (hwindow : ∀ move ∈ window, P move) :
    ∀ move ∈ planForward (before.reachableFrom speed) window, P move := by
  induction window generalizing before speed with
  | nil => exact List.forall_mem_nil _
  | cons move rest ih =>
    rw [List.forall_mem_cons] at hwindow
    have hslower : P (if before.reachableFrom speed < move.entry then
        { move with entry := before.reachableFrom speed } else move) := by
      split
      · next hlt => exact h.forward hbefore hspeed hwindow.1 hlt
      · exact hwindow.1
    rw [Window.planForward, List.forall_mem_cons]
    exact ⟨hslower, ih hslower (h.speed hslower) hwindow.2⟩

theorem replan {frontEntry : Float} (hfront : S frontEntry) (hwindow : ∀ move ∈ window, P move) :
    ∀ move ∈ replan frontEntry window, P move := by
  cases window with
  | nil => exact List.forall_mem_nil _
  | cons front rest =>
    rw [List.forall_mem_cons] at hwindow
    have hentry := h.given hwindow.1 hfront
    rw [Window.replan, List.forall_mem_cons]
    exact ⟨hentry, h.planForward hentry hfront (h.planBackward hwindow.2)⟩

end Keeps

theorem keeps_steps (P : Steps → Prop) : Keeps (fun move => P move.steps) fun _ => True :=
  ⟨trivial, fun _ => trivial, fun h _ => h, fun h _ => h, fun _ _ h _ => h⟩

theorem withinCap_planBackward {window : List Move} :
    ∀ move ∈ planBackward window, move.WithinCap := by
  induction window with
  | nil => simp [planBackward]
  | cons move rest ih =>
    rw [planBackward, List.forall_mem_cons]
    exact ⟨withinCap_lesser move (not_reachableFrom_neg _ _), ih⟩

theorem withinCap_planForward {reachable : Float} {window : List Move} (h : ¬ reachable < 0.0)
    (hcaps : ∀ move ∈ window, move.WithinCap) :
    ∀ move ∈ planForward reachable window, move.WithinCap := by
  induction window generalizing reachable with
  | nil => simp [planForward]
  | cons move rest ih =>
    rw [List.forall_mem_cons] at hcaps
    rw [planForward, List.forall_mem_cons]
    exact ⟨hcaps.1.slower h, ih (not_reachableFrom_neg _ _) hcaps.2⟩

theorem withinCap_replan {frontEntry : Float} {front : Move} {rest : List Move}
    (h : ({ front with entry := frontEntry } : Move).WithinCap) :
    ∀ move ∈ replan frontEntry (front :: rest), move.WithinCap := by
  rw [replan, List.forall_mem_cons]
  exact ⟨h, withinCap_planForward (not_reachableFrom_neg _ _) withinCap_planBackward⟩

end Window

namespace Planner

variable {β : Type}

structure Planned (planner : Planner β) : Prop where
  front : planner.frontEntry = Window.entrySpeed planner.window
  withinCap : ∀ move ∈ planner.window, move.WithinCap

theorem Planned.frame {γ : Type} {planner : Planner β} {other : Planner γ} (h : planner.Planned)
    (hwindow : other.window = planner.window) (hfront : other.frontEntry = planner.frontEntry) :
    other.Planned where
  front := by rw [hfront, hwindow, h.front]
  withinCap := by rw [hwindow]; exact h.withinCap

theorem Planned.frontEntry_of_empty {planner : Planner β} (h : planner.Planned)
    (hempty : planner.window = []) : planner.frontEntry = 0.0 := by
  rw [h.front, hempty]
  rfl

def cornerCap (planner : Planner β) (last move : Move) : Float :=
  Corner.speedCap planner.config.thresholdAngle last.direction last.cruise move.direction
    move.cruise

theorem push_of_empty {planner : Planner β} (h : planner.window = []) (move : Move) :
    (planner.push move).window = [{ move with entry := 0.0 }] ∧
      (planner.push move).frontEntry = 0.0 := by
  unfold push
  simp only [h, List.getLast?_nil]
  exact ⟨rfl, trivial⟩

theorem push_of_getLast {planner : Planner β} {last : Move}
    (h : planner.window.getLast? = some last) (move : Move) :
    (planner.push move).window = Window.replan planner.frontEntry
        (planner.window ++ [{ move with entryCap := planner.cornerCap last move }]) ∧
      (planner.push move).frontEntry = planner.frontEntry := by
  unfold push
  simp only [h]
  exact ⟨rfl, trivial⟩

/-- A move enters the window with some cap, and the window is planned anew. -/
theorem window_push {planner : Planner β} (h : planner.Planned) (move : Move) :
    ∃ cap, (cap = move.entryCap ∨ ∃ last ∈ planner.window, cap = planner.cornerCap last move) ∧
      (planner.push move).window =
        Window.replan planner.frontEntry (planner.window ++ [{ move with entryCap := cap }]) := by
  cases hlast : planner.window.getLast? with
  | none =>
    have hempty := List.getLast?_eq_none_iff.mp hlast
    refine ⟨move.entryCap, .inl rfl, ?_⟩
    rw [(push_of_empty hempty move).1, hempty, h.frontEntry_of_empty hempty]
    rfl
  | some last =>
    exact ⟨_, .inr ⟨last, List.mem_of_getLast? hlast, rfl⟩, (push_of_getLast hlast move).1⟩

theorem frontEntry_push {planner : Planner β} (h : planner.Planned) (move : Move) :
    (planner.push move).frontEntry = planner.frontEntry := by
  cases hlast : planner.window.getLast? with
  | none =>
    have hempty := List.getLast?_eq_none_iff.mp hlast
    exact (push_of_empty hempty move).2.trans (h.frontEntry_of_empty hempty).symm
  | some last => exact (push_of_getLast hlast move).2

section Keeps

variable {P : Move → Prop} {S : Float → Prop} {planner : Planner β} (hkeeps : Window.Keeps P S)
  (h : planner.Planned) (hwindow : ∀ move ∈ planner.window, P move)

include hkeeps h hwindow

theorem Planned.speed_frontEntry : S planner.frontEntry := h.front ▸ hkeeps.entrySpeed hwindow

theorem Planned.forall_mem_push {move : Move} (hmove : P move)
    (hcapped : ∀ last ∈ planner.window, P { move with entryCap := planner.cornerCap last move }) :
    ∀ other ∈ (planner.push move).window, P other := by
  obtain ⟨cap, hcap, hpush⟩ := window_push h move
  have hadded : P { move with entryCap := cap } := by
    rcases hcap with rfl | ⟨last, hlast, rfl⟩
    · exact hmove
    · exact hcapped last hlast
  rw [hpush]
  exact hkeeps.replan (h.speed_frontEntry hkeeps hwindow)
    (List.forall_mem_append.mpr ⟨hwindow, List.forall_mem_singleton.mpr hadded⟩)

end Keeps

theorem Planned.replan {planner : Planner β} (h : planner.Planned) (added : List Move)
    (hwindow : planner.window ≠ []) :
    planner.frontEntry =
        Window.entrySpeed (Window.replan planner.frontEntry (planner.window ++ added)) ∧
      ∀ move ∈ Window.replan planner.frontEntry (planner.window ++ added), move.WithinCap := by
  obtain ⟨hfront, hcaps⟩ := h
  cases hcons : planner.window with
  | nil => contradiction
  | cons front rest =>
    rw [hcons] at hfront hcaps
    refine ⟨rfl, Window.withinCap_replan ?_⟩
    rw [hfront]
    exact hcaps front (by simp)

theorem Planned.replanned {planner : Planner β} (h : planner.Planned) :
    ({ planner with window := Window.replan planner.frontEntry planner.window } :
      Planner β).Planned := by
  by_cases hempty : planner.window = []
  · refine ⟨?_, ?_⟩ <;> simp only [hempty, Window.replan]
    · exact h.frontEntry_of_empty hempty
    · simp
  · have hkept := h.replan [] hempty
    rw [List.append_nil] at hkept
    exact ⟨hkept.1, hkept.2⟩

theorem Planned.push {planner : Planner β} (hplanned : planner.Planned) {move : Move}
    {feedrate : Float} (h : Move.plan? planner.config move.steps feedrate = some move) :
    (planner.push move).Planned := by
  cases hlast : planner.window.getLast? with
  | none =>
    obtain ⟨hwindow, hfront⟩ := push_of_empty (List.getLast?_eq_none_iff.mp hlast) move
    obtain ⟨-, -, hcap, -⟩ := Move.plan?_eq_some h
    refine ⟨by rw [hwindow, hfront]; rfl, ?_⟩
    rw [hwindow, List.forall_mem_singleton]
    refine ⟨?_, fun _ => rfl⟩
    rw [hcap]
    exact Binary64.not_lt_self 0.0
  | some last =>
    obtain ⟨hwindow, hfront⟩ := push_of_getLast hlast move
    have hnonempty := List.ne_nil_of_mem (List.mem_of_getLast? hlast)
    obtain ⟨hspeed, hcaps⟩ :=
      hplanned.replan [{ move with entryCap := planner.cornerCap last move }] hnonempty
    exact ⟨by rw [hwindow, hfront]; exact hspeed, by rw [hwindow]; exact hcaps⟩

theorem Planned.goOn {planner : Planner β} (h : planner.Planned) {move : Move} {rest : List Move}
    (hwindow : planner.window = move :: rest) (backend : β) :
    (planner.goOn rest backend).Planned := by
  refine ⟨rfl, fun other hother => h.withinCap other ?_⟩
  rw [hwindow]
  exact List.mem_cons_of_mem _ hother

section Turns

/-! The angle of a corner is an arc cosine, of which nothing is known. A run over given calls is
evaluated with its corners sharp and with its corners not sharp. -/

def meetsSharply (planner : Planner β) (move : Move) : Bool :=
  planner.window.getLast?.any fun last =>
    Corner.isSharp planner.config.thresholdAngle (Corner.angle last.direction move.direction)

/-- Whether the move that a call puts into the window makes a sharp corner with the last one. -/
def turnsSharply (planner : Planner β) : Call → Bool
  | .enqueue target feedrate => (planner.requested? target feedrate).any planner.meetsSharply
  | _ => false

theorem turnsSharply_map {γ : Type} (f : β → γ) (planner : Planner β) (call : Call) :
    (planner.map f).turnsSharply call = planner.turnsSharply call := by
  cases call <;> rfl

/-- Adds a move at the end of the window without a look at the angle of the corner. -/
def pushTurning (sharp : Bool) (planner : Planner β) (move : Move) : Planner β :=
  match planner.window.getLast? with
  | none => planner.push move
  | some last =>
    let cap := if sharp then 0.0 else Binary64.lesser last.cruise move.cruise
    { planner with
      window := Window.replan planner.frontEntry (planner.window ++ [{ move with entryCap := cap }])
      state := .buffering }

theorem push_eq_pushTurning (planner : Planner β) (move : Move) :
    planner.push move = planner.pushTurning (planner.meetsSharply move) move := by
  cases hlast : planner.window.getLast? with
  | none => simp only [pushTurning, hlast]
  | some last =>
    simp only [push, pushTurning, meetsSharply, hlast, Option.any_some]
    rfl

variable [MotorBackend β]

def performTurning (sharp : Bool) (planner : Planner β) : Call → Attempt PlannerError (Planner β)
  | .enqueue target feedrate =>
    match planner.requested? target feedrate with
    | none => planner.perform (.enqueue target feedrate)
    | some move =>
      let aimed := planner.aim target (planner.stepPosition.add move.steps)
      ((aimed.pushTurning sharp move).emitSettled.andThen
        fun planner => .done planner.settle).within .motor id
  | call => planner.perform call

theorem perform_eq_performTurning (planner : Planner β) (call : Call) :
    planner.perform call = planner.performTurning (planner.turnsSharply call) call := by
  cases call with
  | enqueue target feedrate =>
    cases hrequest : planner.requested? target feedrate with
    | none => simp only [performTurning, hrequest]
    | some move =>
      simp only [performTurning, turnsSharply, hrequest, Option.any_some]
      rw [perform, enqueue_of_requested hrequest, push_eq_pushTurning]
      rfl
  | halt => rfl
  | setPosition position => rfl

theorem run_second (planner : Planner β) (first second : Call) (after : List Call) :
    planner.run (first :: second :: after) =
      ((planner.run [first]).performTurning
        ((planner.run [first]).turnsSharply second) second).state.run after := by
  rw [← perform_eq_performTurning]
  rfl

theorem emitted_second (planner : Planner β) (first second : Call) (after : List Call) :
    planner.emitted (first :: second :: after) =
      (((planner.traced.run [first]).performTurning
        ((planner.run [first]).turnsSharply second) second).state.run after).backend.accepted := by
  have hsame := turnsSharply_map Traced.inner (planner.traced.run [first]) second
  rw [run_traced] at hsame
  rw [emitted, run_second, hsame]

def joinedCalls : List Call :=
  [goTo 10.0, goTo 20.0, .halt, .setPosition (.fill 3.0), goTo 0.0, .halt]

end Turns

variable [MotorBackend β]

theorem Change.planned {first second : Planner β} {path : List Event} {out : List Emission}
    (h : Change first path out second) (hplanned : first.Planned) : second.Planned := by
  cases h with
  | note position state => exact hplanned.frame rfl rfl
  | @push move _ hplan =>
    have hstepped : Planned
        ({ first with stepPosition := first.stepPosition.add move.steps } : Planner β) :=
      hplanned.frame rfl rfl
    exact hstepped.push hplan
  | replan => exact hplanned.replanned
  | emit hwindow hsent => exact hplanned.goOn hwindow _
  | drain hwindow hsent => exact hplanned.goOn hwindow _
  | refuse hwindow hsent => exact hplanned.frame rfl rfl
  | halt hempty => exact hplanned
  | rebase hempty steps => exact hplanned.frame rfl rfl

theorem Changes.planned {first second : Planner β} {path : List Event} {out : List Emission}
    (h : Changes first path out second) (hplanned : first.Planned) : second.Planned := by
  induction h with
  | refl => exact hplanned
  | step hchange hrest ih => exact ih (hchange.planned hplanned)

end Planner
end StepMotion
