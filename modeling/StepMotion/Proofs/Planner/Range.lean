import StepMotion.Proofs.Planner.Soundness

/-! The range of a path. As long as the path starts in a range and every move ends in it, all places
on the way are in it: planning keeps the moves steady, and what leaves the window passes the same
corners that it had there. -/
namespace StepMotion

open Binary64 Segment

namespace Window

open Move

variable {window : List Move} {axis : Axis} {place high : Int}

def stretch (axis : Axis) (window : List Move) : Int :=
  (window.map fun move => move.steps axis).sum

@[simp] theorem stretch_cons (move : Move) (rest : List Move) :
    stretch axis (move :: rest) = move.steps axis + stretch axis rest := rfl

@[simp] theorem stretch_append (first second : List Move) :
    stretch axis (first ++ second) = stretch axis first + stretch axis second := by
  simp [stretch]

theorem map_steps_replan (axis : Axis) (frontEntry : Float) (window : List Move) :
    (replan frontEntry window).map (fun move => move.steps axis) =
      window.map fun move => move.steps axis := by
  have hunplanned := congrArg (List.map fun move => move.steps axis)
    (map_unplanned_replan frontEntry window)
  rwa [List.map_map, List.map_map] at hunplanned

theorem stretch_replan (frontEntry : Float) :
    stretch axis (replan frontEntry window) = stretch axis window := by
  rw [stretch, map_steps_replan, stretch]

def corners (axis : Axis) (place : Int) (window : List Move) : List Int :=
  (window.map fun move => move.steps axis).scanl (· + ·) place

theorem corners_cons (move : Move) (rest : List Move) :
    corners axis place (move :: rest) =
      place :: corners axis (place + move.steps axis) rest :=
  List.scanl_cons

theorem start_mem_corners : place ∈ corners axis place window := by
  cases window with
  | nil => simp [corners]
  | cons move rest => simp [corners_cons]

theorem corners_concat (move : Move) :
    corners axis place (window ++ [move]) =
      corners axis place window ++ [place + stretch axis (window ++ [move])] := by
  induction window generalizing place with
  | nil => simp [corners, stretch]
  | cons first rest ih =>
    rw [List.cons_append, corners_cons, corners_cons, ih, List.cons_append, stretch_cons,
      Int.add_assoc]

/-- A path through steady moves whose corners are all in the range. -/
structure InRange (axis : Axis) (high place : Int) (window : List Move) : Prop where
  steady : ∀ move ∈ window, move.Steady
  corners : ∀ corner ∈ corners axis place window, corner ∈ Set.Icc 0 high

namespace InRange

theorem nil (hplace : place ∈ Set.Icc 0 high) : InRange axis high place [] where
  steady := List.forall_mem_nil _
  corners := List.forall_mem_singleton.mpr hplace

theorem replan (h : InRange axis high place window) {frontEntry : Float}
    (hfront : Unsigned frontEntry) : InRange axis high place (Window.replan frontEntry window) where
  steady := keeps_steady.replan hfront h.steady
  corners := by
    unfold Window.corners
    rw [map_steps_replan]
    exact h.corners

theorem concat (h : InRange axis high place window) {move : Move} (hmove : move.Steady)
    (hend : place + stretch axis (window ++ [move]) ∈ Set.Icc 0 high) :
    InRange axis high place (window ++ [move]) where
  steady := List.forall_mem_append.mpr ⟨h.steady, List.forall_mem_singleton.mpr hmove⟩
  corners := by
    rw [corners_concat]
    exact List.forall_mem_append.mpr ⟨h.corners, List.forall_mem_singleton.mpr hend⟩

theorem tail {move : Move} {rest : List Move} (h : InRange axis high place (move :: rest)) :
    InRange axis high (place + move.steps axis) rest where
  steady := (List.forall_mem_cons.mp h.steady).2
  corners := by
    have hcorners := h.corners
    rw [corners_cons] at hcorners
    exact (List.forall_mem_cons.mp hcorners).2

theorem start (h : InRange axis high place window) : place ∈ Set.Icc 0 high :=
  h.corners place start_mem_corners

theorem places_blocks (h : InRange axis high place window) (hhigh : high ≤ 2 ^ 53) :
    ∀ passed ∈ places axis place (blocks window).flatten, passed ∈ Set.Icc 0 high := by
  induction window generalizing place with
  | nil => simp [blocks, places]
  | cons move rest ih =>
    obtain ⟨hmove, hrest⟩ := List.forall_mem_cons.mp h.steady
    have hstart := Set.mem_Icc.mp h.start
    have hend := Set.mem_Icc.mp h.tail.start
    have hsteps : (move.steps axis).natAbs ≤ 2 ^ 53 := by omega
    rw [blocks, List.flatten_cons, places_append, Move.total_segments, List.forall_mem_append]
    refine ⟨?_, ih h.tail⟩
    rw [← Int.add_zero place, places_add, List.forall_mem_map]
    intro passed hpassed
    have hbetween := hmove.mem_of_mem_segments (unsigned_entrySpeed hrest) hsteps hpassed
    rw [Set.mem_uIcc] at hbetween
    rw [Set.mem_Icc]
    omega

theorem drop (h : InRange axis high place window) (k : Nat) :
    InRange axis high (place + total ((blocks window).take k).flatten axis) (window.drop k) := by
  induction k generalizing place window with
  | zero => simpa using h
  | succ k ih =>
    cases window with
    | nil => simpa [blocks] using h
    | cons move rest =>
      have hrest := ih h.tail
      rwa [Int.add_assoc, ← Move.total_segments move (entrySpeed rest) axis, ← total_append]
        at hrest

end InRange

theorem stretch_eq_total (axis : Axis) (k : Nat) (window : List Move) :
    stretch axis window =
      total ((blocks window).take k).flatten axis + stretch axis (window.drop k) := by
  induction k generalizing window with
  | zero => simp
  | succ k ih =>
    cases window with
    | nil => simp [blocks]
    | cons move rest =>
      rw [stretch_cons, blocks, List.take_succ_cons, List.flatten_cons, total_append,
        Move.total_segments, List.drop_succ_cons, ih rest, Int.add_assoc]

end Window

namespace Planner

open Window MotorCall

variable {β : Type} {config : MachineConfig} {wiring : Wiring} {axis : Axis}
  {high place start : Int}

/-- A planner with a path that begins at a place in the range and keeps to the range. -/
structure InRange (config : MachineConfig) (wiring : Wiring) (axis : Axis) (high place : Int)
    (planner : Planner β) : Prop where
  sameConfig : planner.config = config
  sameWiring : planner.wiring = wiring
  lookahead : 0 < planner.lookahead
  planned : planner.Planned
  window : Window.InRange axis high place planner.window
  ends : place + stretch axis planner.window = planner.stepPosition axis
  idle : ∀ other, isActive config wiring other = false → planner.stepPosition other = 0

theorem inRange_of_make {backend : β} {lookahead : Nat} {planner : Planner β}
    (hmake : make config wiring backend lookahead = .ok planner) (hhigh : 0 ≤ high) :
    InRange config wiring axis high 0 planner := by
  obtain ⟨hlookahead, rfl⟩ := make_eq_ok hmake
  refine ⟨rfl, rfl, hlookahead, ⟨rfl, List.forall_mem_nil _⟩, .nil ⟨le_refl 0, hhigh⟩, ?_, ?_⟩
  · exact (Steps.get_zero axis).symm
  · exact fun other _ => Steps.get_zero other

namespace InRange

variable {planner : Planner β}

theorem map {γ : Type} (h : InRange config wiring axis high place planner) (f : β → γ) :
    InRange config wiring axis high place (planner.map f) where
  sameConfig := h.sameConfig
  sameWiring := h.sameWiring
  lookahead := h.lookahead
  planned := h.planned.frame rfl rfl
  window := h.window
  ends := h.ends
  idle := h.idle

theorem push (h : InRange config wiring axis high place planner) (husable : config.Usable)
    {target : Register Float} {feedrate : Float} {move : Move}
    (hrequest : planner.requested? target feedrate = some move)
    (htarget : ∀ steps, stepsOf? config wiring target = some steps → steps axis ∈ Set.Icc 0 high) :
    Window.InRange axis high place (planner.push move).window ∧
      stretch axis (planner.push move).window = stretch axis planner.window + move.steps axis ∧
      ∀ other, isActive config wiring other = false → move.steps other = 0 := by
  obtain ⟨-, steps, hsteps, hmove, -⟩ := requested?_eq_some hrequest
  obtain ⟨rfl, rfl⟩ := And.intro h.sameConfig h.sameWiring
  obtain ⟨hsteady, hidle⟩ := steady_of_requested husable h.idle hrequest
  obtain ⟨cap, hcap, hwindow⟩ := h.planned.window_push_unsigned h.window.steady hsteady
  have hstretch : stretch axis (planner.window ++ [{ move with entryCap := cap }]) =
      stretch axis planner.window + move.steps axis := by
    rw [stretch_append]
    simp [stretch]
  have hend : place + (stretch axis planner.window + move.steps axis) = steps axis := by
    have hends := h.ends
    rw [hmove, Steps.get_sub]
    omega
  rw [hwindow, stretch_replan, hstretch]
  refine ⟨(h.window.concat (hsteady.withEntryCap hcap) ?_).replan
    (h.planned.speed_frontEntry keeps_steady h.window.steady), rfl, hidle⟩
  rw [hstretch, hend]
  exact htarget steps hsteps

theorem aim (h : InRange config wiring axis high place planner) (hempty : planner.window = [])
    {position : Register Float} {steps : Steps}
    (hsteps : stepsOf? config wiring position = some steps)
    (hrange : steps axis ∈ Set.Icc 0 high) :
    InRange config wiring axis high (steps axis) (planner.aim position steps) where
  sameConfig := h.sameConfig
  sameWiring := h.sameWiring
  lookahead := h.lookahead
  planned := h.planned.frame rfl rfl
  window := by
    change Window.InRange axis high (steps axis) planner.window
    rw [hempty]
    exact .nil hrange
  ends := by
    change steps axis + stretch axis planner.window = steps axis
    rw [hempty]
    exact Int.add_zero _
  idle := fun other hother => stepsOf?_inactive hsteps hother

end InRange

/-- A planner that began at `start` and whose segments kept to the range so far. -/
structure Tracked (config : MachineConfig) (wiring : Wiring) (axis : Axis) (high start : Int)
    (planner : Planner (Traced β)) : Prop where
  inRange : InRange config wiring axis high (start + total planner.backend.accepted axis) planner
  passed : ∀ place ∈ places axis start planner.backend.accepted, place ∈ Set.Icc 0 high

theorem InRange.traced {planner : Planner β}
    (h : InRange config wiring axis high place planner) :
    Tracked config wiring axis high place planner.traced where
  inRange := by
    change InRange config wiring axis high (place + 0) planner.traced
    rw [Int.add_zero]
    exact h.map fun backend => (⟨backend, []⟩ : Traced β)
  passed := List.forall_mem_nil _

def Unrefused (calls : List MotorCall) : Prop := ∀ segment, .enqueue segment false ∉ calls

instance (calls : List MotorCall) : Decidable (Unrefused calls) :=
  decidable_of_iff (calls.filterMap refused? = []) <| by
    simp only [Unrefused, List.filterMap_eq_nil_iff]
    constructor
    · intro h segment hsegment
      exact absurd (h _ hsegment) (by simp [refused?])
    · intro h call hcall
      match call with
      | .enqueue segment false => exact absurd hcall (h segment)
      | .enqueue segment true => rfl
      | .enable on => rfl
      | .waitEmpty succeeded => rfl

variable {planner left : Planner (Traced β)}

theorem Delivered.whole {moves : List Move} {refused : Prop}
    (h : Delivered planner moves refused left) (hunrefused : Unrefused left.backend.calls) :
    ∃ k, Delivers planner moves k [] [] left := by
  rcases h with ⟨-, k, -, hdelivers⟩ | ⟨-, -, k, part, segment, rest, -, hdelivers⟩
  · exact ⟨k, hdelivers⟩
  · refine absurd ?_ (hunrefused segment)
    rw [hdelivers.calls]
    simp [handing]

theorem Unrefused.mono {calls part : List MotorCall} (h : Unrefused calls) (hpart : part ⊆ calls) :
    Unrefused part :=
  fun segment hsegment => h segment (hpart hsegment)

namespace Tracked

theorem lend (h : Tracked config wiring axis high start planner) {backend : Traced β}
    (haccepted : backend.accepted = planner.backend.accepted) :
    Tracked config wiring axis high start { planner with backend := backend } := by
  obtain ⟨hrange, hpassed⟩ := h
  rw [← haccepted] at hrange hpassed
  exact ⟨hrange.map fun _ => backend, hpassed⟩

theorem deliver (h : Tracked config wiring axis high start planner) (hhigh : high ≤ 2 ^ 53)
    {moves : List Move} {refused : Prop} {path : List Event} {out : List Emission} [MotorBackend β]
    (hdelivered : Delivered planner moves refused left)
    (hunrefused : Unrefused left.backend.calls) (hchanges : Changes planner path out left)
    (hmoves : Window.InRange axis high (start + total planner.backend.accepted axis) moves)
    (hpath : stretch axis moves =
      stretch axis planner.window + (path.map fun event => event.shift axis).sum)
    (hidle : ∀ other, isActive config wiring other = false →
      (path.map fun event => event.shift other).sum = 0) :
    Tracked config wiring axis high start left := by
  obtain ⟨k, hdelivers⟩ := hdelivered.whole hunrefused
  have haccepted := hdelivers.accepted
  rw [List.append_nil] at haccepted
  have hplace : start + total left.backend.accepted axis =
      start + total planner.backend.accepted axis +
        total ((blocks moves).take k).flatten axis := by
    rw [haccepted, total_append, Int.add_assoc]
  refine ⟨⟨?_, ?_, ?_, hchanges.planned h.inRange.planned, ?_, ?_, ?_⟩, ?_⟩
  · rw [hchanges.lookahead.1, h.inRange.sameConfig]
  · rw [hchanges.wiring, h.inRange.sameWiring]
  · rw [hchanges.lookahead.2]
    exact h.inRange.lookahead
  · rw [hplace, hdelivers.window]
    exact hmoves.drop k
  · have hends := h.inRange.ends
    have hsplit := stretch_eq_total axis k moves
    rw [hplace, hdelivers.window, hchanges.stepPosition]
    omega
  · intro other hother
    rw [hchanges.stepPosition, h.inRange.idle other hother, hidle other hother]
    rfl
  · rw [haccepted, places_append, List.forall_mem_append]
    refine ⟨h.passed, fun place hplace => hmoves.places_blocks hhigh place ?_⟩
    rw [← List.take_append_drop k (blocks moves), List.flatten_append, places_append]
    exact List.mem_append_left _ hplace

variable [MotorBackend β]

theorem enqueue (h : Tracked config wiring axis high start planner) (hhigh : high ≤ 2 ^ 53)
    (husable : config.Usable) {target : Register Float} {feedrate : Float}
    (htarget : ∀ steps, stepsOf? config wiring target = some steps → steps axis ∈ Set.Icc 0 high)
    (hunrefused : Unrefused (planner.enqueue target feedrate).state.backend.calls) :
    Tracked config wiring axis high start (planner.enqueue target feedrate).state := by
  obtain ⟨out, hchanges⟩ := planner.enqueue_changes h.inRange.lookahead target feedrate
  have hdelivered := enqueue_delivered h.inRange.planned target feedrate
  simp only [planned, events] at hdelivered hchanges
  cases hrequest : planner.requested? target feedrate with
  | none =>
    rw [hrequest] at hdelivered hchanges
    refine h.deliver hhigh hdelivered hunrefused hchanges h.inRange.window ?_ fun _ _ => rfl
    exact (Int.add_zero _).symm
  | some move =>
    rw [hrequest] at hdelivered hchanges
    obtain ⟨hwindow, hstretch, hidle⟩ := h.inRange.push husable hrequest htarget
    refine h.deliver hhigh hdelivered hunrefused hchanges hwindow ?_ fun other hother => ?_
    · simpa [Event.shift] using hstretch
    · simpa [Event.shift] using hidle other hother

theorem halt (h : Tracked config wiring axis high start planner) (hhigh : high ≤ 2 ^ 53)
    (hunrefused : Unrefused planner.halt.state.backend.calls) :
    Tracked config wiring axis high start planner.halt.state := by
  obtain ⟨out, hchanges, -⟩ := planner.halt_changes
  have hstays : ∀ other, ((planner.events .halt).map fun event => event.shift other).sum = 0 := by
    intro other
    rw [events]
    split <;> simp [Event.shift]
  refine h.deliver hhigh planner.halt_delivered hunrefused hchanges
    (h.inRange.window.replan (h.inRange.planned.speed_frontEntry keeps_steady h.inRange.window.steady)) ?_
    fun other _ => hstays other
  rw [stretch_replan, hstays, Int.add_zero]

end Tracked

end Planner
end StepMotion
