import StepMotion.Proofs.Planner.Soundness

/-! A sharp corner is a halt. The moves before it are planned as if the path ended there and are
handed over at once, so that a planner that takes a sharp corner and one that is halted first are in
the same state afterwards, with the same segments behind them. -/
namespace StepMotion

open Binary64 Move

namespace Window

variable {window : List Move} {stop : Move}

theorem entrySpeed_concat (h : stop.entry = 0.0) :
    entrySpeed (window ++ [stop]) = entrySpeed window := by
  cases window with
  | nil => exact h
  | cons move rest => rfl

theorem planBackward_concat (hcap : stop.entryCap = 0.0) :
    planBackward (window ++ [stop]) = planBackward window ++ [unplanned stop] := by
  induction window with
  | nil =>
    have hspeed := (withinCap_lesser stop (not_reachableFrom_neg stop 0.0)).stop hcap
    change [({ stop with entry := lesser stop.entryCap (stop.reachableFrom 0.0) } : Move)] = _
    exact congrArg (fun speed => [({ stop with entry := speed } : Move)]) hspeed
  | cons move rest ih =>
    rw [List.cons_append, planBackward, planBackward, ih, entrySpeed_concat rfl, List.cons_append]

theorem planForward_concat (hentry : stop.entry = 0.0) {reachable : Float}
    (h : ¬ reachable < 0.0) :
    planForward reachable (window ++ [stop]) = planForward reachable window ++ [stop] := by
  induction window generalizing reachable with
  | nil =>
    rw [← hentry] at h
    simp only [List.nil_append, planForward, h, ↓reduceIte]
  | cons move rest ih =>
    rw [List.cons_append, planForward, planForward, ih (not_reachableFrom_neg _ _),
      List.cons_append]

/-- A stop at the end does not change how the moves before it are planned. -/
theorem replan_concat (hcap : stop.entryCap = 0.0) (hwindow : window ≠ []) (frontEntry : Float) :
    replan frontEntry (window ++ [stop]) = replan frontEntry window ++ [unplanned stop] := by
  obtain ⟨front, rest, rfl⟩ := List.exists_cons_of_ne_nil hwindow
  rw [List.cons_append, replan, replan, planBackward_concat hcap,
    planForward_concat rfl (not_reachableFrom_neg _ _), List.cons_append]

end Window

namespace Planner

open Window

variable {β : Type} [MotorBackend β]

/-- A move behind those that are handed over, which starts from rest, stays as it is. -/
theorem emitFront_alongside {count : Nat} {planner longer : Planner β} {stop : Move}
    (hstop : stop.entry = 0.0) (hcount : count ≤ planner.window.length)
    (hwindow : longer.window = planner.window ++ [stop])
    (hfront : longer.frontEntry = planner.frontEntry)
    (hbackend : longer.backend = planner.backend) :
    emitFront count longer = (emitFront count planner).map fun left => { longer with
      window := left.window ++ [stop]
      frontEntry := left.frontEntry
      backend := left.backend } := by
  induction count generalizing planner longer with
  | zero =>
    simp only [emitFront, Attempt.map, Attempt.done, ← hwindow, ← hfront, ← hbackend]
  | succ count ih =>
    cases hcons : planner.window with
    | nil => simp [hcons] at hcount
    | cons move rest =>
      rw [hcons] at hcount
      rw [hcons, List.cons_append] at hwindow
      have hoffer : longer.offer move (rest ++ [stop]) = planner.offer move rest := by
        unfold offer
        rw [entrySpeed_concat hstop, hbackend]
      by_cases hsent : (planner.offer move rest).Succeeds
      · rw [emitFront_of_accepted count hcons hsent,
          emitFront_of_accepted count hwindow (by rwa [hoffer]), hoffer]
        exact ih (Nat.le_of_succ_le_succ hcount) rfl (entrySpeed_concat hstop) rfl
      · rw [emitFront_of_refused count hcons hsent,
          emitFront_of_refused count hwindow (by rwa [hoffer]), hoffer]
        simp only [Attempt.map, hcons, List.cons_append, ← hwindow, ← hfront]

section Corner

variable {planner : Planner β} {target : Register Float} {feedrate : Float} {move last : Move}

def setOut (planner : Planner β) (target : Register Float) (move : Move) : Planner β :=
  { planner with
    window := [unplanned move]
    frontEntry := 0.0
    position := target
    stepPosition := planner.stepPosition.add move.steps
    state := .buffering }

theorem enqueue_at_rest (hlookahead : 0 < planner.lookahead) (hempty : planner.window = [])
    (h : planner.requested? target feedrate = some move) :
    planner.enqueue target feedrate = .done (planner.setOut target move) := by
  have hpush : (planner.aim target (planner.stepPosition.add move.steps)).push move =
      planner.setOut target move := by
    unfold push
    simp only [aim, hempty, List.getLast?_nil]
    rfl
  have hwaits : (planner.setOut target move).emitSettled = .done (planner.setOut target move) := by
    have hnone : 1 - planner.lookahead = 0 := by omega
    change emitFront (1 - planner.lookahead) (planner.setOut target move) = _
    rw [hnone, emitFront]
  rw [enqueue_of_requested h, hpush, hwaits]
  rfl

def stopped (planner : Planner β) (target : Register Float) (move : Move) : Planner β :=
  { planner with
    window := Window.replan planner.frontEntry planner.window ++ [unplanned move]
    position := target
    stepPosition := planner.stepPosition.add move.steps
    state := .buffering }

omit [MotorBackend β] in
theorem push_of_sharp (hlast : planner.window.getLast? = some last)
    (hcap : planner.cornerCap last move = 0.0) (hmove : move.entryCap = 0.0) :
    (planner.aim target (planner.stepPosition.add move.steps)).push move =
      planner.stopped target move := by
  have hnonempty : planner.window ≠ [] := List.ne_nil_of_mem (List.mem_of_getLast? hlast)
  have hstop : ({ move with entryCap := planner.cornerCap last move } : Move) = move := by
    rw [hcap, ← hmove]
  rw [stopped, ← replan_concat hmove hnonempty]
  conv_rhs => rw [← hstop]
  unfold push
  simp only [aim, hlast]
  rfl

/-- The moves before the stop are handed over as by a halt. -/
theorem emitSettled_stopped (hlookahead : 0 < planner.lookahead) (hwindow : planner.window ≠ [])
    (haccepting : MotorBackend.Accepting planner.backend) (hmove : move.entryCap = 0.0) :
    (planner.stopped target move).emitSettled = .done (planner.halt.state.setOut target move) := by
  have hdraining : MotorBackend.Accepting planner.draining.backend := haccepting
  have hdone : planner.drained.Succeeds := (emitFront_of_accepting hdraining _).1
  have hdrained := drained_changes hwindow
  rw [if_pos hdone] at hdrained
  obtain ⟨hempty, hrest, -⟩ := hdrained
  have hcount : settledCount (planner.stopped target move).window =
      planner.draining.window.length := by
    apply settledCount_concat
    change (move.entryCap == 0.0) = true
    rw [hmove]
    rfl
  have halongside : emitFront planner.draining.window.length (planner.stopped target move) =
      planner.drained.map fun left => { planner.stopped target move with
        window := left.window ++ [unplanned move]
        frontEntry := left.frontEntry
        backend := left.backend } :=
    @emitFront_alongside _ _ _ planner.draining _ _ rfl (le_refl _) rfl rfl rfl
  have hleft : planner.drained.state = { planner.draining with
      window := planner.drained.state.window
      frontEntry := planner.drained.state.frontEntry
      backend := planner.drained.state.backend } := emitFront_frame _ planner.draining
  have hhalted : planner.halt.state.setOut target move = { planner.stopped target move with
      window := planner.drained.state.window ++ [unplanned move]
      frontEntry := planner.drained.state.frontEntry
      backend := planner.drained.state.backend } := by
    rw [halt_of_accepted hwindow hdone, hempty, hrest]
    unfold setOut
    rw [hleft]
    rfl
  have hnone : (planner.drained.state.window ++ [unplanned move]).length - planner.lookahead =
      0 := by
    rw [hempty]
    simp only [List.nil_append, List.length_singleton]
    omega
  unfold emitSettled
  rw [hcount, halongside, Attempt.andThen_of_succeeds (by exact hdone), hhalted]
  change emitFront ((planner.drained.state.window ++ [unplanned move]).length - planner.lookahead)
    _ = _
  rw [hnone]
  rfl

/-- Halting before a sharp corner changes nothing. -/
theorem Reachable.perform_of_sharp (h : planner.Reachable)
    (haccepting : MotorBackend.Accepting planner.backend)
    (hlast : planner.window.getLast? = some last)
    (hsharp : ({ move with entryCap := planner.cornerCap last move } : Move).stopsBefore = true)
    (hrequest : planner.requested? target feedrate = some move) :
    planner.perform (.enqueue target feedrate) =
        .done (planner.halt.state.setOut target move) ∧
      (planner.perform .halt).state.perform (.enqueue target feedrate) =
        .done (planner.halt.state.setOut target move) := by
  have hlookahead := h.braked.1
  have hwindow : planner.window ≠ [] := List.ne_nil_of_mem (List.mem_of_getLast? hlast)
  have hmove : move.entryCap = 0.0 := (Move.plan?_eq_some (requested?_plan hrequest)).2.2.1
  have hadded : planner.added? (.enqueue target feedrate) = some move := hrequest
  have hunsigned : Unsigned (planner.cornerCap last move) :=
    unsigned_cornerCap (h.sound.steady last (List.mem_of_getLast? hlast))
      (h.sound.admissible_of_added hadded).steady
  constructor
  · simp only [Planner.perform, Attempt.within, id]
    rw [enqueue_of_requested hrequest, push_of_sharp hlast (hunsigned.eq_zero hsharp) hmove,
      emitSettled_stopped hlookahead hwindow haccepting hmove]
    rfl
  · obtain ⟨out, hchanges, hempty⟩ := planner.halt_changes
    have hhalted : planner.halt.Succeeds := halt_of_accepting fun _ => haccepting
    have hahead : 0 < planner.halt.state.lookahead := by rwa [hchanges.lookahead.2]
    have hsame : planner.halt.state.requested? target feedrate = some move := by
      have hheading := planner.heading_halt
      have hconfig := congrArg Heading.config hheading
      have hwiring := congrArg Heading.wiring hheading
      have hsteps := congrArg Heading.stepPosition hheading
      dsimp only [heading] at hconfig hwiring hsteps
      unfold requested? at hrequest ⊢
      rwa [hconfig, hwiring, hsteps]
    simp only [Planner.perform, Attempt.within, id]
    rw [enqueue_at_rest hahead (hempty hhalted) hsame]
    rfl

end Corner

/-- What the calls of a run answer. -/
def answers (planner : Planner β) : List Call → List (Except PlannerError Unit)
  | [] => []
  | call :: rest => (planner.perform call).outcome :: answers (planner.perform call).state rest

section Equivalence

variable {config : MachineConfig} {wiring : Wiring} {backend : β} {lookahead : Nat}
  {planner : Planner β}

theorem traced_perform_of_sharp (hmake : make config wiring backend lookahead = .ok planner)
    (haccepting : MotorBackend.Accepting backend) (before : List Call) {target : Register Float}
    {feedrate : Float} {move last : Move}
    (hrequest : (planner.run before).requested? target feedrate = some move)
    (hlast : (planner.run before).window.getLast? = some last)
    (hsharp : ({ move with
      entryCap := (planner.run before).cornerCap last move } : Move).stopsBefore = true) :
    (planner.traced.run before).perform (.enqueue target feedrate) =
        (planner.traced.run (before ++ [.halt])).perform (.enqueue target feedrate) ∧
      ((planner.traced.run (before ++ [.halt])).perform (.enqueue target feedrate)).state.backend =
        (planner.traced.run (before ++ [.halt])).backend ∧
      (planner.traced.run (before ++ [.halt])).window = [] := by
  have hmakeTraced := make_map (fun backend => (⟨backend, []⟩ : Traced β)) hmake
  have hreachable : (planner.traced.run before).Reachable := .run (.make hmakeTraced) before
  have htaking : MotorBackend.Accepting (planner.traced.run before).backend := by
    obtain ⟨hlookahead, hplanner⟩ := make_eq_ok hmakeTraced
    have hahead : 0 < planner.traced.lookahead := by
      rw [traced, hplanner]
      exact hlookahead
    have hstart : MotorBackend.Accepting planner.traced.backend := by
      rw [traced, hplanner]
      exact haccepting.traced
    exact accepting_run hahead hstart before
  rw [← run_traced] at hrequest hlast hsharp
  obtain ⟨hcorner, hhalted⟩ := hreachable.perform_of_sharp htaking hlast hsharp hrequest
  obtain ⟨-, -, hempty⟩ := (planner.traced.run before).halt_changes
  have hhalt : planner.traced.run (before ++ [.halt]) = (planner.traced.run before).halt.state := by
    rw [run_append]
    rfl
  rw [hhalt]
  refine ⟨hcorner.trans hhalted.symm, ?_, hempty (halt_of_accepting fun _ => htaking)⟩
  exact congrArg (·.state.backend) hhalted

/-- A request that turns sharply does what it does after a halt, and so does all that follows it: in
state, in segments and in answers. The path up to the corner is handed over when the corner is
requested. -/
theorem sharp_corner_is_halt (hmake : make config wiring backend lookahead = .ok planner)
    (haccepting : MotorBackend.Accepting backend) (before : List Call) {target : Register Float}
    {feedrate : Float} {move last : Move}
    (hrequest : (planner.run before).requested? target feedrate = some move)
    (hlast : (planner.run before).window.getLast? = some last)
    (hsharp : ({ move with
      entryCap := (planner.run before).cornerCap last move } : Move).stopsBefore = true) :
    (planner.run before).perform (.enqueue target feedrate) =
        (planner.run (before ++ [.halt])).perform (.enqueue target feedrate) ∧
    (∀ after,
      planner.run (before ++ .enqueue target feedrate :: after) =
        planner.run (before ++ .halt :: .enqueue target feedrate :: after) ∧
      planner.emitted (before ++ .enqueue target feedrate :: after) =
        planner.emitted (before ++ .halt :: .enqueue target feedrate :: after) ∧
      (planner.run before).answers (.enqueue target feedrate :: after) =
        (planner.run (before ++ [.halt])).answers (.enqueue target feedrate :: after)) ∧
    (planner.run (before ++ [.halt])).window = [] ∧
    ∀ after, planner.emitted (before ++ .enqueue target feedrate :: after) =
      planner.emitted (before ++ [.halt]) ++
        (planner.run (before ++ [.enqueue target feedrate])).emitted after := by
  obtain ⟨hsame, hquiet, hempty⟩ :=
    traced_perform_of_sharp hmake haccepting before hrequest hlast hsharp
  have hplain : (planner.run before).perform (.enqueue target feedrate) =
      (planner.run (before ++ [.halt])).perform (.enqueue target feedrate) := by
    have hmap := congrArg (Attempt.map (map Traced.inner)) hsame
    rwa [← perform_map Traced.inner_morphism, ← perform_map Traced.inner_morphism, run_traced,
      run_traced] at hmap
  have hemitted : planner.emitted (before ++ [.enqueue target feedrate]) =
      planner.emitted (before ++ [.halt]) := by
    unfold emitted
    rw [run_append]
    exact congrArg Traced.accepted ((congrArg (·.state.backend) hsame).trans hquiet)
  have hlist : ∀ after : List Call, before ++ .halt :: .enqueue target feedrate :: after =
      (before ++ [.halt]) ++ .enqueue target feedrate :: after := by simp
  refine ⟨hplain, fun after => ⟨?_, ?_, ?_⟩, ?_, fun after => ?_⟩
  · rw [hlist, run_append, run_append planner (before ++ [Call.halt]), run_cons, run_cons, hplain]
  · unfold emitted
    rw [hlist, run_append, run_append planner.traced (before ++ [Call.halt]), run_cons, run_cons,
      hsame]
  · rw [answers, answers, hplain]
  · rw [← window_run_traced]
    exact hempty
  · rw [← hemitted, ← emitted_append, List.append_assoc, List.singleton_append]

def slowSample : Planner Recorder :=
  { sample with config := { sample.config with speedFactor := 0.25 } }

theorem make_slowSample :
    make slowSample.config slowSample.wiring slowSample.backend 2 = .ok slowSample :=
  make_of_valid (by decide +kernel) Nat.two_pos _ _

/-- A request whose speed cannot be told from rest. The corner before it is a stop at any angle. -/
def creepTo (x : Float) : Call := .enqueue ((Register.fill 0.0).set .x x) 5e-324

theorem sharp_corner_is_halt_sample :
    (slowSample.run [goTo 10.0]).window.length = 1 ∧
    (slowSample.emitted [goTo 10.0]).length = 0 ∧
    (slowSample.emitted [goTo 10.0, creepTo 20.0]).length = 3 ∧
    slowSample.run [goTo 10.0, creepTo 20.0, goTo 0.0] =
      slowSample.run [goTo 10.0, .halt, creepTo 20.0, goTo 0.0] ∧
    slowSample.emitted [goTo 10.0, creepTo 20.0, goTo 0.0, .halt] =
      slowSample.emitted [goTo 10.0, .halt, creepTo 20.0, goTo 0.0, .halt] := by
  have hcreeps : (((slowSample.run [goTo 10.0]).requested? ((Register.fill 0.0).set .x 20.0)
      5e-324).bind fun move => (slowSample.run [goTo 10.0]).window.getLast?.map fun last =>
        lesser last.cruise move.cruise == 0.0) = some true := by decide +kernel
  obtain ⟨move, hrequest, hmove⟩ := Option.bind_eq_some_iff.mp hcreeps
  obtain ⟨last, hlast, hcruise⟩ := Option.map_eq_some_iff.mp hmove
  have hsharp : ({ move with entryCap := (slowSample.run [goTo 10.0]).cornerCap last move } :
      Move).stopsBefore = true := by
    change (Corner.speedCap _ _ _ _ _ == 0.0) = true
    unfold Corner.speedCap
    split
    · rfl
    · exact hcruise
  obtain ⟨-, hsame, -, hsent⟩ := sharp_corner_is_halt make_slowSample
    (accepting_recorder slowSample.backend) [goTo 10.0] hrequest hlast hsharp
  have hstopped : slowSample.emitted [goTo 10.0, creepTo 20.0] =
      slowSample.emitted [goTo 10.0, .halt] := (hsent []).trans (List.append_nil _)
  refine ⟨by decide +kernel, by decide +kernel, ?_, (hsame [goTo 0.0]).1,
    (hsame [goTo 0.0, .halt]).2.1⟩
  rw [hstopped]
  decide +kernel

end Equivalence
end Planner
end StepMotion
