import StepMotion.Proofs.Motion.Segments
import StepMotion.Proofs.Planner.Calls

/-! The changes that a planner goes through, one at a time. Every call is a sequence of them, so an
invariant of runs is one case for each kind of change. -/
namespace StepMotion

theorem Move.plan?_eq_some {config : MachineConfig} {steps : Steps} {feedrate : Float}
    {move : Move} (h : Move.plan? config steps feedrate = some move) :
    move.steps = steps ∧ Move.leastSteps ≤ steps.count ∧ move.entryCap = 0.0 ∧
      move.entry = 0.0 := by
  unfold plan? at h
  split at h
  · contradiction
  · next hcount =>
    obtain rfl := Option.some.inj h
    exact ⟨rfl, Nat.le_of_not_lt hcount, rfl, rfl⟩

namespace Window

theorem length_planBackward (window : List Move) :
    (planBackward window).length = window.length := by
  induction window with
  | nil => rfl
  | cons move rest ih => simp only [planBackward, List.length_cons, ih]

theorem length_planForward (reachable : Float) (window : List Move) :
    (planForward reachable window).length = window.length := by
  induction window generalizing reachable with
  | nil => rfl
  | cons move rest ih => simp only [planForward, List.length_cons, ih]

@[simp] theorem length_replan (frontEntry : Float) (window : List Move) :
    (replan frontEntry window).length = window.length := by
  cases window with
  | nil => rfl
  | cons front rest =>
    simp only [replan, List.length_cons, length_planForward, length_planBackward]

theorem settledCount_lt {window : List Move} (h : window ≠ []) :
    settledCount window < window.length := by
  induction window with
  | nil => contradiction
  | cons move rest ih =>
    unfold settledCount
    split
    · next hstop =>
      have hrest : rest ≠ [] := by
        rintro rfl
        simp at hstop
      have hlt := ih hrest
      simp only [List.length_cons]
      omega
    · simp

theorem settledCount_concat {window : List Move} {stop : Move} (hstop : stop.stopsBefore = true) :
    settledCount (window ++ [stop]) = window.length := by
  induction window with
  | nil => rfl
  | cons move rest ih =>
    have hany : (rest ++ [stop]).any Move.stopsBefore = true := by
      simp [hstop]
    rw [List.cons_append, settledCount, if_pos hany, ih, List.length_cons]

theorem settledCount_concat_of_not_stop {window : List Move} {move : Move}
    (h : ¬ move.stopsBefore = true) : settledCount (window ++ [move]) = settledCount window := by
  induction window with
  | nil => rfl
  | cons first rest ih =>
    have hany : (rest ++ [move]).any Move.stopsBefore = rest.any Move.stopsBefore := by
      simp [h]
    rw [List.cons_append, settledCount, settledCount, hany, ih]

end Window

namespace Planner

variable {β : Type}

/-- A move that left the window, with the speed at its end. -/
structure Emission where
  move : Move
  exit : Float

def Emission.segments (emission : Emission) : List Segment :=
  emission.move.segments emission.exit

def goOn (planner : Planner β) (rest : List Move) (backend : β) : Planner β :=
  { planner with window := rest, frontEntry := Window.entrySpeed rest, backend := backend }

/-- A request puts a move into the window if its feedrate can be used, its target has a step
position and the way there is long enough. -/
theorem requested?_eq_some {planner : Planner β} {target : Register Float} {feedrate : Float}
    {move : Move} (h : planner.requested? target feedrate = some move) :
    (Binary64.isFinite feedrate = true ∧ 0.0 < feedrate) ∧
      ∃ steps, stepsOf? planner.config planner.wiring target = some steps ∧
        move.steps = steps.sub planner.stepPosition ∧
        Move.plan? planner.config move.steps feedrate = some move := by
  unfold requested? at h
  split at h
  · next husable =>
    obtain ⟨steps, hsteps, hplan⟩ := Option.bind_eq_some_iff.mp h
    have hmove := (Move.plan?_eq_some hplan).1
    rw [Bool.and_eq_true, decide_eq_true_iff] at husable
    exact ⟨husable, steps, hsteps, hmove, hmove ▸ hplan⟩
  · contradiction

theorem requested?_plan {planner : Planner β} {target : Register Float} {feedrate : Float}
    {move : Move} (h : planner.requested? target feedrate = some move) :
    Move.plan? planner.config move.steps feedrate = some move := by
  obtain ⟨-, -, -, -, hplan⟩ := requested?_eq_some h
  exact hplan

theorem push_window_ne_nil (planner : Planner β) (move : Move) :
    (planner.push move).window ≠ [] := by
  unfold push
  split <;> (apply List.ne_nil_of_length_pos; simp)

theorem backend_push (planner : Planner β) (move : Move) :
    (planner.push move).backend = planner.backend := by
  unfold push
  split <;> rfl

variable [MotorBackend β]

def offer (planner : Planner β) (move : Move) (rest : List Move) : Attempt MotorError β :=
  MotorBackend.enqueueAll (move.segments (Window.entrySpeed rest)) planner.backend

/-- One change of a planner, with what it does to the path and the moves that it emits. -/
inductive Change : Planner β → List Event → List Emission → Planner β → Prop where
  | note (planner : Planner β) (position : Register Float) (state : PlannerState) :
      Change planner [] [] { planner with position := position, state := state }
  | push {planner : Planner β} {move : Move} {feedrate : Float}
      (h : Move.plan? planner.config move.steps feedrate = some move) :
      Change planner [.queued move] []
        ({ planner with stepPosition := planner.stepPosition.add move.steps }.push move)
  | replan (planner : Planner β) :
      Change planner [] []
        { planner with window := Window.replan planner.frontEntry planner.window }
  | emit {planner : Planner β} {move next : Move} {rest : List Move}
      (h : planner.window = move :: next :: rest)
      (hsent : (planner.offer move (next :: rest)).Succeeds) :
      Change planner [] [⟨move, next.entry⟩]
        (planner.goOn (next :: rest) (planner.offer move (next :: rest)).state)
  | drain {planner : Planner β} {move : Move} (h : planner.window = [move])
      (hsent : (planner.offer move []).Succeeds) :
      Change planner [.halted] [⟨move, 0.0⟩] (planner.goOn [] (planner.offer move []).state)
  | refuse {planner : Planner β} {move : Move} {rest : List Move}
      (h : planner.window = move :: rest) (hsent : ¬ (planner.offer move rest).Succeeds) :
      Change planner [] [] { planner with backend := (planner.offer move rest).state }
  | halt {planner : Planner β} (h : planner.window = []) : Change planner [.halted] [] planner
  | rebase {planner : Planner β} (h : planner.window = []) (steps : Steps) :
      Change planner [.rebased (steps.sub planner.stepPosition)] []
        { planner with stepPosition := steps }

inductive Changes : Planner β → List Event → List Emission → Planner β → Prop where
  | refl (planner : Planner β) : Changes planner [] [] planner
  | step {first second third : Planner β} {path path' : List Event}
      {out out' : List Emission} (hchange : Change first path out second)
      (hrest : Changes second path' out' third) :
      Changes first (path ++ path') (out ++ out') third

namespace Changes

theorem single {first second : Planner β} {path : List Event} {out : List Emission}
    (h : Change first path out second) : Changes first path out second := by
  have hstep := step h (refl second)
  rwa [List.append_nil, List.append_nil] at hstep

theorem trans {first second third : Planner β} {path path' : List Event}
    {out out' : List Emission} (h : Changes first path out second)
    (h' : Changes second path' out' third) :
    Changes first (path ++ path') (out ++ out') third := by
  induction h with
  | refl => exact h'
  | step hchange hrest ih =>
    rw [List.append_assoc, List.append_assoc]
    exact step hchange (ih h')

end Changes

theorem Change.lookahead {first second : Planner β} {path : List Event} {out : List Emission}
    (h : Change first path out second) :
    second.config = first.config ∧ second.lookahead = first.lookahead := by
  cases h with
  | push hplan =>
    unfold Planner.push
    split <;> exact ⟨rfl, rfl⟩
  | _ => exact ⟨rfl, rfl⟩

theorem Changes.lookahead {first second : Planner β} {path : List Event} {out : List Emission}
    (h : Changes first path out second) :
    second.config = first.config ∧ second.lookahead = first.lookahead := by
  induction h with
  | refl => exact ⟨rfl, rfl⟩
  | step hchange hrest ih =>
    rw [ih.1, ih.2]
    exact hchange.lookahead

theorem Change.wiring {first second : Planner β} {path : List Event} {out : List Emission}
    (h : Change first path out second) : second.wiring = first.wiring := by
  cases h with
  | push hplan =>
    unfold Planner.push
    split <;> rfl
  | _ => rfl

theorem Changes.wiring {first second : Planner β} {path : List Event} {out : List Emission}
    (h : Changes first path out second) : second.wiring = first.wiring := by
  induction h with
  | refl => rfl
  | step hchange hrest ih => exact ih.trans hchange.wiring

theorem Change.backend {P : β → Prop} (hkept : MotorBackend.Kept P) {first second : Planner β}
    {path : List Event} {out : List Emission} (h : Change first path out second)
    (hfirst : P first.backend) : P second.backend := by
  cases h with
  | push hplan =>
    rw [backend_push]
    exact hfirst
  | emit hwindow hsent => exact hkept.enqueueAll _ hfirst
  | drain hwindow hsent => exact hkept.enqueueAll _ hfirst
  | refuse hwindow hsent => exact hkept.enqueueAll _ hfirst
  | _ => exact hfirst

theorem Changes.backend {P : β → Prop} (hkept : MotorBackend.Kept P) {first second : Planner β}
    {path : List Event} {out : List Emission} (h : Changes first path out second)
    (hfirst : P first.backend) : P second.backend := by
  induction h with
  | refl => exact hfirst
  | step hchange hrest ih => exact ih (hchange.backend hkept hfirst)

section EmitFront

variable {planner : Planner β} {move : Move} {rest : List Move}

theorem emitFront_of_empty (count : Nat) (h : planner.window = []) :
    emitFront count planner = .done planner := by
  cases count with
  | zero => rfl
  | succ count => simp only [emitFront, h]

theorem emitFront_of_accepted (count : Nat) (h : planner.window = move :: rest)
    (hsent : (planner.offer move rest).Succeeds) :
    emitFront (count + 1) planner =
      emitFront count (planner.goOn rest (planner.offer move rest).state) := by
  unfold Attempt.Succeeds offer at hsent
  simp only [emitFront, h, hsent]
  rfl

theorem emitFront_of_refused (count : Nat) (h : planner.window = move :: rest)
    (hsent : ¬ (planner.offer move rest).Succeeds) :
    emitFront (count + 1) planner =
      (planner.offer move rest).map fun backend => { planner with backend := backend } := by
  obtain ⟨config, wiring, lookahead, backend, window, frontEntry, position, steps, state⟩ := planner
  obtain rfl : window = move :: rest := h
  unfold offer at hsent ⊢
  unfold emitFront
  dsimp only at hsent ⊢
  generalize MotorBackend.enqueueAll (move.segments (Window.entrySpeed rest)) backend = answer
    at hsent ⊢
  obtain ⟨outcome, left⟩ := answer
  cases outcome with
  | error error => rfl
  | ok => exact absurd rfl hsent

end EmitFront

/-- What one move keeps that is handed over or refused, any number of them keep. -/
theorem emitFront_keeps {P : Planner β → Prop}
    (hgone : ∀ {planner : Planner β} {move : Move} {rest : List Move} (backend : β),
      planner.window = move :: rest → P planner → P (planner.goOn rest backend))
    (hkept : ∀ {planner : Planner β} (backend : β), P planner → P { planner with backend := backend })
    (count : Nat) {planner : Planner β} (h : P planner) : P (emitFront count planner).state := by
  induction count generalizing planner with
  | zero => exact h
  | succ count ih =>
    match hwindow : planner.window with
    | [] =>
      rw [emitFront_of_empty _ hwindow]
      exact h
    | move :: rest =>
      by_cases hsent : (planner.offer move rest).Succeeds
      · rw [emitFront_of_accepted count hwindow hsent]
        exact ih (hgone _ hwindow h)
      · rw [emitFront_of_refused count hwindow hsent]
        exact hkept _ h

theorem emitFront_frame (count : Nat) (planner : Planner β) :
    (emitFront count planner).state = { planner with
      window := (emitFront count planner).state.window
      frontEntry := (emitFront count planner).state.frontEntry
      backend := (emitFront count planner).state.backend } := by
  refine emitFront_keeps (P := fun left => left = { planner with
    window := left.window, frontEntry := left.frontEntry, backend := left.backend }) ?_ ?_ count rfl
  · intro left move rest backend _ hleft
    rw [hleft]
    rfl
  · intro left backend hleft
    rw [hleft]

theorem emitSettled_frame (planner : Planner β) :
    planner.emitSettled.state = { planner with
      window := planner.emitSettled.state.window
      frontEntry := planner.emitSettled.state.frontEntry
      backend := planner.emitSettled.state.backend } := by
  have hfirst := emitFront_frame (Window.settledCount planner.window) planner
  unfold emitSettled
  generalize emitFront (Window.settledCount planner.window) planner = sent at hfirst
  by_cases hdone : sent.Succeeds
  · rw [Attempt.andThen_of_succeeds hdone, emitFront_frame, hfirst]
  · rw [Attempt.andThen_of_not_succeeds hdone]
    exact hfirst

section Accepting

variable {planner : Planner β}

theorem emitFront_of_accepting (h : MotorBackend.Accepting planner.backend) (count : Nat) :
    (emitFront count planner).Succeeds ∧
      MotorBackend.Accepting (emitFront count planner).state.backend := by
  induction count generalizing planner with
  | zero => exact ⟨rfl, h⟩
  | succ count ih =>
    match hwindow : planner.window with
    | [] =>
      rw [emitFront_of_empty _ hwindow]
      exact ⟨rfl, h⟩
    | move :: rest =>
      have hsent : (planner.offer move rest).Succeeds := h _
      rw [emitFront_of_accepted count hwindow hsent]
      exact ih (MotorBackend.kept_accepting.enqueueAll _ h)

theorem emitSettled_of_accepting (h : MotorBackend.Accepting planner.backend) :
    planner.emitSettled.Succeeds := by
  obtain ⟨hsent, hafter⟩ := emitFront_of_accepting h (Window.settledCount planner.window)
  unfold emitSettled
  rw [Attempt.andThen_of_succeeds hsent]
  exact (emitFront_of_accepting hafter _).1

end Accepting

theorem Change.stepPosition {first second : Planner β} {path : List Event} {out : List Emission}
    (h : Change first path out second) (axis : Axis) :
    second.stepPosition axis =
      first.stepPosition axis + (path.map fun event => event.shift axis).sum := by
  cases h with
  | push hplan =>
    unfold Planner.push
    split <;> simp [Event.shift]
  | rebase hempty steps =>
    simp only [Event.shift, List.map_cons, List.map_nil, List.sum_cons, List.sum_nil, Steps.get_sub]
    omega
  | _ => simp [Event.shift, goOn]

theorem Changes.stepPosition {first second : Planner β} {path : List Event} {out : List Emission}
    (h : Changes first path out second) (axis : Axis) :
    second.stepPosition axis =
      first.stepPosition axis + (path.map fun event => event.shift axis).sum := by
  induction h with
  | refl => simp
  | step hchange hrest ih =>
    rw [ih, hchange.stepPosition, List.map_append, List.sum_append]
    omega

theorem emitFront_changes {count : Nat} {planner : Planner β}
    (h : count < planner.window.length) :
    ∃ out, Changes planner [] out (emitFront count planner).state ∧
      ((emitFront count planner).Succeeds →
        (emitFront count planner).state.window.length = planner.window.length - count) := by
  induction count generalizing planner with
  | zero => exact ⟨[], .refl planner, fun _ => rfl⟩
  | succ count ih =>
    match hwindow : planner.window with
    | [] => simp [hwindow] at h
    | [move] => simp [hwindow] at h
    | move :: next :: rest =>
      rw [hwindow] at h
      by_cases hsent : (planner.offer move (next :: rest)).Succeeds
      · rw [emitFront_of_accepted count hwindow hsent]
        obtain ⟨out, hchanges, hlength⟩ :=
          @ih (planner.goOn (next :: rest) (planner.offer move (next :: rest)).state)
            (Nat.lt_of_succ_lt_succ h)
        refine ⟨_, .step (.emit hwindow hsent) hchanges, fun hdone => ?_⟩
        rw [hlength hdone]
        simp only [goOn, List.length_cons]
        omega
      · rw [emitFront_of_refused count hwindow hsent]
        exact ⟨[], .single (.refuse hwindow hsent), fun hdone => absurd hdone hsent⟩

theorem emitAll_changes {planner : Planner β} (h : planner.window ≠ []) :
    let sent := emitFront planner.window.length planner
    if sent.Succeeds then
      sent.state.window = [] ∧ sent.state.frontEntry = 0.0 ∧
        ∃ out, Changes planner [.halted] out sent.state
    else ∃ out, Changes planner [] out sent.state := by
  generalize hwindow : planner.window = window at h
  induction window generalizing planner with
  | nil => contradiction
  | cons move rest ih =>
    dsimp only [List.length_cons]
    by_cases hsent : (planner.offer move rest).Succeeds
    · rw [emitFront_of_accepted _ hwindow hsent]
      cases rest with
      | nil =>
        exact ⟨rfl, rfl, _, .single (.drain hwindow hsent)⟩
      | cons next rest =>
        have hnext := @ih (planner.goOn (next :: rest) (planner.offer move (next :: rest)).state)
          rfl (by simp)
        dsimp only at hnext
        split
        · next hdone =>
          rw [if_pos hdone] at hnext
          obtain ⟨hempty, hentry, out, hchanges⟩ := hnext
          exact ⟨hempty, hentry, _, .step (.emit hwindow hsent) hchanges⟩
        · next hdone =>
          rw [if_neg hdone] at hnext
          obtain ⟨out, hchanges⟩ := hnext
          exact ⟨_, .step (.emit hwindow hsent) hchanges⟩
    · rw [emitFront_of_refused _ hwindow hsent, if_neg (by exact hsent)]
      exact ⟨[], .single (.refuse hwindow hsent)⟩

theorem emitSettled_changes {planner : Planner β} (h : planner.window ≠ [])
    (hlookahead : 0 < planner.lookahead) :
    ∃ out, Changes planner [] out planner.emitSettled.state := by
  obtain ⟨out, hchanges, hlength⟩ := emitFront_changes (Window.settledCount_lt h)
  unfold emitSettled
  generalize emitFront (Window.settledCount planner.window) planner = sent at hchanges hlength
  refine Attempt.state_andThen (P := fun left => ∃ out, Changes planner [] out left)
    ⟨out, hchanges⟩ fun hdone => ?_
  have hlt := Window.settledCount_lt h
  have hleft := hlength hdone
  rw [← hchanges.lookahead.2] at hlookahead
  have hcount : sent.state.window.length - sent.state.lookahead < sent.state.window.length := by
    omega
  obtain ⟨out', hchanges', -⟩ := emitFront_changes hcount
  exact ⟨_, hchanges.trans hchanges'⟩

theorem settle_changes (planner : Planner β) : Changes planner [] [] planner.settle := by
  unfold settle
  split
  · exact .single (.note planner planner.position .idle)
  · exact .refl planner

theorem enqueue_of_ignored {planner : Planner β} {target : Register Float} {feedrate : Float}
    (h : planner.requested? target feedrate = none) :
    ∃ position, planner.enqueue target feedrate = .done { planner with position := position } := by
  unfold requested? at h
  unfold enqueue
  by_cases husable : Binary64.isFinite feedrate && 0.0 < feedrate
  · simp only [husable, ↓reduceIte, Bool.not_true, Bool.false_eq_true] at h ⊢
    cases hsteps : stepsOf? planner.config planner.wiring target with
    | none => exact ⟨planner.position, rfl⟩
    | some steps =>
      simp only [hsteps, Option.bind_some] at h
      simp only [h]
      exact ⟨target, rfl⟩
  · simp only [husable, Bool.not_false, ↓reduceIte]
    exact ⟨planner.position, rfl⟩

theorem enqueue_of_requested {planner : Planner β} {target : Register Float} {feedrate : Float}
    {move : Move} (h : planner.requested? target feedrate = some move) :
    planner.enqueue target feedrate =
      ((planner.aim target (planner.stepPosition.add move.steps)).push move).emitSettled.andThen
        fun planner => .done planner.settle := by
  obtain ⟨⟨hfinite, hfeedrate⟩, steps, hsteps, hmove, hplan⟩ := requested?_eq_some h
  have hsum : planner.stepPosition.add move.steps = steps := by
    rw [hmove]
    ext axis
    simp only [Steps.get_add, Steps.get_sub]
    omega
  rw [hsum]
  rw [hmove] at hplan
  unfold enqueue
  simp only [hfinite, hfeedrate, hsteps, hplan, decide_true, Bool.and_self, Bool.not_true,
    Bool.false_eq_true, ↓reduceIte]
  rfl

theorem enqueue_of_accepting {planner : Planner β} (h : MotorBackend.Accepting planner.backend)
    (target : Register Float) (feedrate : Float) : (planner.enqueue target feedrate).Succeeds := by
  cases hrequest : planner.requested? target feedrate with
  | none =>
    obtain ⟨position, henqueue⟩ := enqueue_of_ignored hrequest
    rw [henqueue]
    exact Attempt.succeeds_done _
  | some move =>
    have hpushed : MotorBackend.Accepting
        ((planner.aim target (planner.stepPosition.add move.steps)).push move).backend := by
      rw [backend_push]
      exact h
    rw [enqueue_of_requested hrequest,
      Attempt.andThen_of_succeeds (emitSettled_of_accepting hpushed)]
    exact Attempt.succeeds_done _

theorem enqueue_changes (planner : Planner β) (hlookahead : 0 < planner.lookahead)
    (target : Register Float) (feedrate : Float) :
    ∃ out, Changes planner (planner.events (.enqueue target feedrate)) out
      (planner.enqueue target feedrate).state := by
  cases hrequest : planner.requested? target feedrate with
  | none =>
    obtain ⟨position, henqueue⟩ := enqueue_of_ignored hrequest
    simp only [events, hrequest, henqueue, Option.toList_none, List.map_nil]
    exact ⟨_, .single (.note planner position planner.state)⟩
  | some move =>
    simp only [events, hrequest, enqueue_of_requested hrequest, Option.toList_some, List.map_cons,
      List.map_nil]
    have hpush : Change ({ planner with position := target } : Planner β) [.queued move] []
        ((planner.aim target (planner.stepPosition.add move.steps)).push move) :=
      .push (requested?_plan hrequest)
    have haimed := Changes.single (.note planner target planner.state)
    have hpushed := haimed.trans (.single hpush)
    rw [← hpushed.lookahead.2] at hlookahead
    obtain ⟨out, hsettled⟩ := emitSettled_changes (push_window_ne_nil _ move) hlookahead
    have hchanges := hpushed.trans hsettled
    exact Attempt.state_andThen (P := fun left => ∃ out, Changes planner [.queued move] out left)
      ⟨_, hchanges⟩ fun _ => ⟨_, hchanges.trans (settle_changes _)⟩

section Drain

def draining (planner : Planner β) : Planner β :=
  { planner with
    window := Window.replan planner.frontEntry planner.window
    state := .draining }

def drained (planner : Planner β) : Attempt MotorError (Planner β) :=
  emitFront planner.draining.window.length planner.draining

variable {planner : Planner β}

theorem halt_of_idle (h : planner.window = []) : planner.halt = .done planner.settle := by
  simp [halt, h]

theorem halt_of_accepted (h : planner.window ≠ []) (hsent : planner.drained.Succeeds) :
    planner.halt = .done { planner.drained.state with frontEntry := 0.0, state := .idle } := by
  have hempty : ¬ planner.window.isEmpty := by simpa using h
  unfold drained draining Attempt.Succeeds at hsent
  simp only [halt, hempty, Bool.false_eq_true, ↓reduceIte, hsent]
  rfl

theorem halt_of_refused (h : planner.window ≠ []) (hsent : ¬ planner.drained.Succeeds) :
    planner.halt = planner.drained.map fun left => { left with state := .buffering } := by
  have hempty : ¬ planner.window.isEmpty := by simpa using h
  cases houtcome : planner.drained.outcome with
  | error error =>
    unfold drained draining at houtcome ⊢
    simp only [halt, hempty, Bool.false_eq_true, ↓reduceIte, houtcome, Attempt.map]
    rfl
  | ok => exact absurd houtcome hsent

theorem halt_of_accepting (h : planner.window ≠ [] → MotorBackend.Accepting planner.backend) :
    planner.halt.Succeeds := by
  by_cases hempty : planner.window = []
  · rw [halt_of_idle hempty]
    exact Attempt.succeeds_done _
  · have hdraining : MotorBackend.Accepting planner.draining.backend := h hempty
    rw [halt_of_accepted hempty (emitFront_of_accepting hdraining _).1]
    exact Attempt.succeeds_done _

theorem draining_changes (planner : Planner β) : Changes planner [] [] planner.draining :=
  .trans (.single (.replan planner)) (.single (.note _ planner.position .draining))

theorem drained_changes (h : planner.window ≠ []) :
    if planner.drained.Succeeds then
      planner.drained.state.window = [] ∧ planner.drained.state.frontEntry = 0.0 ∧
        ∃ out, Changes planner [.halted] out planner.drained.state
    else ∃ out, Changes planner [] out planner.drained.state := by
  have hwindow : planner.draining.window ≠ [] := by
    apply List.ne_nil_of_length_pos
    simpa [draining, List.length_pos_iff] using h
  have hsent := emitAll_changes hwindow
  unfold drained
  dsimp only at hsent
  split
  · next hdone =>
    rw [if_pos hdone] at hsent
    obtain ⟨hempty, hentry, out, hchanges⟩ := hsent
    exact ⟨hempty, hentry, _, planner.draining_changes.trans hchanges⟩
  · next hdone =>
    rw [if_neg hdone] at hsent
    obtain ⟨out, hchanges⟩ := hsent
    exact ⟨_, planner.draining_changes.trans hchanges⟩

end Drain

theorem halt_changes (planner : Planner β) :
    ∃ out, Changes planner (planner.events .halt) out planner.halt.state ∧
      (planner.halt.Succeeds → planner.halt.state.window = []) := by
  by_cases hempty : planner.window = []
  · simp only [events, halt_of_idle hempty, Attempt.succeeds_done, ↓reduceIte]
    exact ⟨_, Changes.trans (.single (.halt hempty)) planner.settle_changes,
      fun _ => planner.settle_window.trans hempty⟩
  · have hsent := drained_changes hempty
    by_cases hdone : planner.drained.Succeeds
    · rw [if_pos hdone] at hsent
      obtain ⟨hwindow, hentry, out, hchanges⟩ := hsent
      simp only [events, halt_of_accepted hempty hdone, Attempt.succeeds_done, ↓reduceIte]
      have hidle := Changes.single
        (.note planner.drained.state planner.drained.state.position .idle)
      have hrested := hchanges.trans hidle
      rw [hentry] at hrested
      exact ⟨_, hrested, fun _ => hwindow⟩
    · rw [if_neg hdone] at hsent
      obtain ⟨out, hchanges⟩ := hsent
      simp only [events, halt_of_refused hempty hdone, Attempt.succeeds_map, hdone, ↓reduceIte]
      have hback := Change.note planner.drained.state planner.drained.state.position .buffering
      exact ⟨_, hchanges.trans (.single hback), False.elim⟩

section SetPosition

variable {planner : Planner β} {position : Register Float}

theorem setPosition_of_out_of_range (h : stepsOf? planner.config planner.wiring position = none) :
    planner.setPosition position = .failed .positionOutOfRange planner := by
  simp only [setPosition, h]

theorem setPosition_of_steps {steps : Steps}
    (h : stepsOf? planner.config planner.wiring position = some steps) :
    planner.setPosition position = (planner.halt.within PlannerError.motor id).andThen
      fun planner => .done (planner.aim position steps) := by
  simp only [setPosition, h]
  rfl

theorem setPosition_of_halted {steps : Steps}
    (hsteps : stepsOf? planner.config planner.wiring position = some steps)
    (h : planner.halt.Succeeds) :
    planner.setPosition position = .done (planner.halt.state.aim position steps) := by
  rw [setPosition_of_steps hsteps,
    Attempt.andThen_of_succeeds ((Attempt.succeeds_within _ _ _).mpr h)]
  rfl

theorem setPosition_of_refused {steps : Steps}
    (hsteps : stepsOf? planner.config planner.wiring position = some steps)
    (h : ¬ planner.halt.Succeeds) :
    planner.setPosition position = planner.halt.within .motor id := by
  rw [setPosition_of_steps hsteps,
    Attempt.andThen_of_not_succeeds (mt (Attempt.succeeds_within _ _ _).mp h)]

end SetPosition

theorem setPosition_changes (planner : Planner β) (position : Register Float) :
    ∃ out, Changes planner (planner.events (.setPosition position)) out
      (planner.setPosition position).state ∧
      ((planner.setPosition position).Succeeds →
        (planner.setPosition position).state.window = []) := by
  cases hsteps : stepsOf? planner.config planner.wiring position with
  | none =>
    simp only [events, setPosition_of_out_of_range hsteps, Attempt.not_succeeds_failed, ↓reduceIte]
    exact ⟨_, .refl planner, False.elim⟩
  | some steps =>
    obtain ⟨out, hchanges, hwindow⟩ := planner.halt_changes
    by_cases hdone : planner.halt.Succeeds
    · have hset := setPosition_of_halted hsteps hdone
      simp only [events, hset, Attempt.succeeds_done, ↓reduceIte]
      simp only [events, hdone, ↓reduceIte] at hchanges
      have hstay : planner.halt.state.stepPosition = planner.stepPosition := by
        ext axis
        simpa [Event.shift] using hchanges.stepPosition axis
      have hjump := (Changes.single (.rebase (hwindow hdone) steps)).trans
        (.single (.note _ position planner.halt.state.state))
      rw [hstay] at hjump
      exact ⟨_, hchanges.trans hjump, fun _ => hwindow hdone⟩
    · have hset := setPosition_of_refused hsteps hdone
      have hfailed : ¬ (planner.setPosition position).Succeeds := by
        rw [hset, Attempt.succeeds_within]
        exact hdone
      simp only [events, hfailed, ↓reduceIte]
      simp only [events, hdone, ↓reduceIte] at hchanges
      rw [hset]
      exact ⟨out, hchanges, False.elim⟩

/-- Every call is a sequence of changes, and one that leaves the path at rest empties the window. -/
theorem perform_changes (planner : Planner β) (hlookahead : 0 < planner.lookahead) (call : Call) :
    ∃ out, Changes planner (planner.events call) out (planner.perform call).state ∧
      (planner.Rests call → (planner.perform call).state.window = []) := by
  cases call with
  | enqueue target feedrate =>
    obtain ⟨out, hchanges⟩ := planner.enqueue_changes hlookahead target feedrate
    exact ⟨out, hchanges, False.elim⟩
  | halt => exact planner.halt_changes
  | setPosition position => exact planner.setPosition_changes position

theorem run_changes (planner : Planner β) (hlookahead : 0 < planner.lookahead)
    (calls : List Call) :
    ∃ out, Changes planner (planner.history calls) out (planner.run calls) := by
  induction calls generalizing planner with
  | nil => exact ⟨[], .refl planner⟩
  | cons call rest ih =>
    obtain ⟨out, hcall, -⟩ := planner.perform_changes hlookahead call
    obtain ⟨out', hrest⟩ := ih (planner.perform call).state (by rwa [hcall.lookahead.2])
    exact ⟨_, hcall.trans hrest⟩

theorem accepting_run {planner : Planner β} (hlookahead : 0 < planner.lookahead)
    (h : MotorBackend.Accepting planner.backend) (calls : List Call) :
    MotorBackend.Accepting (planner.run calls).backend := by
  obtain ⟨out, hchanges⟩ := planner.run_changes hlookahead calls
  exact hchanges.backend MotorBackend.kept_accepting h

end Planner
end StepMotion
