import StepMotion.Proofs.Planner.Plan

/-! What a call hands over. The segments that it offers are those of the first moves in the window
as it was planned, move by move; the first one that is refused ends it, and the moves that were not
handed over whole stay in the window. -/
namespace StepMotion

namespace Window

/-- The segments of each move in a window, left at the speed into the next one. -/
def blocks : List Move → List (List Segment)
  | [] => []
  | move :: rest => move.segments (entrySpeed rest) :: blocks rest

theorem exists_of_mem_blocks {window : List Move} {segment : Segment}
    (h : segment ∈ (blocks window).flatten) :
    ∃ front move rest, window = front ++ move :: rest ∧
      segment ∈ move.segments (entrySpeed rest) := by
  induction window with
  | nil => simp [blocks] at h
  | cons move rest ih =>
    rw [blocks, List.flatten_cons, List.mem_append] at h
    rcases h with hfirst | hlater
    · exact ⟨[], move, rest, rfl, hfirst⟩
    · obtain ⟨front, later, behind, rfl, hsegment⟩ := ih hlater
      exact ⟨move :: front, later, behind, rfl, hsegment⟩

@[simp] theorem length_blocks (window : List Move) : (blocks window).length = window.length := by
  induction window with
  | nil => rfl
  | cons move rest ih => simp only [blocks, List.length_cons, ih]

theorem drop_blocks (count : Nat) (window : List Move) :
    (blocks window).drop count = blocks (window.drop count) := by
  induction window generalizing count with
  | nil => simp [blocks]
  | cons move rest ih =>
    cases count with
    | zero => rfl
    | succ count => exact ih count

theorem flatten_take_blocks_add (window : List Move) (first second : Nat) :
    ((blocks window).take (first + second)).flatten =
      ((blocks window).take first).flatten ++
        ((blocks (window.drop first)).take second).flatten := by
  rw [List.take_add, List.flatten_append, drop_blocks]

theorem getElem?_blocks {window : List Move} {k : Nat} {move : Move} (h : window[k]? = some move) :
    (blocks window)[k]? = some (move.segments (entrySpeed (window.drop (k + 1)))) := by
  induction window generalizing k with
  | nil => simp at h
  | cons first rest ih =>
    cases k with
    | zero =>
      obtain rfl : first = move := by simpa using h
      rfl
    | succ k => exact ih h

end Window

namespace Planner

open Window MotorCall

variable {β : Type} {planner between left : Planner (Traced β)}

/-- What a planner becomes by handing over the first `k` moves of its window and a `part` of the
next one. -/
structure HandsOver (planner : Planner (Traced β)) (k : Nat) (part refused : List Segment)
    (left : Planner (Traced β)) : Prop where
  window : left.window = planner.window.drop k
  frontEntry : left.frontEntry = if k = 0 then planner.frontEntry else entrySpeed left.window
  calls : left.backend.calls = planner.backend.calls ++
    handing (((blocks planner.window).take k).flatten ++ part) refused
  frame : left = { planner with
    window := left.window, frontEntry := left.frontEntry, backend := left.backend }

def BreaksOff (planner : Planner (Traced β)) (count : Nat) (left : Planner (Traced β)) : Prop :=
  ∃ k part segment rest, k < count ∧
    (blocks planner.window)[k]? = some (part ++ segment :: rest) ∧
      HandsOver planner k part [segment] left

theorem HandsOver.refl (planner : Planner (Traced β)) : HandsOver planner 0 [] [] planner where
  window := rfl
  frontEntry := rfl
  calls := (List.append_nil _).symm
  frame := rfl

theorem HandsOver.trans {j k : Nat} {part refused : List Segment}
    (hfirst : HandsOver planner k [] [] between) (hsecond : HandsOver between j part refused left) :
    HandsOver planner (k + j) part refused left where
  window := by rw [hsecond.window, hfirst.window, List.drop_drop]
  frontEntry := by
    rw [hsecond.frontEntry]
    by_cases hj : j = 0
    · subst hj
      have hsame : left.window = between.window := hsecond.window
      rw [if_pos rfl, hfirst.frontEntry, hsame, Nat.add_zero]
    · rw [if_neg hj, if_neg (by omega)]
  calls := by
    have hfirstCalls := hfirst.calls
    rw [List.append_nil] at hfirstCalls
    rw [hsecond.calls, hfirstCalls, hfirst.window, flatten_take_blocks_add]
    simp [handing]
  frame := by
    rw [hsecond.frame, hfirst.frame]

theorem HandsOver.breaksOff {k count : Nat} (hfirst : HandsOver planner k [] [] between)
    (hsecond : BreaksOff between count left) : BreaksOff planner (k + count) left := by
  obtain ⟨j, part, segment, rest, hj, hblock, hhands⟩ := hsecond
  refine ⟨k + j, part, segment, rest, by omega, ?_, hfirst.trans hhands⟩
  rwa [hfirst.window, ← drop_blocks, List.getElem?_drop] at hblock

theorem BreaksOff.mono {count bound : Nat} (h : BreaksOff planner count left)
    (hbound : count ≤ bound) : BreaksOff planner bound left := by
  obtain ⟨k, part, segment, rest, hk, hrest⟩ := h
  exact ⟨k, part, segment, rest, Nat.lt_of_lt_of_le hk hbound, hrest⟩

section Emission

variable [MotorBackend β]

theorem handsOver_goOn {move : Move} {rest : List Move} (h : planner.window = move :: rest)
    (hsent : (planner.offer move rest).Succeeds) :
    HandsOver planner 1 [] [] (planner.goOn rest (planner.offer move rest).state) where
  window := by rw [h]; rfl
  frontEntry := rfl
  calls := by
    have hcalls := MotorBackend.calls_enqueueAll_of_succeeds hsent
    rw [h]
    simpa [blocks, offer, goOn] using hcalls
  frame := rfl

theorem breaksOff_of_refused {move : Move} {rest : List Move} (h : planner.window = move :: rest)
    (hsent : ¬ (planner.offer move rest).Succeeds) :
    BreaksOff planner 1 { planner with backend := (planner.offer move rest).state } := by
  obtain ⟨part, segment, others, hblock, hcalls⟩ :=
    MotorBackend.calls_enqueueAll_of_refused hsent
  refine ⟨0, part, segment, others, Nat.one_pos, ?_, rfl, rfl, hcalls, rfl⟩
  rw [h]
  exact congrArg some hblock

/-- Handing over a number of moves succeeds for all of them, or ends with a refused segment. -/
theorem emitFront_handsOver {count : Nat} (h : count ≤ planner.window.length) :
    if (emitFront count planner).Succeeds then
      HandsOver planner count [] [] (emitFront count planner).state
    else BreaksOff planner count (emitFront count planner).state := by
  induction count generalizing planner with
  | zero =>
    rw [if_pos (by rfl)]
    exact .refl planner
  | succ count ih =>
    match hwindow : planner.window with
    | [] => simp [hwindow] at h
    | move :: rest =>
      rw [hwindow, List.length_cons, Nat.succ_le_succ_iff] at h
      by_cases hsent : (planner.offer move rest).Succeeds
      · have hfirst := handsOver_goOn hwindow hsent
        have hrest := @ih (planner.goOn rest (planner.offer move rest).state) h
        rw [emitFront_of_accepted count hwindow hsent, Nat.add_comm count 1]
        split
        · next hdone =>
          rw [if_pos hdone] at hrest
          exact hfirst.trans hrest
        · next hdone =>
          rw [if_neg hdone] at hrest
          exact hfirst.breaksOff hrest
      · rw [emitFront_of_refused count hwindow hsent, if_neg (by exact hsent)]
        exact (breaksOff_of_refused hwindow hsent).mono (by omega)

theorem emitSettled_handsOver (planner : Planner (Traced β)) :
    if planner.emitSettled.Succeeds then
      ∃ k ≤ planner.window.length, HandsOver planner k [] [] planner.emitSettled.state
    else BreaksOff planner planner.window.length planner.emitSettled.state := by
  have hsettled : settledCount planner.window ≤ planner.window.length := by
    cases hwindow : planner.window with
    | nil => rfl
    | cons move rest => exact (settledCount_lt (List.cons_ne_nil move rest)).le
  have hfirst := emitFront_handsOver hsettled
  unfold emitSettled
  generalize emitFront (settledCount planner.window) planner = sent at hfirst
  by_cases hdone : sent.Succeeds
  · rw [if_pos hdone] at hfirst
    rw [Attempt.andThen_of_succeeds hdone]
    have hlength : sent.state.window.length =
        planner.window.length - settledCount planner.window := by
      rw [hfirst.window, List.length_drop]
    have hsecond := emitFront_handsOver
      (Nat.sub_le sent.state.window.length sent.state.lookahead)
    split
    · next hall =>
      rw [if_pos hall] at hsecond
      exact ⟨_, by omega, hfirst.trans hsecond⟩
    · next hall =>
      rw [if_neg hall] at hsecond
      exact (hfirst.breaksOff hsecond).mono (by omega)
  · rw [if_neg hdone] at hfirst
    rw [Attempt.andThen_of_not_succeeds hdone, if_neg hdone]
    exact hfirst.mono hsettled

end Emission

section Calls

structure Delivers (planner : Planner (Traced β)) (moves : List Move) (k : Nat)
    (part refused : List Segment) (left : Planner (Traced β)) : Prop where
  window : left.window = moves.drop k
  frontEntry : left.frontEntry = if k = 0 then planner.frontEntry else entrySpeed left.window
  calls : left.backend.calls = planner.backend.calls ++
    handing (((blocks moves).take k).flatten ++ part) refused

/-- A call hands over some moves whole, or is refused a segment and hands over what is before. -/
def Delivered (planner : Planner (Traced β)) (moves : List Move) (refused : Prop)
    (left : Planner (Traced β)) : Prop :=
  (¬ refused ∧ ∃ k ≤ moves.length, Delivers planner moves k [] [] left) ∨
    (refused ∧ left.state = .buffering ∧ ∃ k part segment rest,
      (blocks moves)[k]? = some (part ++ segment :: rest) ∧
        Delivers planner moves k part [segment] left)

theorem Delivers.frame {other : Planner (Traced β)} {moves : List Move} {k : Nat}
    {part refused : List Segment} (h : Delivers planner moves k part refused left)
    (hwindow : other.window = left.window) (hfront : other.frontEntry = left.frontEntry)
    (hbackend : other.backend = left.backend) : Delivers planner moves k part refused other where
  window := hwindow.trans h.window
  frontEntry := by rw [hfront, hwindow, h.frontEntry]
  calls := by rw [hbackend, h.calls]

theorem Delivers.accepted {moves : List Move} {k : Nat} {part refused : List Segment}
    (h : Delivers planner moves k part refused left) : left.backend.accepted =
      planner.backend.accepted ++ (((blocks moves).take k).flatten ++ part) := by
  rw [Traced.accepted, h.calls, List.filterMap_append, filterMap_accepted_handing]
  rfl

theorem Delivers.offered {moves : List Move} {k : Nat} {part refused : List Segment}
    (h : Delivers planner moves k part refused left) : left.backend.offered =
      planner.backend.offered ++ (((blocks moves).take k).flatten ++ part ++ refused) := by
  rw [Traced.offered, h.calls, List.filterMap_append, filterMap_offered_handing]
  rfl

theorem HandsOver.delivers {k : Nat} {part refused : List Segment}
    (h : HandsOver between k part refused left) (hfront : between.frontEntry = planner.frontEntry)
    (hbackend : between.backend = planner.backend) :
    Delivers planner between.window k part refused left where
  window := h.window
  frontEntry := by rw [← hfront]; exact h.frontEntry
  calls := by rw [← hbackend]; exact h.calls

theorem delivered_nothing {refused : Prop} (h : ¬ refused) (hwindow : left.window = planner.window)
    (hfront : left.frontEntry = planner.frontEntry) (hbackend : left.backend = planner.backend) :
    Delivered planner planner.window refused left := by
  refine .inl ⟨h, 0, Nat.zero_le _, hwindow, hfront, ?_⟩
  rw [hbackend]
  exact (List.append_nil _).symm

/-- The window that a call hands over from, planned for the last time. -/
def planned (planner : Planner β) : Call → List Move
  | .enqueue target feedrate =>
    match planner.requested? target feedrate with
    | some move => (planner.push move).window
    | none => planner.window
  | .halt => replan planner.frontEntry planner.window
  | .setPosition position =>
    if (stepsOf? planner.config planner.wiring position).isSome then
      replan planner.frontEntry planner.window
    else planner.window

def Refused {σ : Type} (attempt : Attempt PlannerError σ) : Prop :=
  ∃ cause, attempt.outcome = .error (.motor cause)

theorem refused_within {σ τ : Type} (attempt : Attempt MotorError σ) (put : σ → τ) :
    Refused (attempt.within .motor put) ↔ ¬ attempt.Succeeds := by
  obtain ⟨outcome, state⟩ := attempt
  cases outcome <;> simp [Refused, Attempt.Succeeds, Attempt.within, Except.mapError]

theorem push_aim (planner : Planner β) (target : Register Float) (steps : Steps) (move : Move) :
    (planner.aim target steps).push move = (planner.push move).aim target steps := by
  unfold push aim
  dsimp only
  cases planner.window.getLast? <;> rfl

theorem state_push (planner : Planner β) (move : Move) :
    (planner.push move).state = .buffering := by
  unfold push
  split <;> rfl

variable [MotorBackend β]

theorem enqueue_delivered (h : planner.Planned) (target : Register Float) (feedrate : Float) :
    Delivered planner (planner.planned (.enqueue target feedrate))
      (¬ (planner.enqueue target feedrate).Succeeds) (planner.enqueue target feedrate).state := by
  cases hrequest : planner.requested? target feedrate with
  | none =>
    obtain ⟨position, henqueue⟩ := enqueue_of_ignored hrequest
    simp only [planned, hrequest, henqueue]
    exact delivered_nothing (by simp) rfl rfl rfl
  | some move =>
    simp only [planned, hrequest, enqueue_of_requested hrequest]
    rw [push_aim]
    let pushed := (planner.push move).aim target (planner.stepPosition.add move.steps)
    have hfront : pushed.frontEntry = planner.frontEntry := frontEntry_push h move
    have hbackend : pushed.backend = planner.backend := backend_push planner move
    have hsettled := emitSettled_handsOver pushed
    change Delivered planner pushed.window (¬ (pushed.emitSettled.andThen _).Succeeds)
      (pushed.emitSettled.andThen _).state
    by_cases hdone : pushed.emitSettled.Succeeds
    · rw [if_pos hdone] at hsettled
      obtain ⟨k, hk, hhands⟩ := hsettled
      rw [Attempt.andThen_of_succeeds hdone]
      exact .inl ⟨by simp, k, hk, (hhands.delivers hfront hbackend).frame (settle_window _)
        (settle_frontEntry _) (settle_backend _)⟩
    · rw [if_neg hdone] at hsettled
      obtain ⟨k, part, segment, rest, -, hblock, hhands⟩ := hsettled
      rw [Attempt.andThen_of_not_succeeds hdone]
      refine .inr ⟨hdone, ?_, k, part, segment, rest, hblock, hhands.delivers hfront hbackend⟩
      rw [hhands.frame]
      exact state_push planner move

theorem halt_delivered (planner : Planner (Traced β)) :
    Delivered planner (replan planner.frontEntry planner.window) (¬ planner.halt.Succeeds)
      planner.halt.state := by
  by_cases hempty : planner.window = []
  · rw [halt_of_idle hempty]
    have hsame : replan planner.frontEntry planner.window = planner.window := by
      rw [hempty]
      rfl
    rw [hsame]
    exact delivered_nothing (by simp) planner.settle_window planner.settle_frontEntry
      planner.settle_backend
  · have hsent := emitFront_handsOver (le_refl planner.draining.window.length)
    change if planner.drained.Succeeds then _ else BreaksOff _ _ planner.drained.state at hsent
    by_cases hdone : planner.drained.Succeeds
    · rw [if_pos hdone] at hsent
      rw [halt_of_accepted hempty hdone]
      have hdelivers : Delivers planner planner.draining.window planner.draining.window.length [] []
          planner.drained.state := hsent.delivers rfl rfl
      refine .inl ⟨by simp, _, le_refl _, hdelivers.frame rfl ?_ rfl⟩
      -- The window is handed over whole, so the speed at its end is that of rest.
      have hpositive : planner.draining.window.length ≠ 0 := by
        simpa [draining] using hempty
      change (0.0 : Float) = planner.drained.state.frontEntry
      rw [hdelivers.frontEntry, if_neg hpositive, hdelivers.window, List.drop_length]
      rfl
    · rw [if_neg hdone] at hsent
      obtain ⟨k, part, segment, rest, -, hblock, hhands⟩ := hsent
      have hdelivers : Delivers planner planner.draining.window k part [segment]
          planner.drained.state := hhands.delivers rfl rfl
      rw [halt_of_refused hempty hdone]
      exact .inr ⟨hdone, rfl, k, part, segment, rest, hblock, hdelivers.frame rfl rfl rfl⟩

theorem setPosition_delivered (planner : Planner (Traced β)) (position : Register Float) :
    Delivered planner (planner.planned (.setPosition position))
      (Refused (planner.setPosition position)) (planner.setPosition position).state := by
  cases hsteps : stepsOf? planner.config planner.wiring position with
  | none =>
    rw [setPosition_of_out_of_range hsteps]
    simp only [planned, hsteps, Option.isSome_none, Bool.false_eq_true, ↓reduceIte]
    exact delivered_nothing (by simp [Refused, Attempt.failed]) rfl rfl rfl
  | some steps =>
    simp only [planned, hsteps, Option.isSome_some, ↓reduceIte]
    have hhalt := halt_delivered planner
    by_cases hdone : planner.halt.Succeeds
    · rw [setPosition_of_halted hsteps hdone]
      obtain ⟨-, k, hk, hdelivers⟩ | ⟨hrefused, -⟩ := hhalt
      · exact .inl ⟨by simp [Refused, Attempt.done], k, hk, hdelivers.frame rfl rfl rfl⟩
      · exact absurd hdone hrefused
    · rw [setPosition_of_refused hsteps hdone, refused_within]
      exact hhalt

/-- What every call hands over, and what it leaves. -/
theorem perform_delivered (h : planner.Planned) (call : Call) :
    Delivered planner (planner.planned call) (Refused (planner.perform call))
      (planner.perform call).state := by
  cases call with
  | enqueue target feedrate =>
    rw [perform, refused_within]
    exact enqueue_delivered h target feedrate
  | halt =>
    rw [perform, refused_within]
    exact halt_delivered planner
  | setPosition position => exact setPosition_delivered planner position

end Calls

end Planner
end StepMotion
