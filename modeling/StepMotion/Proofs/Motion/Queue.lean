import StepMotion.Proofs.Planner.Changes

/-! The window as a queue with places, counted from the front. A program that plans over places
stops where it looks at one that the queue does not have. These loops never do, and they plan what
the recursion over the window plans. -/
namespace StepMotion.Window

open Binary64

/-- The pass from the back, over the places from `index` down to 1. -/
def backward? (queue : List Move) (exit : Float) : Nat → Option (List Move)
  | 0 => some queue
  | index + 1 => do
    let move ← queue[index + 1]?
    let entry := lesser move.entryCap (move.reachableFrom exit)
    backward? (queue.set (index + 1) { move with entry := entry }) entry index

def forward? (index : Nat) (queue : List Move) : Nat → Option (List Move)
  | 0 => some queue
  | count + 1 => do
    let move ← queue[index]?
    let next ← queue[index + 1]?
    let reachable := move.reachableFrom move.entry
    let next := if reachable < next.entry then { next with entry := reachable } else next
    forward? (index + 1) (queue.set (index + 1) next) count

def replan? (frontEntry : Float) (queue : List Move) : Option (List Move) :=
  match queue.length with
  | 0 => some queue
  | last + 1 => do
    let queue ← backward? queue 0.0 last
    let front ← queue[0]?
    forward? 0 (queue.set 0 { front with entry := frontEntry }) last

def lastStop? (queue : List Move) : Nat → Option Nat
  | 0 => some 0
  | index + 1 => do
    let move ← queue[index + 1]?
    if move.stopsBefore then some (index + 1) else lastStop? queue index

section Places

variable (before after : List Move) (move other : Move)

theorem getElem?_middle : (before ++ move :: after)[before.length]? = some move := by simp

theorem set_middle :
    (before ++ move :: after).set before.length other = before ++ other :: after := by simp

end Places

theorem backward?_eq (front : Move) (rest planned : List Move) :
    backward? (front :: rest ++ planBackward planned) (entrySpeed (planBackward planned))
      rest.length = some (front :: planBackward (rest ++ planned)) := by
  induction rest using List.reverseRecOn generalizing planned with
  | nil => rfl
  | append_singleton rest move ih =>
    have hqueue : front :: (rest ++ [move]) ++ planBackward planned =
        (front :: rest) ++ move :: planBackward planned := by simp
    have hplace : rest.length + 1 = (front :: rest).length := rfl
    rw [hqueue, List.length_append, List.length_singleton, backward?, hplace, getElem?_middle,
      Option.bind_eq_bind, Option.bind_some]
    dsimp only
    rw [set_middle, List.append_assoc]
    exact ih (move :: planned)

theorem forward?_eq (passed : List Move) (move : Move) (rest : List Move) :
    forward? passed.length (passed ++ move :: rest) rest.length =
      some (passed ++ move :: planForward (move.reachableFrom move.entry) rest) := by
  induction rest generalizing passed move with
  | nil => rfl
  | cons next rest ih =>
    have hqueue : passed ++ move :: next :: rest = (passed ++ [move]) ++ next :: rest := by simp
    have hplace : passed.length + 1 = (passed ++ [move]).length := by simp
    rw [List.length_cons, forward?, getElem?_middle, Option.bind_eq_bind, Option.bind_some, hqueue,
      hplace, getElem?_middle, Option.bind_some]
    dsimp only
    rw [set_middle, ih, planForward, List.append_assoc]
    rfl

/-- Planning over places looks at none that is not there. -/
theorem replan?_eq (frontEntry : Float) (queue : List Move) :
    replan? frontEntry queue = some (replan frontEntry queue) := by
  cases queue with
  | nil => rfl
  | cons front rest =>
    have hback := backward?_eq front rest []
    have hfront := forward?_eq [] { front with entry := frontEntry } (planBackward rest)
    rw [planBackward, List.append_nil, List.append_nil] at hback
    rw [length_planBackward] at hfront
    simp only [replan?, List.length_cons]
    change (backward? (front :: rest) (entrySpeed []) rest.length).bind _ = _
    rw [hback, Option.bind_some]
    exact hfront

theorem lastStop?_append (front : Move) (rest after : List Move) :
    lastStop? (front :: rest ++ after) rest.length = some (settledCount (front :: rest)) := by
  induction rest using List.reverseRecOn generalizing after with
  | nil => rfl
  | append_singleton rest move ih =>
    have hqueue : front :: (rest ++ [move]) ++ after = (front :: rest) ++ move :: after := by simp
    have hplace : rest.length + 1 = (front :: rest).length := rfl
    rw [hqueue, List.length_append, List.length_singleton, lastStop?, hplace, getElem?_middle,
      Option.bind_eq_bind, Option.bind_some, ← List.cons_append]
    split
    · next hstop => rw [settledCount_concat hstop]
    · next hstop => rw [settledCount_concat_of_not_stop hstop, ih]

theorem lastStop?_eq (queue : List Move) :
    lastStop? queue (queue.length - 1) = some (settledCount queue) := by
  cases queue with
  | nil => rfl
  | cons front rest =>
    have hsearch := lastStop?_append front rest []
    rwa [List.append_nil] at hsearch

end StepMotion.Window
