import StepMotion.Proofs.Planner.SpeedContinuity
import StepMotion.Proofs.Planner.StepLedger

/-! The corners of a path. Sharp ones are passed at rest, all others at no more than the cruise
speed of either move. -/
namespace StepMotion

theorem Segment.SameSpeed.not_lt {limit v w : Float} (h : SameSpeed v w) (hw : ¬ limit < w) :
    ¬ limit < v := by
  rcases h with rfl | ⟨hv, hwzero⟩
  · exact hw
  · rw [Binary64.lt_iff] at hw ⊢
    rw [Binary64.beq_iff] at hv hwzero
    rw [hv.2.2, ← hwzero.2.2]
    exact fun hlt => hw ⟨hlt.1, hwzero.1, hlt.2.2⟩

namespace Planner

open Segment

/-- A speed at a corner: none at a sharp one, and otherwise neither cruise speed is exceeded. -/
def CornerSpeed (threshold : Float) (a b : Move) (speed : Float) : Prop :=
  if Corner.isSharp threshold (Corner.angle a.direction b.direction) then (speed == 0.0) = true
  else ¬ a.cruise < speed ∧ ¬ b.cruise < speed

theorem CornerSpeed.of_withinCap {threshold : Float} {a b move : Move} (hmove : move.WithinCap)
    (hcap : move.entryCap = capAfter threshold (some a) b) {speed : Float}
    (hspeed : SameSpeed speed move.entry) : CornerSpeed threshold a b speed := by
  unfold CornerSpeed
  simp only [capAfter, Corner.speedCap] at hcap
  split
  · next hsharp =>
    rw [if_pos hsharp] at hcap
    rw [hmove.stop hcap] at hspeed
    exact hspeed.symm.zero rfl
  · next hsharp =>
    rw [if_neg hsharp] at hcap
    have habove := hmove.notAbove
    rw [hcap] at habove
    obtain ⟨ha, hb⟩ := Binary64.not_lt_of_lesser habove
    exact ⟨hspeed.not_lt ha, hspeed.not_lt hb⟩

theorem Linked.exit {v w : Float} {out : List Emission} (h : Linked v out w) {i : Nat}
    {first second : Emission} (hfirst : out[i]? = some first)
    (hsecond : out[i + 1]? = some second) : second.move.entry = first.exit := by
  induction out generalizing v i with
  | nil => simp at hfirst
  | cons emission rest ih =>
    cases i with
    | zero =>
      obtain rfl : emission = first := by simpa using hfirst
      cases rest with
      | nil => simp at hsecond
      | cons next rest =>
        obtain rfl : next = second := by simpa using hsecond
        exact h.2.1
    | succ i => exact ih h.2 hfirst hsecond

theorem length_capped (threshold : Float) (last : Option Move) (path : List Event) :
    (capped threshold last path).length = (path.filterMap Event.move?).length := by
  induction path generalizing last with
  | nil => rfl
  | cons event rest ih =>
    cases event with
    | queued move => exact congrArg (· + 1) (ih (some move))
    | halted => exact ih none
    | rebased jump => exact ih none

variable {β : Type} [MotorBackend β]

theorem Account.corner {planner : Planner (Traced β)} {calls : List Call} {out : List Emission}
    (h : Account planner calls out) {before after : List Event} {a b : Move}
    (hpath : planner.history calls = before ++ .queued a :: .queued b :: after)
    {first second : Emission} (hfirst : out[(before.filterMap Event.move?).length]? = some first)
    (hsecond : out[(before.filterMap Event.move?).length + 1]? = some second) :
    (∃ last ∈ first.segments.getLast?,
      CornerSpeed planner.config.thresholdAngle a b last.v1) ∧
    ∃ next ∈ second.segments.head?, CornerSpeed planner.config.thresholdAngle a b next.v0 := by
  have hcap : second.move.entryCap = capAfter planner.config.thresholdAngle (some a) b := by
    have hentered : second.move.unplanned = { b with
        entryCap := capAfter planner.config.thresholdAngle (some a) b, entry := 0.0 } := by
      have hmoves := congrArg (·[(before.filterMap Event.move?).length + 1]?) h.ledger.moves
      simp only [List.map_append, List.map_map] at hmoves
      rw [List.getElem?_append_left (by simpa using (List.getElem?_eq_some_iff.mp hsecond).1),
        List.getElem?_map, hsecond, h.config, hpath, capped_append,
        List.getElem?_append_right (by rw [length_capped]; omega), length_capped,
        Nat.add_sub_cancel_left] at hmoves
      exact Option.some.inj hmoves
    exact congrArg Move.entryCap hentered
  have hexit := h.ledger.linked.exit hfirst hsecond
  have hwithin := h.ledger.withinCap second (List.mem_of_getElem? hsecond)
  have hfirstMoves := h.moving first (List.mem_of_getElem? hfirst)
  have hsecondMoves := h.moving second (List.mem_of_getElem? hsecond)
  have hfirstNe : first.segments ≠ [] := Move.segments_ne_nil hfirstMoves first.exit
  have hsecondNe : second.segments ≠ [] := Move.segments_ne_nil hsecondMoves second.exit
  constructor
  · have hlast := List.getLast?_eq_some_getLast hfirstNe
    have hspeed := (Move.leads_segments hfirstMoves first.exit).last hlast
    rw [← hexit] at hspeed
    exact ⟨_, hlast, .of_withinCap hwithin hcap hspeed⟩
  · have hhead := List.head?_eq_some_head hsecondNe
    have hspeed := (Move.leads_segments hsecondMoves second.exit).head hhead
    exact ⟨_, hhead, .of_withinCap hwithin hcap hspeed.symm⟩

variable {config : MachineConfig} {wiring : Wiring} {backend : β} {lookahead : Nat}
  {planner : Planner β}

/-- Where two moves follow each other without a halt, a sharp corner is passed at speed zero and any
other at no more than the cruise speed of either move. -/
theorem corners_passed (hmake : make config wiring backend lookahead = .ok planner)
    (haccepting : MotorBackend.Accepting backend) (calls : List Call) :
    ∃ out : List Emission, planner.emitted calls = out.flatMap Emission.segments ∧
      out.map (fun emission => emission.move.bare) = (planner.queued calls).take out.length ∧
      (planner.run calls).window.map Move.bare = (planner.queued calls).drop out.length ∧
      ∀ before a b after, planner.history calls = before ++ .queued a :: .queued b :: after →
        ∀ first second, out[(before.filterMap Event.move?).length]? = some first →
          out[(before.filterMap Event.move?).length + 1]? = some second →
          (∃ last ∈ first.segments.getLast?, CornerSpeed config.thresholdAngle a b last.v1) ∧
          ∃ next ∈ second.segments.head?, CornerSpeed config.thresholdAngle a b next.v0 := by
  obtain ⟨out, haccount⟩ := exists_account_of_make hmake haccepting calls
  have htake := haccount.take
  have hdrop := haccount.drop
  rw [queued_traced] at htake hdrop
  rw [window_run_traced] at hdrop
  refine ⟨out, haccount.emitted, htake.symm, hdrop.symm, ?_⟩
  intro before a b after hpath first second hfirst hsecond
  rw [← history_traced] at hpath
  have hcorner := haccount.corner hpath hfirst hsecond
  have hconfig : planner.traced.config = config := by
    rw [(make_eq_ok hmake).2]
    rfl
  rwa [hconfig] at hcorner

theorem corners_passed_sample :
    (∃ a b after, sample.history [goTo 10.0, goTo 5.0, .halt] = .queued a :: .queued b :: after) ∧
    ∃ out : List Emission,
      sample.emitted [goTo 10.0, goTo 5.0, .halt] = out.flatMap Emission.segments ∧
      out.map (fun emission => emission.move.bare) =
        (sample.queued [goTo 10.0, goTo 5.0, .halt]).take out.length ∧
      (sample.run [goTo 10.0, goTo 5.0, .halt]).window.map Move.bare =
        (sample.queued [goTo 10.0, goTo 5.0, .halt]).drop out.length ∧
      ∀ before a b after,
        sample.history [goTo 10.0, goTo 5.0, .halt] = before ++ .queued a :: .queued b :: after →
        ∀ first second, out[(before.filterMap Event.move?).length]? = some first →
          out[(before.filterMap Event.move?).length + 1]? = some second →
          (∃ last ∈ first.segments.getLast?,
            CornerSpeed sample.config.thresholdAngle a b last.v1) ∧
          ∃ next ∈ second.segments.head?, CornerSpeed sample.config.thresholdAngle a b next.v0 :=
  ⟨⟨_, _, _, rfl⟩,
    corners_passed make_sample (accepting_recorder sample.backend) [goTo 10.0, goTo 5.0, .halt]⟩

end Planner
end StepMotion
