import Mathlib
import StepMotion.Motion.Move

/-! The segments of a move. They make exactly the steps of the move, there are at most three of
them, and they lead from its entry speed to its exit speed without a jump. -/
namespace StepMotion

namespace Steps

theorem get_eq_zero {s : Steps} (h : s.isZero = true) (axis : Axis) : s axis = 0 := by
  rw [(isZero_iff s).mp h, get_zero]

theorem ne_zero_of_count {s : Steps} (h : 0 < s.count) : s ≠ zero := by
  rintro rfl
  simp [count] at h

theorem natAbs_le_count (s : Steps) (axis : Axis) : (s axis).natAbs ≤ s.count := by
  have hfold : ∀ (axes : List Axis) (start : Axis),
      let most := axes.foldl (fun most axis =>
        if (s most).natAbs < (s axis).natAbs then axis else most) start
      (s start).natAbs ≤ (s most).natAbs ∧ ∀ other ∈ axes, (s other).natAbs ≤ (s most).natAbs := by
    intro axes
    induction axes with
    | nil => simp
    | cons first rest ih =>
      intro start
      dsimp only
      rw [List.foldl_cons, List.forall_mem_cons]
      obtain ⟨hstart, hrest⟩ := ih (if (s start).natAbs < (s first).natAbs then first else start)
      have hpick : (s start).natAbs ≤
            (s (if (s start).natAbs < (s first).natAbs then first else start)).natAbs ∧
          (s first).natAbs ≤
            (s (if (s start).natAbs < (s first).natAbs then first else start)).natAbs := by
        split <;> omega
      exact ⟨hpick.1.trans hstart, hpick.2.trans hstart, hrest⟩
  exact (hfold Axis.all .x).2 axis (Axis.mem_all axis)

theorem count_pos {s : Steps} (h : s ≠ zero) : 0 < s.count := by
  refine Nat.pos_of_ne_zero fun hcount => h ?_
  ext axis
  have hle := s.natAbs_le_count axis
  rw [get_zero]
  omega

end Steps

namespace Segment

/-- The same speed: identical, or zero of either sign. -/
def SameSpeed (v w : Float) : Prop := v = w ∨ (v == 0.0) = true ∧ (w == 0.0) = true

theorem SameSpeed.refl (v : Float) : SameSpeed v v := .inl rfl

theorem SameSpeed.symm {v w : Float} (h : SameSpeed v w) : SameSpeed w v := by
  rcases h with rfl | ⟨hv, hw⟩
  · exact .inl rfl
  · exact .inr ⟨hw, hv⟩

theorem SameSpeed.trans {u v w : Float} (huv : SameSpeed u v) (hvw : SameSpeed v w) :
    SameSpeed u w := by
  rcases huv with rfl | ⟨hu, hv⟩
  · exact hvw
  rcases hvw with rfl | ⟨-, hw⟩
  · exact .inr ⟨hu, hv⟩
  · exact .inr ⟨hu, hw⟩

theorem SameSpeed.zero {v w : Float} (h : SameSpeed v w) (hv : (v == 0.0) = true) :
    (w == 0.0) = true := by
  rcases h with rfl | ⟨-, hw⟩
  · exact hv
  · exact hw

/-- The segments lead from the speed `v` to the speed `w` without a jump. -/
def Leads (v : Float) : List Segment → Float → Prop
  | [], w => SameSpeed v w
  | segment :: rest, w => SameSpeed v segment.v0 ∧ Leads segment.v1 rest w

theorem Leads.from {u v w : Float} {segments : List Segment} (huv : SameSpeed u v)
    (h : Leads v segments w) : Leads u segments w := by
  cases segments with
  | nil => exact huv.trans h
  | cons segment rest => exact ⟨huv.trans h.1, h.2⟩

theorem Leads.append {u v w : Float} {first second : List Segment} (hfirst : Leads u first v)
    (hsecond : Leads v second w) : Leads u (first ++ second) w := by
  induction first generalizing u with
  | nil => exact hsecond.from hfirst
  | cons segment rest ih => exact ⟨hfirst.1, ih hfirst.2⟩

theorem Leads.until {u v w : Float} {segments : List Segment} (h : Leads u segments v)
    (hvw : SameSpeed v w) : Leads u segments w := by
  have hnil : Leads v [] w := hvw
  have happend := h.append hnil
  rwa [List.append_nil] at happend

theorem Leads.isChain {v w : Float} {segments : List Segment} (h : Leads v segments w) :
    segments.IsChain fun a b => SameSpeed a.v1 b.v0 := by
  induction segments generalizing v with
  | nil => exact .nil
  | cons segment rest ih =>
    cases rest with
    | nil => exact .singleton segment
    | cons next rest => exact .cons_cons h.2.1 (ih h.2)

theorem Leads.head {v w : Float} {segments : List Segment} (h : Leads v segments w)
    {first : Segment} (hfirst : first ∈ segments.head?) : SameSpeed v first.v0 := by
  cases segments with
  | nil => simp at hfirst
  | cons segment rest =>
    obtain rfl : segment = first := by simpa using hfirst
    exact h.1

theorem Leads.last {v w : Float} {segments : List Segment} (h : Leads v segments w)
    {last : Segment} (hlast : last ∈ segments.getLast?) : SameSpeed last.v1 w := by
  induction segments generalizing v with
  | nil => simp at hlast
  | cons segment rest ih =>
    cases rest with
    | nil =>
      obtain rfl : segment = last := by simpa using hlast
      exact h.2
    | cons next rest => exact ih h.2 (by simpa [List.getLast?_cons_cons] using hlast)

def total (segments : List Segment) (axis : Axis) : Int :=
  (segments.map fun segment => segment.steps axis).sum

@[simp] theorem total_nil (axis : Axis) : total [] axis = 0 := rfl

@[simp] theorem total_cons (segment : Segment) (rest : List Segment) (axis : Axis) :
    total (segment :: rest) axis = segment.steps axis + total rest axis := by
  simp [total]

@[simp] theorem total_append (first second : List Segment) (axis : Axis) :
    total (first ++ second) axis = total first axis + total second axis := by
  simp [total]

theorem total_eq_zero {segments : List Segment} {axis : Axis}
    (h : ∀ segment ∈ segments, segment.steps.isZero = true) : total segments axis = 0 := by
  induction segments with
  | nil => rfl
  | cons segment rest ih =>
    rw [total_cons, Steps.get_eq_zero (h segment (by simp)),
      ih fun next hnext => h next (by simp [hnext])]
    rfl

end Segment

theorem Phase.trapezoid_cases (entry exit cruise acceleration distance : Float) :
    let top := Binary64.greater (Binary64.greater cruise entry) exit
    let rise := rampDistance acceleration entry top
    let fall := rampDistance acceleration exit top
    let peak := meetingSpeed entry exit acceleration distance
    rise + fall ≤ distance ∧ trapezoid entry exit cruise acceleration distance =
        [⟨rise, entry, top⟩, ⟨distance - fall, top, top⟩, ⟨distance, top, exit⟩] ∨
      ¬ rise + fall ≤ distance ∧ peak ≤ Binary64.greater entry exit ∧
        trapezoid entry exit cruise acceleration distance = [⟨distance, entry, exit⟩] ∨
      ¬ rise + fall ≤ distance ∧ ¬ peak ≤ Binary64.greater entry exit ∧
        trapezoid entry exit cruise acceleration distance =
          [⟨Binary64.clamp (rampDistance acceleration entry peak) 0.0 distance, entry, peak⟩,
            ⟨distance, peak, exit⟩] := by
  unfold trapezoid
  dsimp only
  split
  · next hfits => exact .inl ⟨hfits, rfl⟩
  · next hfits =>
    split
    · next hpeak => exact .inr (.inl ⟨hfits, hpeak, rfl⟩)
    · next hpeak => exact .inr (.inr ⟨hfits, hpeak, rfl⟩)

namespace Move

open Segment

theorem length_stretches (move : Move) (made : Steps) (phases : List Phase) :
    (move.stretches made phases).length = phases.length := by
  fun_induction stretches move made phases with
  | case1 => rfl
  | case2 => rfl
  | case3 made phase rest hrest reached ih => simp only [List.length_cons, ih]

/-- However the steps are shared out, the last stretch makes up for the others. -/
theorem total_stretches (move : Move) (made : Steps) {phases : List Phase} (h : phases ≠ [])
    (axis : Axis) : total (move.stretches made phases) axis = move.steps axis - made axis := by
  fun_induction stretches move made phases with
  | case1 => exact absurd rfl h
  | case2 => simp
  | case3 made phase rest hrest reached ih =>
    rw [total_cons, ih (fun hnil => hrest hnil)]
    simp only [Steps.get_sub]
    omega

/-- Joining leaves out the segments without steps, and only changes speeds. -/
theorem map_steps_joinEmpty (exit : Float) (held : Option Float) (segments : List Segment) :
    (joinEmpty exit held segments).map Segment.steps =
      (segments.map Segment.steps).filter fun steps => !steps.isZero := by
  fun_induction joinEmpty exit held segments with
  | case1 => rfl
  | case2 held segment rest v0 hempty ih =>
    rw [ih, List.map_cons, List.filter_cons_of_neg (by simpa using hempty)]
  | case3 held segment rest v0 hempty hrest =>
    have hnone : (rest.map Segment.steps).filter (fun steps => !steps.isZero) = [] := by
      simpa [List.filter_eq_nil_iff] using hrest.2
    rw [List.map_singleton, List.map_cons, List.filter_cons_of_pos (by simpa using hempty), hnone]
  | case4 held segment rest v0 hempty hrest ih =>
    rw [List.map_cons, List.map_cons, List.filter_cons_of_pos (by simpa using hempty), ih]

theorem map_steps_joinEmpty_subset (exit : Float) (held : Option Float) (segments : List Segment) :
    (joinEmpty exit held segments).map Segment.steps ⊆ segments.map Segment.steps := by
  rw [map_steps_joinEmpty]
  exact List.filter_sublist.subset

theorem isZero_of_mem_joinEmpty {exit : Float} {held : Option Float} {segments : List Segment} :
    ∀ segment ∈ joinEmpty exit held segments, segment.steps.isZero = false := by
  intro segment hsegment
  have hsteps := List.mem_map_of_mem hsegment (f := Segment.steps)
  rw [map_steps_joinEmpty, List.mem_filter] at hsteps
  simpa using hsteps.2

theorem joinEmpty_ne_nil {exit : Float} {held : Option Float} {segments : List Segment}
    (hmoves : ∃ segment ∈ segments, segment.steps.isZero = false) :
    joinEmpty exit held segments ≠ [] := by
  obtain ⟨segment, hsegment, hmove⟩ := hmoves
  have hsteps : segment.steps ∈ (joinEmpty exit held segments).map Segment.steps := by
    rw [map_steps_joinEmpty, List.mem_filter]
    exact ⟨List.mem_map_of_mem hsegment, by simp [hmove]⟩
  intro hnil
  rw [hnil] at hsteps
  exact List.not_mem_nil hsteps

theorem length_joinEmpty_le (exit : Float) (held : Option Float) (segments : List Segment) :
    (joinEmpty exit held segments).length ≤ segments.length := by
  have hlength := congrArg List.length (map_steps_joinEmpty exit held segments)
  rw [List.length_map] at hlength
  rw [hlength]
  exact (List.length_filter_le _ _).trans_eq (List.length_map _)

theorem total_joinEmpty (exit : Float) (held : Option Float) (segments : List Segment)
    (axis : Axis) : total (joinEmpty exit held segments) axis = total segments axis := by
  fun_induction joinEmpty exit held segments with
  | case1 => rfl
  | case2 held segment rest v0 hempty ih =>
    rw [ih, total_cons, Steps.get_eq_zero hempty, Int.zero_add]
  | case3 held segment rest v0 hempty hrest =>
    have hzero : total rest axis = 0 := total_eq_zero (by simpa using hrest.2)
    simp [hzero]
  | case4 held segment rest v0 hempty hrest ih => rw [total_cons, total_cons, ih]

/-- Joining keeps the speeds at both ends, provided that some segment moves. -/
theorem leads_joinEmpty (held : Option Float) {exit v : Float} {segments : List Segment}
    (h : Leads v segments exit) (hmoves : ∃ segment ∈ segments, segment.steps.isZero = false) :
    Leads (held.getD v) (joinEmpty exit held segments) exit := by
  induction segments generalizing v held with
  | nil => simp at hmoves
  | cons segment rest ih =>
    obtain ⟨hfirst, hrest⟩ := h
    have hheld : SameSpeed (held.getD v) (held.getD segment.v0) := by
      cases held with
      | none => exact hfirst
      | some speed => exact .refl speed
    unfold joinEmpty
    by_cases hempty : segment.steps.isZero
    · -- The speed into an empty segment is held for the next one, which some later one is.
      simp only [hempty, ↓reduceIte]
      have hlater : ∃ next ∈ rest, next.steps.isZero = false := by
        obtain ⟨next, hnext, hmove⟩ := hmoves
        rcases List.mem_cons.mp hnext with rfl | hnext
        · rw [hempty] at hmove
          contradiction
        · exact ⟨next, hnext, hmove⟩
      exact (ih (some _) hrest hlater).from hheld
    · simp only [hempty, Bool.false_eq_true, ↓reduceIte]
      split
      · exact ⟨hheld, .refl exit⟩
      · next hopen =>
        refine ⟨hheld, ?_⟩
        by_cases hnil : rest = []
        · subst hnil
          exact hrest
        · have hlater : ∃ next ∈ rest, next.steps.isZero = false := by
            simpa [hnil] using hopen
          exact ih none hrest hlater

def profile (move : Move) (exit : Float) : List Phase :=
  Phase.trapezoid move.entry exit move.cruise move.acceleration move.distance

theorem profile_ne_nil (move : Move) (exit : Float) : move.profile exit ≠ [] := by
  unfold profile
  rcases Phase.trapezoid_cases move.entry exit move.cruise move.acceleration move.distance
    with ⟨-, h⟩ | ⟨-, -, h⟩ | ⟨-, -, h⟩ <;> simp [h]

theorem length_profile_le (move : Move) (exit : Float) : (move.profile exit).length ≤ 3 := by
  unfold profile
  rcases Phase.trapezoid_cases move.entry exit move.cruise move.acceleration move.distance
    with ⟨-, h⟩ | ⟨-, -, h⟩ | ⟨-, -, h⟩ <;> simp [h]

theorem leads_stretches (move : Move) (made : Steps) (exit : Float) :
    Leads move.entry (move.stretches made (move.profile exit)) exit := by
  unfold profile
  rcases Phase.trapezoid_cases move.entry exit move.cruise move.acceleration move.distance
    with ⟨-, h⟩ | ⟨-, -, h⟩ | ⟨-, -, h⟩
  · rw [h]
    exact ⟨.refl _, .refl _, .refl _, .refl _⟩
  · rw [h]
    exact ⟨.refl _, .refl _⟩
  · rw [h]
    exact ⟨.refl _, .refl _, .refl _⟩

theorem total_rampUpDown (move : Move) (axis : Axis) :
    total move.rampUpDown axis = move.steps axis := by
  rw [rampUpDown, total_cons, total_cons, total_nil]
  simp only [Steps.get_sub]
  omega

theorem leads_rampUpDown (move : Move) : Leads 0.0 move.rampUpDown 0.0 :=
  ⟨.refl _, .refl _, .refl _⟩

/-- The segments are the joined stretches of the profile, or two ramps in place of a single one
from rest to rest. -/
theorem segments_cases (move : Move) (exit : Float) :
    move.segments exit = joinEmpty exit none (move.stretches .zero (move.profile exit)) ∨
      move.segments exit = move.rampUpDown ∧ ∃ only,
        joinEmpty exit none (move.stretches .zero (move.profile exit)) = [only] ∧
        (only.v0 == 0.0) = true ∧ (only.v1 == 0.0) = true := by
  unfold segments profile
  dsimp only
  split
  · next only honly =>
    rw [honly]
    split
    · next hrest => exact .inr ⟨rfl, only, rfl, by simpa using hrest⟩
    · exact .inl rfl
  · exact .inl rfl

theorem steps_of_mem_segments {move : Move} {exit : Float} {segment : Segment}
    (h : segment ∈ move.segments exit) :
    (∃ stretch ∈ move.stretches .zero (move.profile exit), stretch.steps = segment.steps) ∨
      segment.steps = halfSteps move.steps ∨
      segment.steps = move.steps.sub (halfSteps move.steps) := by
  rcases move.segments_cases exit with hjoined | ⟨hramps, -⟩
  · rw [hjoined] at h
    exact .inl (List.mem_map.mp (map_steps_joinEmpty_subset _ _ _ (List.mem_map_of_mem h)))
  · rw [hramps] at h
    simp only [rampUpDown, List.mem_cons, List.not_mem_nil, or_false] at h
    rcases h with rfl | rfl
    · exact .inr (.inl rfl)
    · exact .inr (.inr rfl)

theorem exists_moving_stretch {move : Move} (h : move.steps ≠ .zero) (exit : Float) :
    ∃ segment ∈ move.stretches .zero (move.profile exit), segment.steps.isZero = false := by
  by_contra hnone
  apply h
  ext axis
  have htotal := move.total_stretches .zero (move.profile_ne_nil exit) axis
  rw [total_eq_zero (by simpa using hnone)] at htotal
  simpa using htotal.symm

theorem total_segments (move : Move) (exit : Float) (axis : Axis) :
    total (move.segments exit) axis = move.steps axis := by
  rcases move.segments_cases exit with hjoined | ⟨hramps, -⟩
  · rw [hjoined, total_joinEmpty, total_stretches move _ (move.profile_ne_nil exit)]
    simp
  · rw [hramps, total_rampUpDown]

theorem segments_ne_nil {move : Move} (h : move.steps ≠ .zero) (exit : Float) :
    move.segments exit ≠ [] := by
  rcases move.segments_cases exit with hjoined | ⟨hramps, -⟩
  · rw [hjoined]
    exact joinEmpty_ne_nil (exists_moving_stretch h exit)
  · rw [hramps]
    simp [rampUpDown]

theorem length_segments_le (move : Move) (exit : Float) : (move.segments exit).length ≤ 3 := by
  rcases move.segments_cases exit with hjoined | ⟨hramps, -⟩
  · rw [hjoined]
    calc
      _ ≤ (move.stretches .zero (move.profile exit)).length := length_joinEmpty_le _ _ _
      _ = (move.profile exit).length := length_stretches _ _ _
      _ ≤ 3 := move.length_profile_le exit
  · rw [hramps]
    simp [rampUpDown]

theorem leads_segments {move : Move} (h : move.steps ≠ .zero) (exit : Float) :
    Leads move.entry (move.segments exit) exit := by
  have hleads : Leads move.entry
      (joinEmpty exit none (move.stretches .zero (move.profile exit))) exit :=
    leads_joinEmpty none (move.leads_stretches .zero exit) (exists_moving_stretch h exit)
  rcases move.segments_cases exit with hjoined | ⟨hramps, only, honly, hv0, hv1⟩
  · rwa [hjoined]
  · rw [honly] at hleads
    rw [hramps]
    -- The single segment is at rest at both ends, and so the move is.
    have hentry : SameSpeed move.entry 0.0 := .inr ⟨hleads.1.symm.zero hv0, rfl⟩
    have hexit : SameSpeed 0.0 exit := .inr ⟨rfl, hleads.2.zero hv1⟩
    exact (leads_rampUpDown move).from hentry |>.until hexit

end Move
end StepMotion
