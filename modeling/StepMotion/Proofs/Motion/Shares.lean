import StepMotion.Proofs.Binary64.Integers
import StepMotion.Proofs.Motion.Segments

/-! A move does not overshoot. The phases of its profile end between its start and its end, however
the speeds were rounded, and so the place after each of its segments lies between the places where
the move starts and ends, on every axis. -/
namespace StepMotion

namespace Binary64

variable {x y : Float}

theorem le_self (hx : x.isNaN = false) : x ≤ x := le_iff.mpr ⟨hx, hx, le_refl _⟩

theorem le_greater_left (hx : x.isNaN = false) : x ≤ greater x y := by
  unfold greater
  split
  · exact le_self hx
  · next h =>
    rw [Bool.or_eq_true, decide_eq_true_iff, not_or, Bool.not_eq_true] at h
    refine Binary64.le_of_not_lt hx h.2 fun hlt => h.1 (Binary64.le_of_lt hlt)

theorem le_greater_right (hy : y.isNaN = false) : y ≤ greater x y := by
  unfold greater
  split
  · next h =>
    rw [hy, Bool.or_false, decide_eq_true_iff] at h
    exact h
  · exact le_self hy

theorem value_clamp_mem {high : Float} (hhigh : high.isNaN = false) (hnonneg : 0 ≤ value high) :
    0 ≤ value (clamp x 0.0 high) ∧ value (clamp x 0.0 high) ≤ value high := by
  unfold clamp
  split
  · rw [value_zero]
    exact ⟨le_refl 0, hnonneg⟩
  · next hlow =>
    split
    · exact ⟨hnonneg, le_refl _⟩
    · next hsmall =>
      rw [lt_iff, value_zero] at hlow
      rw [lt_iff] at hsmall
      cases hx : x.isNaN with
      | true =>
        rw [value_of_isNaN hx]
        exact ⟨le_refl 0, hnonneg⟩
      | false =>
        exact ⟨not_lt.mp fun hlt => hlow ⟨hx, rfl, hlt⟩,
          not_lt.mp fun hlt => hsmall ⟨hhigh, hx, hlt⟩⟩

end Binary64

open Binary64

namespace Phase

variable {entry exit cruise acceleration distance speed top : Float}

theorem rampDistance_nonneg (hspeed : 0 ≤ value speed)
    (hle : speed.isNaN = false → speed ≤ top) (hacceleration : Unsigned acceleration) :
    0 ≤ value (rampDistance acceleration speed top) := by
  have hsquares : value (speed * speed) ≤ value (top * top) := by
    cases hnumber : speed.isNaN with
    | true =>
      rw [value_mul_of_isNaN hnumber]
      exact (unsigned_mul_self top).nonneg
    | false =>
      obtain ⟨-, htop, hvalue⟩ := le_iff.mp (hle hnumber)
      exact value_mul_self_mono hnumber htop hspeed hvalue
  have hdifference := value_sub_of_le (unsigned_mul_self speed).nonneg hsquares
  have htwo : Unsigned 2.0 := NoMinus.finite _ _ _
  exact value_div_nonneg hdifference.1 (htwo.mul hacceleration)

variable (hentry : 0 ≤ value entry) (hexit : 0 ≤ value exit)
  (hacceleration : Unsigned acceleration) (hdistance : distance.isNaN = false)
  (hnonneg : 0 ≤ value distance)

include hentry hexit hacceleration hdistance hnonneg

/-- Every phase ends between the start and the end of the move. -/
theorem endsAt_mem_of_mem_trapezoid {phase : Phase}
    (hphase : phase ∈ trapezoid entry exit cruise acceleration distance) :
    0 ≤ value phase.endsAt ∧ value phase.endsAt ≤ value distance := by
  have hend : 0 ≤ value distance ∧ value distance ≤ value distance := ⟨hnonneg, le_refl _⟩
  rcases trapezoid_cases entry exit cruise acceleration distance with
    ⟨hfits, hthree⟩ | ⟨-, -, hone⟩ | ⟨-, -, htwo⟩
  · have hrise :
        0 ≤ value (rampDistance acceleration entry (greater (greater cruise entry) exit)) := by
      apply rampDistance_nonneg hentry _ hacceleration
      intro hnumber
      have hle := le_greater_right (x := cruise) hnumber
      exact Binary64.le_trans hle (le_greater_left (le_iff.mp hle).2.1)
    have hfall : 0 ≤ value (rampDistance acceleration exit (greater (greater cruise entry) exit)) :=
      rampDistance_nonneg hexit le_greater_right hacceleration
    obtain ⟨hsum, -, hle⟩ := le_iff.mp hfits
    obtain ⟨hriseLe, hfallLe⟩ := value_le_add hrise hfall hsum
    have hbrake := value_sub_of_le hfall (hfallLe.trans hle)
    rw [hthree] at hphase
    simp only [List.mem_cons, List.not_mem_nil, or_false] at hphase
    rcases hphase with rfl | rfl | rfl
    · exact ⟨hrise, hriseLe.trans hle⟩
    · exact hbrake
    · exact hend
  · rw [hone, List.mem_singleton] at hphase
    subst hphase
    exact hend
  · rw [htwo] at hphase
    simp only [List.mem_cons, List.not_mem_nil, or_false] at hphase
    rcases hphase with rfl | rfl
    · exact value_clamp_mem hdistance hnonneg
    · exact hend

end Phase

namespace Segment

/-- The places on an axis after each of the segments. -/
def places (axis : Axis) (start : Int) : List Segment → List Int
  | [] => []
  | segment :: rest =>
    (start + segment.steps axis) :: places axis (start + segment.steps axis) rest

variable {axis : Axis}

theorem places_append (axis : Axis) (start : Int) (first second : List Segment) :
    places axis start (first ++ second) =
      places axis start first ++ places axis (start + total first axis) second := by
  induction first generalizing start with
  | nil => simp [places]
  | cons segment rest ih =>
    rw [List.cons_append, places, ih, total_cons, places, Int.add_assoc]
    rfl

theorem places_add (axis : Axis) (offset start : Int) (segments : List Segment) :
    places axis (offset + start) segments = (places axis start segments).map (offset + ·) := by
  induction segments generalizing start with
  | nil => rfl
  | cons segment rest ih =>
    rw [places, places, List.map_cons, Int.add_assoc, ih]

end Segment

namespace Move

open Segment

variable {move : Move} {axis : Axis}

theorem places_joinEmpty_subset (exit : Float) (held : Option Float) (segments : List Segment)
    (start : Int) :
    places axis start (joinEmpty exit held segments) ⊆ places axis start segments := by
  fun_induction joinEmpty exit held segments generalizing start with
  | case1 => exact List.Subset.refl _
  | case2 held segment rest v0 hempty ih =>
    rw [places, Steps.get_eq_zero hempty, Int.add_zero]
    exact List.Subset.trans (ih start) (List.subset_cons_self _ _)
  | case3 held segment rest v0 hempty hrest =>
    rw [places, places]
    exact List.cons_subset_cons _ (List.nil_subset _)
  | case4 held segment rest v0 hempty hrest ih =>
    rw [places, places]
    exact List.cons_subset_cons _ (ih _)

section Parts

variable (hdistance : Unsigned move.distance) (hsteps : (move.steps axis).natAbs ≤ 2 ^ 53)

include hdistance hsteps

theorem stepsAt_mem {distance : Float} (hlow : 0 ≤ value distance)
    (hhigh : value distance ≤ value move.distance) :
    move.stepsAt distance axis ∈ Set.uIcc 0 (move.steps axis) := by
  simp only [stepsAt, Register.get_map]
  exact share_mem hsteps (value_div_nonneg hlow hdistance) (value_div_le_one hlow hdistance hhigh)

theorem mem_of_mem_stretches {phases : List Phase} {made : Steps} {place : Int}
    (hphases : ∀ phase ∈ phases,
      0 ≤ value phase.endsAt ∧ value phase.endsAt ≤ value move.distance)
    (h : place ∈ places axis (made axis) (move.stretches made phases)) :
    place ∈ Set.uIcc 0 (move.steps axis) := by
  fun_induction stretches move made phases with
  | case1 => simp [places] at h
  | case2 made phase =>
    have hlast : place = move.steps axis := by simpa [places] using h
    rw [hlast]
    exact Set.right_mem_uIcc
  | case3 made phase rest hrest reached ih =>
    obtain ⟨hphase, hlater⟩ := List.forall_mem_cons.mp hphases
    have hreached : made axis + (reached.sub made) axis = reached axis := by
      rw [Steps.get_sub]
      omega
    rw [places, hreached, List.mem_cons] at h
    rcases h with rfl | hplace
    · exact stepsAt_mem hdistance hsteps hphase.1 hphase.2
    · exact ih hlater hplace

omit hdistance in
theorem mem_of_mem_rampUpDown {place : Int} (h : place ∈ places axis 0 move.rampUpDown) :
    place ∈ Set.uIcc 0 (move.steps axis) := by
  have hhalf : halfSteps move.steps axis ∈ Set.uIcc 0 (move.steps axis) := by
    simp only [halfSteps, Register.get_map]
    exact half_mem hsteps
  simp only [rampUpDown, places, Steps.get_sub, List.mem_cons, List.not_mem_nil, or_false] at h
  rcases h with rfl | rfl
  · rwa [Int.zero_add]
  · have hall : 0 + halfSteps move.steps axis +
        (move.steps axis - halfSteps move.steps axis) = move.steps axis := by omega
    rw [hall]
    exact Set.right_mem_uIcc

end Parts

/-- None of the quantities that a profile is made from has a minus sign. -/
structure Steady (move : Move) : Prop where
  distance : move.distance = Float.ofNat move.steps.count
  acceleration : Unsigned move.acceleration
  cruise : Unsigned move.cruise
  entryCap : Unsigned move.entryCap
  entry : Unsigned move.entry

/-- A steady move from one step position to another. -/
structure Admissible (move : Move) : Prop where
  steady : move.Steady
  natAbs_le : ∀ axis, (move.steps axis).natAbs ≤ 2 ^ 54

theorem Steady.mem_of_mem_segments (h : move.Steady) {exit : Float} (hexit : Unsigned exit)
    (hsteps : (move.steps axis).natAbs ≤ 2 ^ 53) {place : Int}
    (hplace : place ∈ places axis 0 (move.segments exit)) :
    place ∈ Set.uIcc 0 (move.steps axis) := by
  have hdistance : Unsigned move.distance := h.distance ▸ unsigned_ofNat _
  have hnumber : move.distance.isNaN = false := h.distance ▸ (nearest_ofNat _).isNaN
  rcases move.segments_cases exit with hjoined | ⟨hramps, -⟩
  · rw [hjoined] at hplace
    have hstretch := places_joinEmpty_subset _ _ _ _ hplace
    rw [← Steps.get_zero axis] at hstretch
    refine mem_of_mem_stretches hdistance hsteps (fun phase hphase => ?_) hstretch
    exact Phase.endsAt_mem_of_mem_trapezoid h.entry.nonneg hexit.nonneg h.acceleration hnumber
      hdistance.nonneg hphase
  · rw [hramps] at hplace
    exact mem_of_mem_rampUpDown hsteps hplace

end Move
end StepMotion
