import StepMotion.Proofs.Binary64.Fractions
import StepMotion.Proofs.Binary64.Magnitude
import StepMotion.Proofs.Motion.Words

/-! Segments that get somewhere. Each has a step to make, and a speed to make it with as long as the
quantities of its move are far from both ends of the double range. Only a single segment could be at
rest at both ends, and that one is split. -/
namespace StepMotion

open Binary64

namespace Binary64

theorem natAbs_half {total : ℤ} (hleast : 2 ≤ total.natAbs) (h : total.natAbs ≤ 2 ^ 54) :
    0 < (nearestInt64 (Float.ofInt total / 2.0)).natAbs ∧
      (nearestInt64 (Float.ofInt total / 2.0)).natAbs < total.natAbs := by
  obtain ⟨hfinite, -⟩ := ofInt_word h
  have hhalf : Between 0 53 (Float.ofInt total / 2.0).abs := by
    have hwhole : Between 1 54 (Float.ofInt total).abs :=
      between_abs_ofInt (by rw [zpow_one]; exact_mod_cast hleast) (by exact_mod_cast h)
        (by norm_num) (by norm_num)
    have hquotient := nearest_div hfinite (y := 2.0) rfl (by rw [value_two]; exact two_ne_zero)
    refine between_abs_of_nearest hquotient ?_ (by norm_num) (by norm_num)
    obtain ⟨hlow, hhigh⟩ := hwhole
    rw [value_two, abs_div, abs_two, ← value_abs]
    norm_num at hlow hhigh ⊢
    constructor <;> linarith
  have hsize := hhalf.le_high
  rw [value_abs] at hsize
  have hrounded : ((nearestInt64 (Float.ofInt total / 2.0)).natAbs : ℤ) =
      roundAway |value (Float.ofInt total / 2.0)| := by
    rw [Int.natCast_natAbs, abs_nearestInt64 (hsize.trans (two_zpow_le (by norm_num)))]
  have hbounds : 1 ≤ roundAway |value (Float.ofInt total / 2.0)| ∧
      roundAway |value (Float.ofInt total / 2.0)| ≤ 2 ^ 53 := by
    rw [← value_abs]
    have hlow := roundAway_mono hhalf.low_le
    have hhigh := roundAway_mono hhalf.le_high
    rw [show (2 : ℝ) ^ (0 : ℤ) = ((1 : ℤ) : ℝ) by norm_num, roundAway_intCast] at hlow
    rw [show (2 : ℝ) ^ (53 : ℤ) = ((2 ^ 53 : ℤ) : ℝ) by norm_num, roundAway_intCast] at hhigh
    exact ⟨hlow, hhigh⟩
  rcases Nat.lt_or_ge (2 ^ 53) total.natAbs with hlarge | hexact
  · omega
  · -- An exact half is at least one step short of the whole.
    have hshort : |value (Float.ofInt total / 2.0)| ≤ ((total.natAbs - 1 : ℕ) : ℝ) := by
      have hcast : ((total.natAbs - 1 : ℕ) : ℝ) = total.natAbs - 1 := by
        push_cast [Nat.cast_sub (show 1 ≤ total.natAbs by omega)]
        ring
      have htwo : (2 : ℝ) ≤ total.natAbs := by exact_mod_cast hleast
      rw [value_half hfinite, (ofInt_spec hexact).2, abs_saturated_rounded,
        ← saturated_rounded_natCast (show total.natAbs - 1 ≤ 2 ^ 53 by omega)]
      apply saturated_mono
      apply rounded_mono (abs_nonneg _)
      rw [abs_div, abs_two, ← Int.cast_abs, Int.abs_eq_natAbs, Int.cast_natCast, hcast]
      linarith
    have hless := roundAway_mono hshort
    rw [← Int.cast_natCast, roundAway_intCast] at hless
    omega

end Binary64

namespace Segment

/-- A segment that takes a finite time. -/
structure Moves (segment : Segment) : Prop where
  v0_isFinite : segment.v0.isFinite = true
  v1_isFinite : segment.v1.isFinite = true
  v0_nonneg : 0.0 ≤ segment.v0
  v1_nonneg : 0.0 ≤ segment.v1
  pos : 0.0 < segment.v0 ∨ 0.0 < segment.v1
  duration_isFinite : segment.duration.isFinite = true
  duration_pos : 0.0 < segment.duration

/-- A speed that moderate limits lead to. -/
def Driven (speed : Float) : Prop := Between (-613) 355 speed

def Rated (speed : Float) : Prop := Within (-613) 355 speed

theorem Rated.rest_or_driven {speed : Float} (h : Rated speed) :
    (speed == 0.0) = true ∨ Driven speed :=
  h.imp_left fun hrest => beq_iff.mpr ⟨hrest.1, rfl, by rw [hrest.2, value_zero]⟩

theorem Moves.of_rated {segment : Segment} (hv0 : Rated segment.v0) (hv1 : Rated segment.v1)
    (hdriven : Driven segment.v0 ∨ Driven segment.v1) (hcount : 0 < segment.steps.count)
    (hle : segment.steps.count ≤ 2 ^ 55) : segment.Moves := by
  have hspeeds : Between (-613) 356 (segment.v0 + segment.v1) := by
    rcases hdriven with h | h
    · exact h.add hv1.below (by norm_num) (by norm_num)
    · exact hv0.below.add_between h (by norm_num) (by norm_num)
  have hzero : ∀ speed, Rated speed → 0.0 ≤ speed := fun speed hspeed =>
    le_iff.mpr ⟨rfl, hspeed.below.isNaN, value_zero.trans_le hspeed.below.nonneg⟩
  have hpos : ∀ {a b : ℤ} {x : Float}, Between a b x → 0.0 < x := fun h =>
    value_pos_iff.mpr ⟨h.isNaN, h.pos⟩
  have hduration : Between (-355) 669 segment.duration := by
    have hmoving : ¬ segment.v0 + segment.v1 ≤ 0.0 := by
      rw [le_iff, value_zero]
      exact fun h => absurd h.2.2 (not_le.mpr hspeeds.pos)
    have hsteps := between_ofNat hcount (k := 55) (by exact_mod_cast hle) (by norm_num)
    have htwice := between_two.mul hsteps (by norm_num) (by norm_num) (by norm_num)
    unfold duration
    dsimp only
    rw [if_neg hmoving]
    exact (htwice.div hspeeds (by norm_num) (by norm_num) (by norm_num)).mono (by norm_num)
      (by norm_num)
  exact ⟨hv0.below.isFinite (by norm_num), hv1.below.isFinite (by norm_num), hzero _ hv0,
    hzero _ hv1, hdriven.imp hpos hpos, hduration.isFinite (by norm_num), hpos hduration⟩

/-- Between the first and the last of its speeds a list of segments only passes speeds with `P`. -/
structure Passes (P : Float → Prop) (segments : List Segment) : Prop where
  v1 : ∀ segment ∈ segments.dropLast, P segment.v1
  v0 : ∀ segment ∈ segments.tail, P segment.v0

variable {P : Float → Prop}

theorem Passes.behind {segment : Segment} {rest : List Segment} (h : Passes P (segment :: rest)) :
    Passes P rest where
  v1 next hnext := by
    cases rest with
    | nil => simp at hnext
    | cons first rest => exact h.v1 next (by simpa using .inr hnext)
  v0 next hnext := h.v0 next (List.mem_of_mem_tail hnext)

theorem Passes.of_mem {first next : Segment} {rest : List Segment}
    (h : Passes P (first :: next :: rest)) :
    ∀ segment ∈ first :: next :: rest, P segment.v0 ∨ P segment.v1 := by
  rw [List.forall_mem_cons]
  exact ⟨.inr (h.v1 first (by simp)), fun segment hsegment => .inl (h.v0 segment hsegment)⟩

end Segment

namespace Move

open Segment

section Join

variable {P : Float → Prop} {exit : Float} {held : Option Float} {segments : List Segment}

theorem forall_joinEmpty_v0 (hheld : ∀ speed ∈ held, P speed)
    (h : ∀ segment ∈ segments, P segment.v0) :
    ∀ segment ∈ joinEmpty exit held segments, P segment.v0 := by
  have hgetD : ∀ {held : Option Float} {speed : Float}, (∀ other ∈ held, P other) → P speed →
      P (held.getD speed) := fun {held speed} hheld hspeed => by
    cases held with
    | none => exact hspeed
    | some other => exact hheld other rfl
  fun_induction joinEmpty exit held segments with
  | case1 => exact List.forall_mem_nil _
  | case2 held segment rest v0 hempty ih =>
    rw [List.forall_mem_cons] at h
    exact ih (by simpa using hgetD hheld h.1) h.2
  | case3 held segment rest v0 hempty hrest =>
    rw [List.forall_mem_cons] at h
    exact List.forall_mem_singleton.mpr (hgetD hheld h.1)
  | case4 held segment rest v0 hempty hrest ih =>
    rw [List.forall_mem_cons] at h ⊢
    exact ⟨hgetD hheld h.1, ih (by simp) h.2⟩

theorem forall_joinEmpty_v1 (hexit : P exit) (h : ∀ segment ∈ segments, P segment.v1) :
    ∀ segment ∈ joinEmpty exit held segments, P segment.v1 := by
  fun_induction joinEmpty exit held segments with
  | case1 => exact List.forall_mem_nil _
  | case2 held segment rest v0 hempty ih => exact ih (List.forall_mem_cons.mp h).2
  | case3 held segment rest v0 hempty hrest => simpa using hexit
  | case4 held segment rest v0 hempty hrest ih =>
    rw [List.forall_mem_cons] at h ⊢
    exact ⟨h.1, ih h.2⟩

theorem forall_joinEmpty (hexit : P exit) (h : ∀ segment ∈ segments, P segment.v0 ∧ P segment.v1) :
    ∀ segment ∈ joinEmpty exit none segments, P segment.v0 ∧ P segment.v1 :=
  fun segment hsegment =>
    ⟨forall_joinEmpty_v0 (by simp) (fun other hother => (h other hother).1) segment hsegment,
      forall_joinEmpty_v1 hexit (fun other hother => (h other hother).2) segment hsegment⟩

theorem passes_joinEmpty (h : Passes P segments) : Passes P (joinEmpty exit held segments) := by
  fun_induction joinEmpty exit held segments with
  | case1 => exact h
  | case2 held segment rest v0 hempty ih => exact ih h.behind
  | case3 held segment rest v0 hempty hrest => exact ⟨by simp, by simp⟩
  | case4 held segment rest v0 hempty hrest ih =>
    refine ⟨fun next hnext => ?_, forall_joinEmpty_v0 (by simp) h.v0⟩
    by_cases hnone : joinEmpty exit none rest = []
    · simp [hnone] at hnext
    · rw [List.dropLast_cons_of_ne_nil hnone, List.mem_cons] at hnext
      rcases hnext with rfl | hnext
      · have hrest : rest ≠ [] := fun hnil => hnone (by rw [hnil, joinEmpty])
        exact h.v1 segment (by simp [List.dropLast_cons_of_ne_nil hrest])
      · exact (ih h.behind).v1 next hnext

end Join

theorem not_rest_of_segments_eq {move : Move} {exit : Float} {only : Segment}
    (h : move.segments exit = [only]) : ¬ ((only.v0 == 0.0) = true ∧ (only.v1 == 0.0) = true) := by
  unfold segments at h
  dsimp only at h
  split at h
  · split at h
    · simp [rampUpDown] at h
    · next hrest =>
      obtain rfl := List.singleton_inj.mp h
      simpa using hrest
  · next hseveral => exact absurd h (hseveral only)

theorem steps_ne_zero_of_mem_segments {move : Move} {exit : Float} (h : leastSteps ≤ move.steps.count)
    (hsteps : ∀ axis, (move.steps axis).natAbs ≤ 2 ^ 54) :
    ∀ segment ∈ move.segments exit, segment.steps ≠ .zero := by
  intro segment hsegment
  rcases move.segments_cases exit with hjoined | ⟨hramps, -⟩
  · rw [hjoined] at hsegment
    have hmoves := isZero_of_mem_joinEmpty segment hsegment
    intro hzero
    rw [(Steps.isZero_iff _).mpr hzero] at hmoves
    contradiction
  · obtain ⟨hup, hdown⟩ := natAbs_half h (hsteps move.steps.definingAxis)
    rw [hramps] at hsegment
    simp only [rampUpDown, List.mem_cons, List.not_mem_nil, or_false] at hsegment
    rcases hsegment with rfl | rfl
    · intro hzero
      have haxis := congrArg (fun steps : Steps => steps move.steps.definingAxis) hzero
      simp only [halfSteps, Register.get_map, Steps.get_zero] at haxis
      omega
    · intro hzero
      have haxis := congrArg (fun steps : Steps => steps move.steps.definingAxis) hzero
      simp only [Steps.get_sub, halfSteps, Register.get_map, Steps.get_zero] at haxis
      omega

theorem Steady.speeds_nonneg {move : Move} (h : move.Steady) {exit : Float}
    (hexit : Unsigned exit) :
    ∀ segment ∈ move.segments exit, 0 ≤ value segment.v0 ∧ 0 ≤ value segment.v1 := by
  have hgreater : ∀ x y : Float, 0 ≤ value x → 0 ≤ value y → 0 ≤ value (greater x y) := by
    intro x y hx hy
    unfold greater
    split <;> assumption
  have htop : 0 ≤ value (greater (greater move.cruise move.entry) exit) :=
    hgreater _ _ (hgreater _ _ h.cruise.nonneg h.entry.nonneg) hexit.nonneg
  have hpeak : 0 ≤ value (Phase.meetingSpeed move.entry exit move.acceleration move.distance) :=
    value_sqrt_nonneg _
  have hturn : 0 ≤ value (lesser (Float.sqrt (move.acceleration * move.distance)) move.cruise) := by
    rcases lesser_cases (Float.sqrt (move.acceleration * move.distance)) move.cruise with
      ⟨hsame, -⟩ | ⟨hsame, -⟩
    · rw [hsame]
      exact value_sqrt_nonneg _
    · rw [hsame]
      exact h.cruise.nonneg
  have hstretches : ∀ segment ∈ move.stretches .zero (move.profile exit),
      0 ≤ value segment.v0 ∧ 0 ≤ value segment.v1 := by
    rw [profile]
    rcases Phase.trapezoid_cases move.entry exit move.cruise move.acceleration move.distance with
      ⟨-, hphases⟩ | ⟨-, -, hphases⟩ | ⟨-, -, hphases⟩ <;> rw [hphases] <;>
      simp [Move.stretches, htop, hpeak, h.entry.nonneg, hexit.nonneg]
  rcases move.segments_cases exit with hjoined | ⟨hramps, -⟩
  · rw [hjoined]
    exact forall_joinEmpty (P := fun speed => 0 ≤ value speed) hexit.nonneg hstretches
  · rw [hramps]
    simp [rampUpDown, hturn, value_zero]

structure Moderate (move : Move) : Prop where
  distance : Between 0 54 move.distance
  cruise : Between (-613) 354 move.cruise
  acceleration : Between (-513) 513 move.acceleration
  entryCap : Within (-613) 354 move.entryCap
  entry : Within (-613) 354 move.entry

section Speeds

variable {move : Move} {exit : Float} (h : move.Moderate) (hexit : Within (-613) 354 exit)

include h

theorem Moderate.gain : Between (-512) 568 (2.0 * move.acceleration * move.distance) :=
  ((between_two.mul h.acceleration (by norm_num) (by norm_num) (by norm_num)).mul h.distance
    (by norm_num) (by norm_num) (by norm_num)).mono (by norm_num) (by norm_num)

theorem Moderate.reachableFrom {speed : Float} (hspeed : Within (-613) 354 speed) :
    Between (-256) 355 (move.reachableFrom speed) := by
  have hsquare : Below 708 (speed * speed) :=
    hspeed.below.mul_self (by norm_num) (by norm_num) (by norm_num)
  have hgain : Between (-512) 708 (2.0 * move.acceleration * move.distance) :=
    h.gain.mono (by norm_num) (by norm_num)
  exact (hsquare.add_between hgain (by norm_num) (by norm_num)).sqrt (by norm_num) (by norm_num)
    (by norm_num) (by norm_num) (by norm_num)

theorem Moderate.peak :
    Driven (lesser (Float.sqrt (move.acceleration * move.distance)) move.cruise) := by
  have hroot : Between (-257) 284 (Float.sqrt (move.acceleration * move.distance)) :=
    (h.acceleration.mul h.distance (by norm_num) (by norm_num) (by norm_num)).sqrt (by norm_num)
      (by norm_num) (by norm_num) (by norm_num) (by norm_num)
  have hlow : Between (-613) 284 (Float.sqrt (move.acceleration * move.distance)) :=
    hroot.mono (by norm_num) (by norm_num)
  exact (hlow.lesser h.cruise).2.mono (by norm_num) (by norm_num)

include hexit

theorem Moderate.meetingSpeed :
    Driven (Phase.meetingSpeed move.entry exit move.acceleration move.distance) := by
  have hentry : Below 708 (move.entry * move.entry) :=
    h.entry.below.mul_self (by norm_num) (by norm_num) (by norm_num)
  have hexit : Below 708 (exit * exit) :=
    hexit.below.mul_self (by norm_num) (by norm_num) (by norm_num)
  have hgain : Between (-512) 708 (2.0 * move.acceleration * move.distance) :=
    h.gain.mono (by norm_num) (by norm_num)
  have hsquares := (hgain.add hentry (by norm_num) (by norm_num)).add
    (hexit.mono (by norm_num)) (by norm_num) (by norm_num)
  have hroot : Between (-257) 355 (Phase.meetingSpeed move.entry exit move.acceleration move.distance) :=
    (hsquares.div between_two (by norm_num) (by norm_num) (by norm_num)).sqrt (by norm_num)
      (by norm_num) (by norm_num) (by norm_num) (by norm_num)
  exact hroot.mono (by norm_num) (by norm_num)

theorem Moderate.top : Driven (greater (greater move.cruise move.entry) exit) :=
  ((h.cruise.greater h.entry.below).greater hexit.below).mono (by norm_num) (by norm_num)

theorem Moderate.stretches :
    Passes Driven (move.stretches .zero (move.profile exit)) ∧
      ∀ segment ∈ move.stretches .zero (move.profile exit), Rated segment.v0 ∧ Rated segment.v1 := by
  have htop := h.top hexit
  have hpeak := h.meetingSpeed hexit
  have hentry : Rated move.entry := h.entry.mono (by norm_num) (by norm_num)
  have hend : Rated exit := hexit.mono (by norm_num) (by norm_num)
  have hdriven : ∀ speed, Driven speed → Rated speed := fun speed hspeed => .inr hspeed
  rw [profile]
  rcases Phase.trapezoid_cases move.entry exit move.cruise move.acceleration move.distance with
    ⟨-, hthree⟩ | ⟨-, -, hone⟩ | ⟨-, -, htwo⟩
  · rw [hthree]
    refine ⟨⟨?_, ?_⟩, ?_⟩ <;> simp [Move.stretches, htop, hdriven, hentry, hend]
  · rw [hone]
    refine ⟨⟨?_, ?_⟩, ?_⟩ <;> simp [Move.stretches, hentry, hend]
  · rw [htwo]
    refine ⟨⟨?_, ?_⟩, ?_⟩ <;> simp [Move.stretches, hpeak, hdriven, hentry, hend]

theorem Moderate.segments_driven : ∀ segment ∈ move.segments exit,
    Rated segment.v0 ∧ Rated segment.v1 ∧ (Driven segment.v0 ∨ Driven segment.v1) := by
  obtain ⟨hpasses, hspeeds⟩ := h.stretches hexit
  have hpeak := h.peak
  have hend : Rated exit := hexit.mono (by norm_num) (by norm_num)
  rcases move.segments_cases exit with hjoined | ⟨hramps, -⟩
  · have hrated : ∀ segment ∈ move.segments exit, Rated segment.v0 ∧ Rated segment.v1 := by
      rw [hjoined]
      exact forall_joinEmpty hend hspeeds
    have hbetween : Passes Driven (move.segments exit) := hjoined ▸ passes_joinEmpty hpasses
    intro segment hsegment
    refine ⟨(hrated segment hsegment).1, (hrated segment hsegment).2, ?_⟩
    rcases hsegments : move.segments exit with _ | ⟨first, _ | ⟨next, rest⟩⟩
    · rw [hsegments] at hsegment
      contradiction
    · -- Both speeds of a single segment are rest or driven, and not both are rest.
      have hmoves := not_rest_of_segments_eq hsegments
      rw [hsegments, List.mem_singleton] at hsegment
      subst hsegment
      obtain ⟨hfirst, hlast⟩ := hrated segment (by simp [hsegments])
      rcases hfirst.rest_or_driven with hrest | hdriven
      · exact .inr (hlast.rest_or_driven.resolve_left fun hlater => hmoves ⟨hrest, hlater⟩)
      · exact .inl hdriven
    · rw [hsegments] at hsegment hbetween
      exact hbetween.of_mem segment hsegment
  · have hzero : Rated 0.0 := within_zero
    have hturn : Rated (lesser (Float.sqrt (move.acceleration * move.distance)) move.cruise) :=
      .inr hpeak
    rw [hramps]
    simp [rampUpDown, hpeak, hzero, hturn]

end Speeds

section Counts

variable {move : Move}

theorem natAbs_le_of_mem_stretches (hsteps : ∀ axis, (move.steps axis).natAbs ≤ 2 ^ 54)
    {phases : List Phase}
    (hphases : ∀ phase ∈ phases, ∀ axis, (move.stepsAt phase.endsAt axis).natAbs ≤ 2 ^ 54)
    {made : Steps} (hmade : ∀ axis, (made axis).natAbs ≤ 2 ^ 54) (axis : Axis) :
    ∀ segment ∈ move.stretches made phases, (segment.steps axis).natAbs ≤ 2 ^ 55 := by
  fun_induction stretches move made phases with
  | case1 => exact List.forall_mem_nil _
  | case2 made phase =>
    have hall := hsteps axis
    have hpart := hmade axis
    rw [List.forall_mem_singleton, Steps.get_sub]
    omega
  | case3 made phase rest hrest reached ih =>
    rw [List.forall_mem_cons] at hphases ⊢
    refine ⟨?_, ih hphases.2 hphases.1⟩
    have hreached : (reached axis).natAbs ≤ 2 ^ 54 := hphases.1 axis
    have hpart := hmade axis
    rw [Steps.get_sub]
    omega

theorem Admissible.count_le (h : move.Admissible) {exit : Float} (hexit : Unsigned exit) :
    ∀ segment ∈ move.segments exit, segment.steps.count ≤ 2 ^ 55 := by
  intro segment hsegment
  generalize haxis : segment.steps.definingAxis = axis
  rw [Steps.count, haxis]
  have hall := h.natAbs_le axis
  have hhalf := natAbs_half_le hall
  rcases steps_of_mem_segments hsegment with ⟨stretch, hstretch, hsame⟩ | hup | hdown
  · rw [← hsame]
    exact natAbs_le_of_mem_stretches h.natAbs_le (h.inBounds hexit).reached
      (by simp) axis stretch hstretch
  · simp only [hup, halfSteps, Register.get_map]
    omega
  · simp only [hdown, halfSteps, Register.get_map, Steps.get_sub]
    omega

/-- Under moderate limits every segment of a move takes a finite time. -/
theorem Moderate.moves (h : move.Moderate) (hadmissible : move.Admissible)
    (hleast : leastSteps ≤ move.steps.count) {exit : Float} (hexit : Within (-613) 354 exit)
    (hunsigned : Unsigned exit) : ∀ segment ∈ move.segments exit, segment.Moves := by
  intro segment hsegment
  obtain ⟨hv0, hv1, hdriven⟩ := h.segments_driven hexit segment hsegment
  have hsteps := steps_ne_zero_of_mem_segments hleast hadmissible.natAbs_le segment hsegment
  exact .of_rated hv0 hv1 hdriven (Steps.count_pos hsteps)
    (hadmissible.count_le hunsigned segment hsegment)

end Counts

end Move
end StepMotion
