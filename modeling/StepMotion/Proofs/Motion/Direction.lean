import StepMotion.Proofs.Binary64.Fractions
import StepMotion.Proofs.Binary64.Magnitude
import StepMotion.Proofs.Motion.Braking
import StepMotion.Proofs.Motion.Shares

/-! The direction of a move. Both ramps of a move lead from its start towards its end, on every axis
whose steps are counted exactly. So does what lies between them, unless the ends of the two ramps
come out in the wrong order; then it leads back, by no more than one step. -/
namespace StepMotion

open Binary64

namespace Binary64

variable {x : Float}

theorem value_add_self (hfinite : x.isFinite = true) (hnonneg : 0 ≤ value x)
    (hsmall : 2 * value x ≤ limit) : value (x + x) = 2 * value x := by
  rw [(nearest_add hfinite hfinite).value, ← two_mul]
  rcases hnonneg.eq_or_lt with hzero | hpos
  · rw [← hzero, mul_zero, rounded_zero, saturated_of_abs_le (by rw [abs_zero]; exact limit_pos.le)]
  · obtain ⟨m, e, -, hfits, hvalue⟩ := exists_fits hfinite hpos
    have hlow := hfits.low
    have hdouble : 2 * value x = (m : ℤ) * 2 ^ (e + 1) := by
      rw [hvalue, two_zpow_add, zpow_one, Int.cast_natCast]
      ring
    have hexact : rounded (2 * value x) = 2 * value x := by
      rw [hdouble]
      exact rounded_of_bits (by exact_mod_cast hfits.lt) (by omega)
    rw [hexact, saturated_of_abs_le (by rwa [abs_of_pos (by linarith)])]

end Binary64

namespace Segment

variable {axis : Axis}

theorem getLast_places (axis : Axis) (start : ℤ) (segments : List Segment) :
    (start :: places axis start segments).getLast? = some (start + total segments axis) := by
  induction segments generalizing start with
  | nil => simp [places]
  | cons segment rest ih =>
    rw [places, List.getLast?_cons_cons, ih, total_cons, Int.add_assoc]

theorem isChain_places {R : ℤ → ℤ → Prop} {segments : List Segment}
    (h : ∀ segment ∈ segments, ∀ place, R place (place + segment.steps axis)) (start : ℤ) :
    (start :: places axis start segments).IsChain R := by
  induction segments generalizing start with
  | nil => exact .singleton start
  | cons segment rest ih =>
    rw [List.forall_mem_cons] at h
    exact .cons_cons (h.1 start) (ih h.2 _)

end Segment

namespace Move

open Segment

variable {move : Move} {exit : Float}

/-- On an axis, no segment of a move leads back: its places go from its start to its end. -/
structure GoesOn (move : Move) (exit : Float) (axis : Axis) : Prop where
  along : ∀ segment ∈ move.segments exit,
    segment.steps axis = 0 ∨ (segment.steps axis).sign = (move.steps axis).sign
  rising : 0 ≤ move.steps axis → (0 :: places axis 0 (move.segments exit)).Pairwise (· ≤ ·)
  falling : move.steps axis ≤ 0 → (0 :: places axis 0 (move.segments exit)).Pairwise (· ≥ ·)
  ends : (0 :: places axis 0 (move.segments exit)).getLast? = some (move.steps axis)

theorem goesOn_of_along {axis : Axis}
    (h : ∀ segment ∈ move.segments exit, Along (move.steps axis) (segment.steps axis)) :
    move.GoesOn exit axis where
  along segment hsegment := along_iff.mp (h segment hsegment)
  rising hpos := by
    refine List.isChain_iff_pairwise.mp (isChain_places (fun segment hsegment place => ?_) 0)
    have hstep := (h segment hsegment).1 hpos
    omega
  falling hneg := by
    refine List.isChain_iff_pairwise.mp (isChain_places (fun segment hsegment place => ?_) 0)
    have hstep := (h segment hsegment).2 hneg
    omega
  ends := by rw [getLast_places, total_segments, Int.zero_add]

def InOrder (move : Move) (exit : Float) : Prop :=
  (move.profile exit).IsChain fun phase next => ¬ next.endsAt < phase.endsAt

instance (move : Move) (exit : Float) : Decidable (move.InOrder exit) :=
  inferInstanceAs (Decidable ((move.profile exit).IsChain _))

/-- Two ramps with the cruise speed between them, the first as long as `rise` and the second as
`fall`. -/
structure Cruises (move : Move) (exit rise fall : Float) : Prop where
  fits : rise + fall ≤ move.distance
  rise_nonneg : 0 ≤ value rise
  fall_nonneg : 0 ≤ value fall
  profile : ∃ top, move.profile exit =
    [⟨rise, move.entry, top⟩, ⟨move.distance - fall, top, top⟩, ⟨move.distance, top, exit⟩]

theorem Admissible.distance (h : move.Admissible) (hmoves : move.steps ≠ .zero) :
    Between 0 54 move.distance := by
  have hcount : ((move.steps.count : ℕ) : ℝ) ≤ 2 ^ (54 : ℤ) := by
    exact_mod_cast h.natAbs_le move.steps.definingAxis
  rw [h.steady.distance]
  exact between_ofNat (Steps.count_pos hmoves) hcount (by norm_num)

section Cruise

variable {rise fall : Float} (h : move.Cruises exit rise fall) (hdistance : Between 0 54 move.distance)

include h

theorem Cruises.le : value rise ≤ value move.distance ∧ value fall ≤ value move.distance := by
  obtain ⟨hsum, -, hle⟩ := le_iff.mp h.fits
  obtain ⟨hrise, hfall⟩ := value_le_add h.rise_nonneg h.fall_nonneg hsum
  exact ⟨hrise.trans hle, hfall.trans hle⟩

theorem Cruises.brake_mem :
    0 ≤ value (move.distance - fall) ∧ value (move.distance - fall) ≤ value move.distance :=
  value_sub_of_le h.fall_nonneg h.le.2

include hdistance

theorem Cruises.isFinite : rise.isFinite = true ∧ fall.isFinite = true := by
  obtain ⟨hrise, hfall⟩ := isNaN_of_add (le_iff.mp h.fits).1
  obtain ⟨hriseLe, hfallLe⟩ := h.le
  have hlimit : value move.distance < limit :=
    hdistance.le_high.trans_lt (zpow_lt_zpow_right₀ one_lt_two (by norm_num))
  rw [isFinite_iff, isFinite_iff, abs_of_nonneg h.rise_nonneg, abs_of_nonneg h.fall_nonneg]
  exact ⟨⟨hrise, hriseLe.trans_lt hlimit⟩, ⟨hfall, hfallLe.trans_lt hlimit⟩⟩

theorem Cruises.nearest_brake :
    Nearest (move.distance - fall) (value move.distance - value fall) :=
  nearest_sub (hdistance.isFinite (by norm_num)) (h.isFinite hdistance).2

theorem Cruises.inOrder_iff :
    move.InOrder exit ↔ value rise ≤ value (move.distance - fall) := by
  obtain ⟨top, hprofile⟩ := h.profile
  have hrise := (isFinite_iff.mp (h.isFinite hdistance).1).1
  have hbrake := (h.nearest_brake hdistance).isNaN
  have hlast : ¬ move.distance < move.distance - fall := by
    rw [lt_iff]
    exact fun hlt => absurd hlt.2.2 (not_lt.mpr h.brake_mem.2)
  have hfirst : ¬ move.distance - fall < rise ↔ value rise ≤ value (move.distance - fall) := by
    rw [lt_iff]
    exact ⟨fun hnot => not_lt.mp fun hlt => hnot ⟨hbrake, hrise, hlt⟩,
      fun hle hlt => absurd hlt.2.2 (not_lt.mpr hle)⟩
  unfold InOrder
  rw [hprofile]
  simp [List.isChain_cons_cons, hlast, hfirst]

theorem Cruises.sub_le {k : ℤ} (hk : 0 ≤ k) (hlow : 2 ^ k ≤ value move.distance)
    (hhigh : value move.distance < 2 ^ (k + 1)) :
    value rise - value (move.distance - fall) ≤ 3 * 2 ^ (k - 53) := by
  have hsize : k ≤ 54 :=
    (zpow_le_zpow_iff_right₀ one_lt_two).mp (hlow.trans hdistance.le_high)
  obtain ⟨hrise, hfall⟩ := h.isFinite hdistance
  obtain ⟨hriseLe, hfallLe⟩ := h.le
  have hriseNonneg := h.rise_nonneg
  have hfallNonneg := h.fall_nonneg
  have hpower : (2 : ℝ) ^ (k + 2) = 2 * 2 ^ (k + 1) := by
    rw [show k + 2 = (k + 1) + 1 by ring, two_zpow_add _ 1, zpow_one, mul_comm]
  have hsum := abs_sub_value_le (nearest_add hrise hfall).value (e := k - 51) (by omega) (by omega)
    (by
      rw [show k - 51 + 53 = k + 2 by ring, abs_of_nonneg (by linarith), hpower]
      linarith)
  have hbrake := abs_sub_value_le (h.nearest_brake hdistance).value (e := k - 52) (by omega)
    (by omega)
    (by
      rw [show k - 52 + 53 = k + 1 by ring, abs_of_nonneg (by linarith)]
      linarith)
  have hfits := (le_iff.mp h.fits).2.2
  have hunits : (2 : ℝ) ^ (k - 51) = 4 * 2 ^ (k - 53) ∧ (2 : ℝ) ^ (k - 52) = 2 * 2 ^ (k - 53) := by
    rw [show k - 51 = 2 + (k - 53) by ring, show k - 52 = 1 + (k - 53) by ring, two_zpow_add,
      two_zpow_add]
    norm_num
  rw [hunits.1] at hsum
  rw [hunits.2] at hbrake
  linarith [(abs_le.mp hsum).2, (abs_le.mp hbrake).2]

theorem Cruises.abs_fraction_sub_le (hlate : value (move.distance - fall) ≤ value rise) :
    |value (rise / move.distance) - value ((move.distance - fall) / move.distance)| ≤
      5 * 2 ^ (-53 : ℤ) := by
  have hpos : 0 < value move.distance := hdistance.pos
  have hfinite := (hdistance.isFinite (by norm_num))
  obtain ⟨hrise, hfall⟩ := h.isFinite hdistance
  have hriseLe := h.le.1
  obtain ⟨hbrakeNonneg, hbrakeLe⟩ := h.brake_mem
  have hbrake : (move.distance - fall).isFinite = true := by
    rw [isFinite_iff, abs_of_nonneg hbrakeNonneg]
    refine ⟨(h.nearest_brake hdistance).isNaN, hbrakeLe.trans_lt ?_⟩
    exact (le_abs_self _).trans_lt (isFinite_iff.mp hfinite).2
  have hfraction : ∀ x : Float, x.isFinite = true → 0 ≤ value x → value x ≤ value move.distance →
      |value x / value move.distance - value (x / move.distance)| ≤ 2 ^ (-53 : ℤ) := by
    intro x hx hnonneg hle
    have hpart : |value x / value move.distance| < 2 ^ ((-52 : ℤ) + 53) := by
      rw [abs_of_nonneg (div_nonneg hnonneg hpos.le)]
      exact ((div_le_one hpos).mpr hle).trans_lt (by norm_num)
    have herror := abs_sub_value_le (nearest_div hx hfinite hpos.ne').value (e := -52)
      (by norm_num) (by norm_num) hpart
    exact herror.trans (by norm_num)
  have hriseError := hfraction rise hrise h.rise_nonneg hriseLe
  have hbrakeError := hfraction _ hbrake hbrakeNonneg hbrakeLe
  have hgap : value rise / value move.distance -
      value (move.distance - fall) / value move.distance ≤ 3 * 2 ^ (-53 : ℤ) := by
    have hk : 0 ≤ Int.log 2 (value move.distance) :=
      (Int.zpow_le_iff_le_log one_lt_two hpos).mp (by simpa using hdistance.low_le)
    have hlow := Int.zpow_log_le_self (b := 2) one_lt_two hpos
    have hhigh := Int.lt_zpow_succ_log_self (b := 2) one_lt_two (value move.distance)
    generalize Int.log 2 (value move.distance) = k at hk hlow hhigh
    rw [Nat.cast_ofNat] at hlow hhigh
    rw [← sub_div, div_le_iff₀ hpos]
    calc
      _ ≤ 3 * 2 ^ (k - 53) := h.sub_le hdistance hk hlow hhigh
      _ = 3 * 2 ^ (-53 : ℤ) * 2 ^ k := by rw [sub_eq_neg_add, two_zpow_add, mul_assoc]
      _ ≤ _ := by gcongr
  have hmono := value_div_mono hbrakeNonneg hlate hriseLe hdistance.unsigned hfinite hpos
  rw [abs_of_nonneg (by linarith)]
  linarith [(abs_le.mp hriseError).1, (abs_le.mp hbrakeError).2]

end Cruise

section Profile

variable (h : move.Steady) (hexit : Unsigned exit) (hdistance : Between 0 54 move.distance)

include h hexit hdistance

theorem Steady.profile_cases :
    (∃ only, move.profile exit = [only] ∧ only.endsAt = move.distance) ∨
      (∃ first last, move.profile exit = [first, last] ∧ last.endsAt = move.distance ∧
        0 ≤ value first.endsAt ∧ value first.endsAt ≤ value move.distance) ∨
      let top := greater (greater move.cruise move.entry) exit
      move.Cruises exit (Phase.rampDistance move.acceleration move.entry top)
        (Phase.rampDistance move.acceleration exit top) := by
  have hends : ∀ phase ∈ move.profile exit,
      0 ≤ value phase.endsAt ∧ value phase.endsAt ≤ value move.distance := fun phase hphase =>
    Phase.endsAt_mem_of_mem_trapezoid h.entry.nonneg hexit.nonneg h.acceleration
      (isFinite_iff.mp (hdistance.isFinite (by norm_num))).1 hdistance.unsigned.nonneg hphase
  rcases Phase.trapezoid_cases move.entry exit move.cruise move.acceleration move.distance with
    ⟨hfits, hthree⟩ | ⟨-, -, hone⟩ | ⟨-, -, htwo⟩
  · rw [← profile] at hthree
    have hrise := hends _ (hthree ▸ List.mem_cons_self)
    have hfall : 0 ≤ value (Phase.rampDistance move.acceleration exit
        (greater (greater move.cruise move.entry) exit)) :=
      Phase.rampDistance_nonneg hexit.nonneg le_greater_right h.acceleration
    exact .inr (.inr ⟨hfits, hrise.1, hfall, _, hthree⟩)
  · exact .inl ⟨_, hone, rfl⟩
  · rw [← profile] at htwo
    exact .inr (.inl ⟨_, _, htwo, rfl, hends _ (htwo ▸ List.mem_cons_self)⟩)

/-- A profile that does not reach the cruise speed is in order. With equal speeds at both ends any
is: both ramps are equally long, and do not overlap. -/
theorem Steady.inOrder (hplain : (move.profile exit).length < 3 ∨ move.entry = exit) :
    move.InOrder exit := by
  rcases h.profile_cases hexit hdistance with
    ⟨only, honly, -⟩ | ⟨first, last, htwo, hlast, -, hle⟩ | hcruises
  · rw [InOrder, honly]
    exact .singleton only
  · rw [InOrder, htwo, List.isChain_cons_cons, hlast, lt_iff]
    exact ⟨fun hlt => absurd hlt.2.2 (not_lt.mpr hle), .singleton last⟩
  · have hsame : move.entry = exit := by
      obtain ⟨top, hthree⟩ := hcruises.profile
      exact hplain.resolve_left (by simp [hthree])
    dsimp only at hcruises
    rw [hsame] at hcruises
    rw [hcruises.inOrder_iff hdistance]
    generalize Phase.rampDistance _ _ _ = ramp at hcruises ⊢
    obtain ⟨hfinite, -⟩ := hcruises.isFinite hdistance
    have hnonneg := hcruises.rise_nonneg
    have hlimit : 2 * (2 : ℝ) ^ (54 : ℤ) ≤ limit := by
      calc
        _ = (2 : ℝ) ^ (55 : ℤ) := by norm_num
        _ ≤ limit := two_zpow_le (by norm_num)
    have hdouble := value_add_self hfinite hnonneg
      (by linarith [hcruises.le.1, hdistance.le_high])
    have hfits := (le_iff.mp hcruises.fits).2.2
    rw [hdouble] at hfits
    calc
      value ramp = saturated (rounded (value ramp)) := by
        rw [rounded_value, saturated_of_abs_le (abs_value_le ramp)]
      _ ≤ saturated (rounded (value move.distance - value ramp)) :=
        saturated_mono (rounded_mono hnonneg (by linarith))
      _ = value (move.distance - ramp) := (hcruises.nearest_brake hdistance).value.symm

variable {axis : Axis} (hsteps : (move.steps axis).natAbs ≤ 2 ^ 53)

include hsteps

theorem Steady.along_or_cruises {segment : Segment} (hsegment : segment ∈ move.segments exit) :
    Along (move.steps axis) (segment.steps axis) ∨
      ∃ rise fall, move.Cruises exit rise fall ∧ segment.steps axis =
        move.stepsAt (move.distance - fall) axis - move.stepsAt rise axis := by
  have hplace : ∀ distance : Float, 0 ≤ value distance → value distance ≤ value move.distance →
      move.stepsAt distance axis ∈ Set.uIcc 0 (move.steps axis) :=
    fun distance hlow hhigh => stepsAt_mem hdistance.unsigned hsteps hlow hhigh
  have hall : Along (move.steps axis) (move.steps axis) := along_of_mem Set.right_mem_uIcc
  have hhalf : halfSteps move.steps axis ∈ Set.uIcc 0 (move.steps axis) := by
    simp only [halfSteps, Register.get_map]
    exact half_mem hsteps
  rcases steps_of_mem_segments hsegment with ⟨stretch, hstretch, hsame⟩ | hup | hdown
  · rw [← hsame]
    rcases h.profile_cases hexit hdistance with
      ⟨only, honly, -⟩ | ⟨first, last, htwo, -, hlow, hhigh⟩ | hcruises
    · rw [honly] at hstretch
      simp only [stretches, List.mem_singleton] at hstretch
      subst hstretch
      exact .inl (by simpa using hall)
    · rw [htwo] at hstretch
      simp only [stretches, List.mem_cons, List.not_mem_nil, or_false] at hstretch
      have hmem := hplace _ hlow hhigh
      rcases hstretch with rfl | rfl
      · exact .inl (by simpa using along_of_mem hmem)
      · exact .inl (by simpa using along_sub_of_mem hmem)
    · obtain ⟨top, hthree⟩ := hcruises.profile
      rw [hthree] at hstretch
      simp only [stretches, List.mem_cons, List.not_mem_nil, or_false] at hstretch
      rcases hstretch with rfl | rfl | rfl
      · have hmem := hplace _ hcruises.rise_nonneg hcruises.le.1
        exact .inl (by simpa using along_of_mem hmem)
      · exact .inr ⟨_, _, hcruises, Steps.get_sub _ _ axis⟩
      · have hmem := hplace _ hcruises.brake_mem.1 hcruises.brake_mem.2
        exact .inl (by simpa using along_sub_of_mem hmem)
  · rw [hup]
    exact .inl (along_of_mem hhalf)
  · rw [hdown, Steps.get_sub]
    exact .inl (along_sub_of_mem hhalf)

theorem Steady.along_of_inOrder (horder : move.InOrder exit) {segment : Segment}
    (hsegment : segment ∈ move.segments exit) : Along (move.steps axis) (segment.steps axis) := by
  rcases h.along_or_cruises hexit hdistance hsteps hsegment with halong | ⟨rise, fall, hcruises, hback⟩
  · exact halong
  · have hle := (hcruises.inOrder_iff hdistance).mp horder
    have hpos : 0 < value move.distance := hdistance.pos
    rw [hback]
    simp only [stepsAt, Register.get_map]
    exact along_share_sub hsteps
      (value_div_nonneg hcruises.rise_nonneg hdistance.unsigned)
      (value_div_mono hcruises.rise_nonneg hle hcruises.brake_mem.2 hdistance.unsigned
        (hdistance.isFinite (by norm_num)) hpos)
      (value_div_le_one hcruises.brake_mem.1 hdistance.unsigned hcruises.brake_mem.2)

omit hsteps in
/-- At most one step of a segment leads back, whatever its phases are. -/
theorem Steady.along_or_one_back (hsteps : (move.steps axis).natAbs ≤ 2 ^ 50) {segment : Segment}
    (hsegment : segment ∈ move.segments exit) :
    Along (move.steps axis) (segment.steps axis) ∨ segment.steps axis = -(move.steps axis).sign := by
  have hexact : (move.steps axis).natAbs ≤ 2 ^ 53 := hsteps.trans (by norm_num)
  rcases h.along_or_cruises hexit hdistance hexact hsegment with halong | ⟨rise, fall, hcruises, hback⟩
  · exact .inl halong
  rcases le_total (value rise) (value (move.distance - fall)) with hle | hlate
  · have horder := (hcruises.inOrder_iff hdistance).mpr hle
    exact .inl (h.along_of_inOrder hexit hdistance hexact horder hsegment)
  · have hfraction : ∀ place : Float, 0 ≤ value place → value place ≤ value move.distance →
        0 ≤ value (place / move.distance) ∧ value (place / move.distance) ≤ 1 :=
      fun place hlow hhigh => ⟨value_div_nonneg hlow hdistance.unsigned,
        value_div_le_one hlow hdistance.unsigned hhigh⟩
    have hclose : |share (move.steps axis) (rise / move.distance) -
        share (move.steps axis) ((move.distance - fall) / move.distance)| ≤ 1 :=
      abs_share_sub_le hsteps (hfraction _ hcruises.rise_nonneg hcruises.le.1)
        (hfraction _ hcruises.brake_mem.1 hcruises.brake_mem.2)
        (hcruises.abs_fraction_sub_le hdistance hlate)
    have hstart := stepsAt_mem hdistance.unsigned hexact hcruises.rise_nonneg hcruises.le.1
    have hend :=
      stepsAt_mem hdistance.unsigned hexact hcruises.brake_mem.1 hcruises.brake_mem.2
    have hsame : move.stepsAt rise axis = share (move.steps axis) (rise / move.distance) ∧
        move.stepsAt (move.distance - fall) axis =
          share (move.steps axis) ((move.distance - fall) / move.distance) := by
      simp only [stepsAt, Register.get_map, share, and_self]
    rw [← hsame.1, ← hsame.2, abs_sub_comm] at hclose
    rw [hback]
    refine along_or_eq_neg_sign hclose fun hzero => ?_
    rw [hzero, Set.uIcc_self, Set.mem_singleton_iff] at hstart hend
    rw [hstart, hend, sub_zero]

end Profile

end Move
end StepMotion
