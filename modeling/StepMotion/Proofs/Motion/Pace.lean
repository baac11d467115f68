import StepMotion.Proofs.Binary64.Fractions
import StepMotion.Proofs.Binary64.Magnitude
import StepMotion.Proofs.Motion.Direction

/-! The pace of a move: how the steps of every axis compare with those of the defining axis in each
of its segments. A part of the way never is more steps of an axis than of the defining one; but a
segment is the difference of two parts, each rounded for every axis on its own, and may be a step
more. -/
namespace StepMotion

open Binary64

namespace Binary64

section Counting

variable {x y : Float}

theorem abs_nearestInt64_mono (hxy : |value x| ≤ |value y|) (hy : |value y| ≤ 2 ^ (54 : ℤ)) :
    |nearestInt64 x| ≤ |nearestInt64 y| := by
  rw [abs_nearestInt64 (hxy.trans hy), abs_nearestInt64 hy]
  exact roundAway_mono hxy

theorem abs_sub_abs_nearestInt64 (h : |value x| ≤ 2 ^ (54 : ℤ)) :
    |(|value x|) - (|nearestInt64 x| : ℤ)| ≤ 1 / 2 := by
  rw [abs_nearestInt64 h, roundAway_of_nonneg (abs_nonneg _)]
  exact abs_sub_round _

end Counting

section Parts

theorem natAbs_le_of_abs_le {n : ℤ} {k : ℕ} (hk : k ≤ 53) (h : |n| ≤ 2 ^ k) :
    n.natAbs ≤ 2 ^ 53 := by
  have hpower : (2 : ℤ) ^ k ≤ 2 ^ 53 := pow_le_pow_right₀ one_le_two hk
  rw [Int.abs_eq_natAbs] at h
  omega

/-- A way to take the part `x` of a number of steps. -/
structure Takes (part : ℤ → Float) (x : ℝ) : Prop where
  nonneg : 0 ≤ x
  le_one : x ≤ 1
  value : ∀ total : ℤ, total.natAbs ≤ 2 ^ 54 →
    value (part total) = saturated (rounded (value (Float.ofInt total) * x))

theorem takes_fraction {f : Float} (hlow : 0 ≤ value f) (hhigh : value f ≤ 1) :
    Takes (fun total => Float.ofInt total * f) (value f) where
  nonneg := hlow
  le_one := hhigh
  value _ h := value_mul_fraction (ofInt_word h).1 hlow hhigh

theorem takes_half : Takes (fun total => Float.ofInt total / 2.0) (1 / 2) where
  nonneg := by norm_num
  le_one := by norm_num
  value total h := by rw [value_half (ofInt_word h).1, mul_one_div]

namespace Takes

variable {part : ℤ → Float} {x : ℝ} (h : Takes part x) {total other : ℤ}

include h

theorem abs_value (htotal : total.natAbs ≤ 2 ^ 54) : |Binary64.value (part total)| =
    saturated (rounded (|Binary64.value (Float.ofInt total)| * x)) := by
  rw [h.value total htotal, abs_saturated_rounded, abs_mul, abs_of_nonneg h.nonneg]

theorem abs_value_le (htotal : total.natAbs ≤ 2 ^ 54) :
    |Binary64.value (part total)| ≤ 2 ^ (54 : ℤ) := by
  rw [h.value total htotal]
  apply abs_saturated_rounded_le (by norm_num) (by norm_num)
  rw [abs_mul, abs_of_nonneg h.nonneg]
  exact (mul_le_of_le_one_right (abs_nonneg _) h.le_one).trans (ofInt_word htotal).2

theorem mono (hle : |total| ≤ |other|) (hother : other.natAbs ≤ 2 ^ 54) :
    |nearestInt64 (part total)| ≤ |nearestInt64 (part other)| := by
  have htotal : total.natAbs ≤ 2 ^ 54 := by
    rw [Int.abs_eq_natAbs, Int.abs_eq_natAbs] at hle
    omega
  have hcast : |(total : ℝ)| ≤ |(other : ℝ)| := by exact_mod_cast hle
  have hword : |Binary64.value (Float.ofInt total)| ≤ |Binary64.value (Float.ofInt other)| := by
    rw [(nearest_ofInt total).value, (nearest_ofInt other).value, abs_saturated_rounded,
      abs_saturated_rounded]
    exact saturated_mono (rounded_mono (abs_nonneg _) hcast)
  apply abs_nearestInt64_mono _ (h.abs_value_le hother)
  rw [h.abs_value htotal, h.abs_value hother]
  exact saturated_mono (rounded_mono (mul_nonneg (abs_nonneg _) h.nonneg)
    (mul_le_mul_of_nonneg_right hword h.nonneg))

theorem mem (hexact : total.natAbs ≤ 2 ^ 53) :
    nearestInt64 (part total) ∈ Set.uIcc 0 total := by
  obtain ⟨-, hvalue⟩ := ofInt_spec hexact
  apply nearestInt64_mem
  rw [h.value total (hexact.trans (by norm_num)), hvalue]
  apply saturated_rounded_mem hexact
  rw [Set.mem_uIcc]
  rcases le_total 0 (total : ℝ) with hpos | hneg
  · exact .inl ⟨mul_nonneg hpos h.nonneg, mul_le_of_le_one_right hpos h.le_one⟩
  · exact .inr ⟨by nlinarith [h.le_one], mul_nonpos_of_nonpos_of_nonneg hneg h.nonneg⟩

theorem near {k : ℕ} (hk : k ≤ 53) (htotal : |total| ≤ 2 ^ k) :
    |x * (|total| : ℤ) - (|nearestInt64 (part total)| : ℤ)| ≤ 1 / 2 + 2 ^ ((k : ℤ) - 53) := by
  have hexact := natAbs_le_of_abs_le hk htotal
  have hword : total.natAbs ≤ 2 ^ 54 := hexact.trans (by norm_num)
  have hproduct := h.value total hword
  rw [(ofInt_spec hexact).2] at hproduct
  have hsmall : |(total : ℝ) * x| < 2 ^ ((k : ℤ) - 52 + 53) := by
    have hcast : |(total : ℝ)| ≤ 2 ^ (k : ℤ) := by
      rw [zpow_natCast]
      exact_mod_cast htotal
    rw [abs_mul, abs_of_nonneg h.nonneg]
    calc
      _ ≤ |(total : ℝ)| := mul_le_of_le_one_right (abs_nonneg _) h.le_one
      _ ≤ 2 ^ (k : ℤ) := hcast
      _ < _ := zpow_lt_zpow_right₀ one_lt_two (by omega)
  have herror := abs_sub_value_le hproduct (by omega) (by omega) hsmall
  have hhalf : (2 : ℝ) ^ ((k : ℤ) - 52) / 2 = 2 ^ ((k : ℤ) - 53) := by
    rw [show (k : ℤ) - 52 = (k : ℤ) - 53 + 1 by ring, two_zpow_add, zpow_one,
      mul_div_cancel_right₀ _ two_ne_zero]
  have hpart : |(total : ℝ) * x| = x * (|total| : ℤ) := by
    rw [abs_mul, abs_of_nonneg h.nonneg, Int.cast_abs, mul_comm]
  have hsize := (abs_abs_sub_abs_le ((total : ℝ) * x) (Binary64.value (part total))).trans herror
  rw [hpart, hhalf] at hsize
  have hcount := abs_sub_abs_nearestInt64 (h.abs_value_le hword)
  calc
    _ ≤ |x * (|total| : ℤ) - (|Binary64.value (part total)|)| +
        |(|Binary64.value (part total)|) - (|nearestInt64 (part total)| : ℤ)| := abs_sub_le _ _ _
    _ ≤ 1 / 2 + 2 ^ ((k : ℤ) - 53) := by linarith

end Takes
end Parts

section Gaps

variable {x y error : ℝ} {total most p q r s : ℤ}

/-- Between two parts lie as many steps as there are on the way between them, up to the errors of
both counts. -/
theorem abs_gap_sub_le (hnonneg : 0 ≤ total) (hp : |x * total - p| ≤ 1 / 2 + error)
    (hq : |y * total - q| ≤ 1 / 2 + error) :
    |(|y - x|) * total - (|q - p| : ℤ)| ≤ 1 + 2 * error := by
  have hcast : (0 : ℝ) ≤ total := by exact_mod_cast hnonneg
  have hgap : |y - x| * total = |y * total - x * total| := by
    rw [← sub_mul, abs_mul, abs_of_nonneg hcast]
  have hdifference : |(y * total - x * total) - (q - p)| ≤ 1 + 2 * error := by
    rw [abs_le] at hp hq ⊢
    constructor <;> linarith
  rw [hgap, Int.cast_abs, Int.cast_sub]
  exact (abs_abs_sub_abs_le _ _).trans hdifference

variable (hp : |x * total - p| ≤ 1 / 2 + error) (hq : |y * total - q| ≤ 1 / 2 + error)
  (hr : |x * most - r| ≤ 1 / 2 + error) (hs : |y * most - s| ≤ 1 / 2 + error)
  (hnonneg : 0 ≤ total) (hle : total ≤ most)

include hp hq hr hs hnonneg hle

theorem gap_le_add_two (hsmall : 4 * error < 1) : |q - p| ≤ |s - r| + 2 := by
  have hgap := abs_le.mp (abs_gap_sub_le hnonneg hp hq)
  have hmost := abs_le.mp (abs_gap_sub_le (hnonneg.trans hle) hr hs)
  have hmore : |y - x| * total ≤ |y - x| * most :=
    mul_le_mul_of_nonneg_left (by exact_mod_cast hle) (abs_nonneg _)
  have hlt : ((|q - p| : ℤ) : ℝ) < ((|s - r| + 3 : ℤ) : ℝ) := by
    push_cast at hgap hmost ⊢
    linarith
  have hint : |q - p| < |s - r| + 3 := by exact_mod_cast hlt
  omega

/-- Either the way between the two parts is long enough for the errors not to count, or it is so
short that there is at most one step on it. -/
theorem gap_le_add_one (hsame : total = most → p = r ∧ q = s)
    (hsmall : 4 * error * total + 2 * error < 1) : |q - p| ≤ |s - r| + 1 := by
  rcases hle.eq_or_lt with heq | hlt
  · obtain ⟨rfl, rfl⟩ := hsame heq
    omega
  by_contra hmore
  have hgap := abs_le.mp (abs_gap_sub_le hnonneg hp hq)
  have hmost := abs_le.mp (abs_gap_sub_le (hnonneg.trans hle) hr hs)
  have hfaster : ((|s - r| : ℤ) : ℝ) + 2 ≤ (|q - p| : ℤ) := by
    have hint : |s - r| + 2 ≤ |q - p| := by omega
    exact_mod_cast hint
  have hcast : (0 : ℝ) ≤ total := by exact_mod_cast hnonneg
  have hway : |y - x| ≤ 4 * error := by
    have hahead : (1 : ℝ) ≤ most - total := by
      have hint : 1 ≤ most - total := by omega
      exact_mod_cast hint
    have hscaled := le_mul_of_one_le_right (abs_nonneg (y - x)) hahead
    linarith
  have hfew : |y - x| * total ≤ 4 * error * total := mul_le_mul_of_nonneg_right hway hcast
  have hsteps : (0 : ℝ) ≤ (|s - r| : ℤ) := by exact_mod_cast abs_nonneg (s - r)
  linarith

omit hq hs in
theorem left_le (hone : x ≤ 1) (hsame : total = most → p = r) (hpart : r ≤ most)
    (hsmall : 4 * error * total + 2 * error < 1) : total - p ≤ most - r := by
  rcases hle.eq_or_lt with heq | hlt
  · rw [heq, hsame heq]
  by_contra hmore
  have hmissing : (most : ℝ) - total + 1 ≤ r - p := by
    have hint : most - total + 1 ≤ r - p := by omega
    exact_mod_cast hint
  have hcast : (0 : ℝ) ≤ total := by exact_mod_cast hnonneg
  have hahead : (1 : ℝ) ≤ most - total := by
    have hint : 1 ≤ most - total := by omega
    exact_mod_cast hint
  have hp := abs_le.mp hp
  have hr := abs_le.mp hr
  have hway : 1 - x ≤ 2 * error := by
    have hscaled := le_mul_of_one_le_right (sub_nonneg.mpr hone) hahead
    linarith
  have hfew : (1 - x) * total ≤ 2 * error * total := mul_le_mul_of_nonneg_right hway hcast
  -- So close to the end nothing is left of the fewer steps, and the rest is not less than that.
  have hdone : (total : ℝ) - p < 1 := by linarith
  have hint : total - p < 1 := by exact_mod_cast hdone
  omega

end Gaps

end Binary64

theorem Steps.eq_of_isZero_sub {first second : Steps} (h : (second.sub first).isZero = true) :
    second = first := by
  ext axis
  have hzero := get_eq_zero h axis
  rw [get_sub] at hzero
  omega

namespace Move

variable {move : Move}

/-- The steps that are made by the part `x` of the way. -/
structure Portion (move : Move) (x : ℝ) (steps : Steps) : Prop where
  le_one : x ≤ 1
  ordered : ∀ axis other, |move.steps axis| ≤ |move.steps other| → |steps axis| ≤ |steps other|
  within : ∀ axis, (move.steps axis).natAbs ≤ 2 ^ 53 → steps axis ∈ Set.uIcc 0 (move.steps axis)
  near : ∀ axis (k : ℕ), k ≤ 53 → |move.steps axis| ≤ 2 ^ k →
    |x * (|move.steps axis| : ℤ) - (|steps axis| : ℤ)| ≤ 1 / 2 + 2 ^ ((k : ℤ) - 53)

theorem slack_nonneg (k : ℕ) : (0 : ℝ) ≤ 1 / 2 + 2 ^ ((k : ℤ) - 53) := by
  have hpower := two_zpow_pos ((k : ℤ) - 53)
  linarith

theorem portion_zero (move : Move) : move.Portion 0 .zero where
  le_one := zero_le_one
  ordered axis other _ := by simp
  within axis _ := by simp
  near axis k _ _ := by simpa using slack_nonneg k

theorem portion_all (move : Move) : move.Portion 1 move.steps where
  le_one := le_rfl
  ordered _ _ h := h
  within _ _ := Set.right_mem_uIcc
  near axis k _ _ := by simpa using slack_nonneg k

theorem portion_of_takes (h : ∀ axis, (move.steps axis).natAbs ≤ 2 ^ 54) {part : ℤ → Float} {x : ℝ}
    (hpart : Takes part x) :
    move.Portion x (move.steps.map fun total => nearestInt64 (part total)) where
  le_one := hpart.le_one
  ordered axis other hle := by
    rw [Register.get_map, Register.get_map]
    exact hpart.mono hle (h other)
  within axis hexact := by
    rw [Register.get_map]
    exact hpart.mem hexact
  near axis k hk hbound := by
    rw [Register.get_map]
    exact hpart.near hk hbound

namespace Portion

variable {x y : ℝ} {first second : Steps} {axis other : Axis}

theorem eq_of_abs_eq (h : move.Portion x first)
    (hsame : |move.steps axis| = |move.steps other|) : |first axis| = |first other| :=
  le_antisymm (h.ordered axis other hsame.le) (h.ordered other axis hsame.ge)

theorem abs_le_abs (h : move.Portion x first) (hexact : (move.steps axis).natAbs ≤ 2 ^ 53) :
    |first axis| ≤ |move.steps axis| := by
  have hmem := h.within axis hexact
  rw [Set.mem_uIcc] at hmem
  rw [Int.abs_eq_natAbs, Int.abs_eq_natAbs]
  omega

theorem abs_sub (hfirst : move.Portion x first) (hsecond : move.Portion y second)
    (hexact : (move.steps axis).natAbs ≤ 2 ^ 53) :
    |second axis - first axis| = |(|second axis|) - (|first axis|)| := by
  have hstart := hfirst.within axis hexact
  have hend := hsecond.within axis hexact
  rw [Set.mem_uIcc] at hstart hend
  rcases le_total 0 (move.steps axis) with hpos | hneg
  · rw [abs_of_nonneg (a := first axis) (by omega), abs_of_nonneg (a := second axis) (by omega)]
  · rw [abs_of_nonpos (a := first axis) (by omega), abs_of_nonpos (a := second axis) (by omega),
      neg_sub_neg, abs_sub_comm]

section Pace

variable (hfirst : move.Portion x first) (hle : |move.steps axis| ≤ |move.steps other|)

include hfirst hle

theorem gap_le_two (hsecond : move.Portion y second) (hbound : |move.steps other| ≤ 2 ^ 50) :
    |second axis - first axis| ≤ |second other - first other| + 2 := by
  have hlower := hle.trans hbound
  have hk : 50 ≤ 53 := by norm_num
  rw [abs_sub hfirst hsecond (natAbs_le_of_abs_le hk hlower),
    abs_sub hfirst hsecond (natAbs_le_of_abs_le hk hbound)]
  exact gap_le_add_two (hfirst.near axis 50 hk hlower) (hsecond.near axis 50 hk hlower)
    (hfirst.near other 50 hk hbound) (hsecond.near other 50 hk hbound) (abs_nonneg _) hle
    (by norm_num)

variable (hbound : |move.steps other| ≤ 2 ^ 25)

include hbound

omit hfirst in
theorem slack_lt_one : 4 * (2 : ℝ) ^ (((25 : ℕ) : ℤ) - 53) * (|move.steps axis| : ℤ) +
    2 * 2 ^ (((25 : ℕ) : ℤ) - 53) < 1 := by
  have hpower : (2 : ℝ) ^ (((25 : ℕ) : ℤ) - 53) = 1 / 2 ^ 28 := by norm_num
  have hcast : ((|move.steps axis| : ℤ) : ℝ) ≤ 2 ^ 25 := by exact_mod_cast hle.trans hbound
  rw [hpower]
  linarith

theorem gap_le_one (hsecond : move.Portion y second) :
    |second axis - first axis| ≤ |second other - first other| + 1 := by
  have hlower := hle.trans hbound
  have hk : 25 ≤ 53 := by norm_num
  rw [abs_sub hfirst hsecond (natAbs_le_of_abs_le hk hlower),
    abs_sub hfirst hsecond (natAbs_le_of_abs_le hk hbound)]
  exact gap_le_add_one (hfirst.near axis 25 hk hlower) (hsecond.near axis 25 hk hlower)
    (hfirst.near other 25 hk hbound) (hsecond.near other 25 hk hbound) (abs_nonneg _) hle
    (fun hsame => ⟨hfirst.eq_of_abs_eq hsame, hsecond.eq_of_abs_eq hsame⟩)
    (slack_lt_one hle hbound)

theorem left_le : |move.steps axis - first axis| ≤ |move.steps other - first other| := by
  have hlower := hle.trans hbound
  have hk : 25 ≤ 53 := by norm_num
  have hexact := natAbs_le_of_abs_le hk hbound
  have hexactLower := natAbs_le_of_abs_le hk hlower
  have hmost := hfirst.abs_le_abs hexact
  rw [abs_sub hfirst move.portion_all hexactLower, abs_sub hfirst move.portion_all hexact,
    abs_of_nonneg (sub_nonneg.mpr (hfirst.abs_le_abs hexactLower)),
    abs_of_nonneg (sub_nonneg.mpr hmost)]
  exact Binary64.left_le (hfirst.near axis 25 hk hlower) (hfirst.near other 25 hk hbound)
    (abs_nonneg _) hle hfirst.le_one (fun hsame => hfirst.eq_of_abs_eq hsame) hmost
    (slack_lt_one hle hbound)

end Pace

end Portion

/-- The steps that are made by some part of the way. -/
def IsPortion (move : Move) (steps : Steps) : Prop := ∃ x, move.Portion x steps

section Stretches

variable {phases : List Phase} {made : Steps} (hmade : move.IsPortion made)
  (hends : ∀ phase ∈ phases, move.IsPortion (move.stepsAt phase.endsAt))

include hmade hends

theorem exists_portions_of_mem {segment : Segment} (h : segment ∈ move.stretches made phases) :
    ∃ first second, move.IsPortion first ∧ move.IsPortion second ∧
      segment.steps = second.sub first := by
  fun_induction stretches move made phases with
  | case1 => simp at h
  | case2 made phase =>
    rw [List.mem_singleton] at h
    exact ⟨made, move.steps, hmade, ⟨1, move.portion_all⟩, by rw [h]⟩
  | case3 made phase rest hrest reached ih =>
    rw [List.forall_mem_cons] at hends
    rcases List.mem_cons.mp h with rfl | hmem
    · exact ⟨made, reached, hmade, hends.1, rfl⟩
    · exact ih hends.1 hends.2 hmem

theorem exists_portion_of_head? {steps : Steps}
    (h : (((move.stretches made phases).map Segment.steps).filter
      fun steps => !steps.isZero).head? = some steps) :
    ∃ second, move.IsPortion second ∧ steps = second.sub made := by
  fun_induction stretches move made phases with
  | case1 => simp at h
  | case2 made phase =>
    have honly := List.mem_of_mem_filter (List.mem_of_mem_head? h)
    exact ⟨move.steps, ⟨1, move.portion_all⟩, List.mem_singleton.mp honly⟩
  | case3 made phase rest hrest reached ih =>
    rw [List.forall_mem_cons] at hends
    rw [List.map_cons] at h
    by_cases hempty : (reached.sub made).isZero = true
    · rw [List.filter_cons_of_neg (by simpa using hempty)] at h
      rw [← Steps.eq_of_isZero_sub hempty]
      exact ih hends.1 hends.2 h
    · rw [List.filter_cons_of_pos (by simpa using hempty)] at h
      exact ⟨reached, hends.1, (Option.some.inj h).symm⟩

theorem exists_portion_of_getLast? {steps : Steps}
    (h : (((move.stretches made phases).map Segment.steps).filter
      fun steps => !steps.isZero).getLast? = some steps) :
    ∃ first, move.IsPortion first ∧ steps = move.steps.sub first := by
  fun_induction stretches move made phases with
  | case1 => simp at h
  | case2 made phase =>
    have honly := List.mem_of_mem_filter (List.mem_of_getLast? h)
    exact ⟨made, hmade, List.mem_singleton.mp honly⟩
  | case3 made phase rest hrest reached ih =>
    rw [List.forall_mem_cons] at hends
    rw [List.map_cons] at h
    by_cases hlater : (((move.stretches reached rest).map Segment.steps).filter
        fun steps => !steps.isZero) = []
    · -- No later segment has steps, so this one ends where the move does.
      have htotal : move.steps = reached := by
        ext axis
        have hsum := total_stretches move reached (fun hnil => hrest hnil) axis
        rw [Segment.total_eq_zero (by simpa [List.filter_eq_nil_iff] using hlater)] at hsum
        omega
      have honly : steps ∈ [reached.sub made] := by
        have hmem := List.mem_of_getLast? h
        rw [← List.singleton_append, List.filter_append, hlater, List.append_nil] at hmem
        exact List.mem_of_mem_filter hmem
      exact ⟨made, hmade, by rw [htotal]; exact List.mem_singleton.mp honly⟩
    · refine ih hends.1 hends.2 ?_
      rw [← List.singleton_append, List.filter_append, List.getLast?_append_of_ne_nil _ hlater] at h
      exact h

end Stretches

section Segments

variable {exit : Float} (h : move.Admissible) (hexit : Unsigned exit)

include h hexit

theorem isPortion_stepsAt : ∀ phase ∈ move.profile exit,
    move.IsPortion (move.stepsAt phase.endsAt) := by
  intro phase hphase
  have hdistance : Unsigned move.distance := h.steady.distance ▸ unsigned_ofNat _
  have hnumber : move.distance.isNaN = false := h.steady.distance ▸ (nearest_ofNat _).isNaN
  obtain ⟨hlow, hhigh⟩ := Phase.endsAt_mem_of_mem_trapezoid h.steady.entry.nonneg hexit.nonneg
    h.steady.acceleration hnumber hdistance.nonneg hphase
  have htakes := takes_fraction (value_div_nonneg hlow hdistance)
    (value_div_le_one hlow hdistance hhigh)
  refine ⟨value (phase.endsAt / move.distance), ?_⟩
  unfold stepsAt
  exact portion_of_takes h.natAbs_le htakes

omit hexit in
theorem isPortion_halfSteps : move.IsPortion (halfSteps move.steps) :=
  ⟨_, portion_of_takes h.natAbs_le takes_half⟩

theorem exists_portions_of_mem_segments {segment : Segment}
    (hsegment : segment ∈ move.segments exit) :
    ∃ first second, move.IsPortion first ∧ move.IsPortion second ∧
      segment.steps = second.sub first := by
  have hstart : move.IsPortion .zero := ⟨0, move.portion_zero⟩
  have hend : move.IsPortion move.steps := ⟨1, move.portion_all⟩
  have hhalf := isPortion_halfSteps h
  rcases steps_of_mem_segments hsegment with ⟨stretch, hstretch, hsame⟩ | hup | hdown
  · rw [← hsame]
    exact exists_portions_of_mem hstart (isPortion_stepsAt h hexit) hstretch
  · exact ⟨.zero, _, hstart, hhalf, by ext axis; simp [hup]⟩
  · exact ⟨_, move.steps, hhalf, hend, hdown⟩

theorem isPortion_of_head? {segment : Segment}
    (hsegment : (move.segments exit).head? = some segment) :
    move.IsPortion segment.steps := by
  rcases move.segments_cases exit with hjoined | ⟨hramps, -⟩
  · have hfirst := congrArg (Option.map Segment.steps) hsegment
    rw [hjoined, ← List.head?_map, map_steps_joinEmpty] at hfirst
    obtain ⟨second, hsecond, hsteps⟩ := exists_portion_of_head? ⟨0, move.portion_zero⟩
      (isPortion_stepsAt h hexit) hfirst
    have hsame : segment.steps = second := by
      rw [hsteps]
      ext axis
      simp
    rwa [hsame]
  · rw [hramps] at hsegment
    rw [← Option.some.inj hsegment]
    exact isPortion_halfSteps h

theorem exists_portion_of_getLast?_segments {segment : Segment}
    (hsegment : (move.segments exit).getLast? = some segment) :
    ∃ first, move.IsPortion first ∧ segment.steps = move.steps.sub first := by
  rcases move.segments_cases exit with hjoined | ⟨hramps, -⟩
  · have hlast := congrArg (Option.map Segment.steps) hsegment
    rw [hjoined, ← List.getLast?_map, map_steps_joinEmpty] at hlast
    exact exists_portion_of_getLast? ⟨0, move.portion_zero⟩ (isPortion_stepsAt h hexit) hlast
  · rw [hramps] at hsegment
    rw [← Option.some.inj hsegment]
    exact ⟨_, isPortion_halfSteps h, rfl⟩

end Segments

section Defining

variable {exit : Float} {segment : Segment}

theorem abs_le_defining (steps : Steps) (axis : Axis) :
    |steps axis| ≤ |steps steps.definingAxis| := by
  have hcount := steps.natAbs_le_count axis
  rw [Int.abs_eq_natAbs, Int.abs_eq_natAbs]
  exact_mod_cast hcount

theorem abs_defining_le {steps : Steps} {k : ℕ} (h : steps.count ≤ 2 ^ k) :
    |steps steps.definingAxis| ≤ 2 ^ k := by
  rw [Int.abs_eq_natAbs]
  exact_mod_cast h

/-- In a segment, no axis is more than `lead` steps ahead of the defining axis of the move, so the
number of steps that its time is taken from is that of this axis, or up to `lead` more. -/
structure KeepsPace (move : Move) (lead : Nat) (segment : Segment) : Prop where
  natAbs_le : ∀ axis, (segment.steps axis).natAbs ≤
    (segment.steps move.steps.definingAxis).natAbs + lead
  count_le : segment.steps.count ≤ (segment.steps move.steps.definingAxis).natAbs + lead
  le_count : (segment.steps move.steps.definingAxis).natAbs ≤ segment.steps.count

theorem keepsPace_of_abs {lead : Nat} (h : ∀ axis,
    |segment.steps axis| ≤ |segment.steps move.steps.definingAxis| + lead) :
    move.KeepsPace lead segment := by
  have hnatAbs : ∀ axis, (segment.steps axis).natAbs ≤
      (segment.steps move.steps.definingAxis).natAbs + lead := fun axis => by
    have haxis := h axis
    rw [Int.abs_eq_natAbs, Int.abs_eq_natAbs] at haxis
    omega
  exact ⟨hnatAbs, hnatAbs segment.steps.definingAxis, segment.steps.natAbs_le_count _⟩

variable (h : move.Admissible) (hexit : Unsigned exit)

include h hexit

theorem keepsPace_first (hsegment : (move.segments exit).head? = some segment) :
    move.KeepsPace 0 segment := by
  obtain ⟨x, hportion⟩ := isPortion_of_head? h hexit hsegment
  refine keepsPace_of_abs fun axis => ?_
  have hordered := hportion.ordered axis _ (abs_le_defining move.steps axis)
  simpa using hordered

theorem keepsPace_last (hbound : move.steps.count ≤ 2 ^ 25)
    (hsegment : (move.segments exit).getLast? = some segment) : move.KeepsPace 0 segment := by
  obtain ⟨first, ⟨x, hportion⟩, hsteps⟩ := exists_portion_of_getLast?_segments h hexit hsegment
  refine keepsPace_of_abs fun axis => ?_
  have hleft := hportion.left_le (abs_le_defining move.steps axis) (abs_defining_le hbound)
  rw [hsteps, Steps.get_sub, Steps.get_sub]
  simpa using hleft

theorem keepsPace_one (hbound : move.steps.count ≤ 2 ^ 25)
    (hsegment : segment ∈ move.segments exit) : move.KeepsPace 1 segment := by
  obtain ⟨first, second, ⟨x, hfirst⟩, ⟨y, hsecond⟩, hsteps⟩ :=
    exists_portions_of_mem_segments h hexit hsegment
  refine keepsPace_of_abs fun axis => ?_
  rw [hsteps, Steps.get_sub, Steps.get_sub]
  exact hfirst.gap_le_one (abs_le_defining move.steps axis) (abs_defining_le hbound) hsecond

theorem keepsPace_two (hbound : move.steps.count ≤ 2 ^ 50)
    (hsegment : segment ∈ move.segments exit) : move.KeepsPace 2 segment := by
  obtain ⟨first, second, ⟨x, hfirst⟩, ⟨y, hsecond⟩, hsteps⟩ :=
    exists_portions_of_mem_segments h hexit hsegment
  refine keepsPace_of_abs fun axis => ?_
  rw [hsteps, Steps.get_sub, Steps.get_sub]
  exact hfirst.gap_le_two (abs_le_defining move.steps axis) hsecond (abs_defining_le hbound)

end Defining

end Move
end StepMotion
