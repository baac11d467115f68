import StepMotion.Proofs.Binary64.Integers

/-! Fractions of a number of steps. A larger fraction is not less of them, as long as they are counted
exactly; and fractions that only differ in the last bits of a double differ by one step at most. -/
namespace StepMotion

def Along (total steps : ℤ) : Prop := (0 ≤ total → 0 ≤ steps) ∧ (total ≤ 0 → steps ≤ 0)

section Along

variable {total steps place : ℤ}

theorem along_iff : Along total steps ↔ steps = 0 ∨ steps.sign = total.sign := by
  unfold Along
  rcases lt_trichotomy total 0 with hneg | rfl | hpos
  · rw [Int.sign_eq_neg_one_of_neg hneg, Int.sign_eq_neg_one_iff_neg]
    omega
  · rw [Int.sign_zero, Int.sign_eq_zero_iff_zero]
    omega
  · rw [Int.sign_eq_one_of_pos hpos, Int.sign_eq_one_iff_pos]
    omega

theorem along_of_mem (h : place ∈ Set.uIcc 0 total) : Along total place := by
  rw [Set.mem_uIcc] at h
  unfold Along
  omega

theorem along_sub_of_mem (h : place ∈ Set.uIcc 0 total) : Along total (total - place) := by
  rw [Set.mem_uIcc] at h
  unfold Along
  omega

theorem along_or_eq_neg_sign (h : |steps| ≤ 1) (hzero : total = 0 → steps = 0) :
    Along total steps ∨ steps = -total.sign := by
  rw [abs_le] at h
  unfold Along
  rcases lt_trichotomy total 0 with hneg | rfl | hpos
  · rw [Int.sign_eq_neg_one_of_neg hneg]
    omega
  · rw [hzero rfl]
    simp
  · rw [Int.sign_eq_one_of_pos hpos]
    omega

end Along

namespace Binary64

open Float.Model UnpackedFloat

section Error

variable {r : ℝ} {e : ℤ}

theorem abs_sub_rounded_le (hlow : -1074 ≤ e) (hr : |r| < 2 ^ (e + 53)) :
    |r - rounded r| ≤ 2 ^ e / 2 := by
  by_cases hzero : r = 0
  · rw [hzero, rounded_zero, sub_zero, abs_zero]
    exact (half_pos (two_zpow_pos e)).le
  · have hlog : Int.log 2 |r| < e + 53 :=
      (Int.lt_zpow_iff_log_lt one_lt_two (abs_pos.mpr hzero)).mp (by exact_mod_cast hr)
    have hplace : lastPlace r ≤ e := by
      unfold lastPlace
      omega
    exact (abs_sub_rounded r).trans (by linarith [two_zpow_le hplace])

theorem abs_sub_value_le {x : Float} (h : value x = saturated (rounded r)) (hlow : -1074 ≤ e)
    (hhigh : e + 53 ≤ 1024) (hr : |r| < 2 ^ (e + 53)) : |r - value x| ≤ 2 ^ e / 2 := by
  have hpower := abs_rounded_le (by omega) hr.le
  rw [h, saturated_of_abs_le (hpower.trans (two_zpow_le hhigh))]
  exact abs_sub_rounded_le hlow hr

end Error

section Order

variable {x y d : Float}

theorem isFinite_of_value (hpos : 0 < value x) (hle : value x ≤ value d) (hd : d.isFinite = true) :
    x.isFinite = true := by
  rw [isFinite_iff]
  constructor
  · rw [← Bool.not_eq_true]
    intro hnan
    rw [value_of_isNaN hnan] at hpos
    exact lt_irrefl 0 hpos
  · rw [abs_of_pos hpos]
    exact hle.trans_lt ((le_abs_self _).trans_lt (isFinite_iff.mp hd).2)

theorem value_div_mono (hx : 0 ≤ value x) (hxy : value x ≤ value y) (hyd : value y ≤ value d)
    (hunsigned : Unsigned d) (hd : d.isFinite = true) (hpos : 0 < value d) :
    value (x / d) ≤ value (y / d) := by
  rcases hx.eq_or_lt with hzero | hxpos
  · have hleft : value (x / d) = 0 := by
      by_cases hfinite : x.isFinite = true
      · rw [(nearest_div hfinite hd hpos.ne').value, ← hzero, zero_div, rounded_zero,
          saturated_of_abs_le (by rw [abs_zero]; exact limit_pos.le)]
      · rcases value_div_special hx hunsigned (by tauto) with h | ⟨-, hlt⟩
        · exact h
        · linarith
    rw [hleft]
    exact value_div_nonneg (hx.trans hxy) hunsigned
  · have hxfinite := isFinite_of_value hxpos (hxy.trans hyd) hd
    have hyfinite := isFinite_of_value (hxpos.trans_le hxy) hyd hd
    rw [(nearest_div hxfinite hd hpos.ne').value, (nearest_div hyfinite hd hpos.ne').value]
    exact saturated_mono (rounded_mono (div_nonneg hx hpos.le)
      (div_le_div_of_nonneg_right hxy hpos.le))

end Order

section Rounding

variable {r s : ℝ}

/-- On one side of zero, less than one apart rounds to at most one apart. -/
theorem abs_roundAway_sub_le (hside : 0 ≤ r ∧ 0 ≤ s ∨ r ≤ 0 ∧ s ≤ 0) (h : |r - s| ≤ 1) :
    |roundAway r - roundAway s| ≤ 1 := by
  have hround : ∀ p q : ℝ, p ≤ q + 1 → round p ≤ round q + 1 := fun p q hpq => by
    rw [← round_add_one]
    exact round_mono hpq
  obtain ⟨hlow, hhigh⟩ := abs_le.mp h
  rw [abs_le]
  rcases hside with ⟨hr, hs⟩ | ⟨hr, hs⟩
  · rw [roundAway_of_nonneg hr, roundAway_of_nonneg hs]
    have hleft := hround r s (by linarith)
    have hright := hround s r (by linarith)
    omega
  · have hflip : ∀ t : ℝ, t ≤ 0 → roundAway t = -round (-t) := fun t ht => by
      rw [← roundAway_of_nonneg (by linarith), roundAway_neg, neg_neg]
    rw [hflip r hr, hflip s hs]
    have hleft := hround (-r) (-s) (by linarith)
    have hright := hround (-s) (-r) (by linarith)
    omega

end Rounding

section Shares

/-- The steps that a fraction of the way is, out of a total. -/
def share (total : ℤ) (fraction : Float) : ℤ := nearestInt64 (Float.ofInt total * fraction)

variable {total : ℤ} {f g : Float}

theorem along_share_sub (h : total.natAbs ≤ 2 ^ 53) (hlow : 0 ≤ value f)
    (hle : value f ≤ value g) (hhigh : value g ≤ 1) : Along total (share total g - share total f) := by
  have hf := value_part h hlow (hle.trans hhigh)
  have hg := value_part h (hlow.trans hle) hhigh
  constructor
  · intro hpos
    have hcast : (0 : ℝ) ≤ total := by exact_mod_cast hpos
    apply sub_nonneg_of_le
    apply nearestInt64_mono
    rw [hf, hg]
    exact saturated_mono (rounded_mono (mul_nonneg hcast hlow)
      (mul_le_mul_of_nonneg_left hle hcast))
  · intro hneg
    have hcast : (total : ℝ) ≤ 0 := by exact_mod_cast hneg
    apply sub_nonpos_of_le
    apply nearestInt64_mono
    rw [hf, hg]
    have hflipped := rounded_mono (r := -(total * value f)) (s := -(total * value g))
      (neg_nonneg.mpr (mul_nonpos_of_nonpos_of_nonneg hcast hlow))
      (neg_le_neg (mul_le_mul_of_nonpos_left hle hcast))
    rw [rounded_neg, rounded_neg] at hflipped
    exact saturated_mono (neg_le_neg_iff.mp hflipped)

theorem abs_roundAway (r : ℝ) : |roundAway r| = roundAway |r| := by
  have hnonneg : ∀ s : ℝ, 0 ≤ s → 0 ≤ roundAway s := fun s hs => by
    rw [roundAway_of_nonneg hs]
    exact round_nonneg hs
  rcases le_total 0 r with hpos | hneg
  · rw [abs_of_nonneg hpos, abs_of_nonneg (hnonneg r hpos)]
  · have hflipped := hnonneg (-r) (neg_nonneg.mpr hneg)
    rw [abs_of_nonpos hneg, ← abs_neg, ← roundAway_neg, abs_of_nonneg hflipped]

theorem nearestInt64_of_abs_le {x : Float} (h : |value x| ≤ 2 ^ (54 : ℤ)) :
    nearestInt64 x = roundAway (value x) := by
  obtain ⟨hlow, hhigh⟩ := abs_le.mp h
  have hpower : (2 : ℝ) ^ (54 : ℤ) = ((2 ^ 54 : ℤ) : ℝ) := by norm_num
  rw [hpower] at hlow hhigh
  have hstart := roundAway_mono hlow
  have hend := roundAway_mono hhigh
  rw [roundAway_neg, roundAway_intCast] at hstart
  rw [roundAway_intCast] at hend
  have hword : wordLimit = 2 ^ 63 := rfl
  rw [nearestInt64_eq]
  omega

theorem abs_nearestInt64 {x : Float} (h : |value x| ≤ 2 ^ (54 : ℤ)) :
    |nearestInt64 x| = roundAway |value x| := by
  rw [nearestInt64_of_abs_le h, abs_roundAway]

/-- Fractions that are a few units of the last place apart are at most one step apart. -/
theorem abs_share_sub_le (h : total.natAbs ≤ 2 ^ 50) (hf : 0 ≤ value f ∧ value f ≤ 1)
    (hg : 0 ≤ value g ∧ value g ≤ 1) (hclose : |value f - value g| ≤ 5 * 2 ^ (-53 : ℤ)) :
    |share total f - share total g| ≤ 1 := by
  have hsize : |(total : ℝ)| ≤ 2 ^ (50 : ℤ) := by
    rw [← Int.cast_abs, Int.abs_eq_natAbs]
    exact_mod_cast h
  have hpart : ∀ {f : Float}, 0 ≤ value f → value f ≤ 1 →
      |value (Float.ofInt total * f)| ≤ 2 ^ (54 : ℤ) ∧
        |total * value f - value (Float.ofInt total * f)| ≤ 2 ^ (-3 : ℤ) := by
    intro f hlow hhigh
    have hvalue := value_part (h.trans (by norm_num)) hlow hhigh
    have hreal : |total * value f| ≤ 2 ^ (50 : ℤ) := by
      rw [abs_mul, abs_of_nonneg hlow]
      exact (mul_le_of_le_one_right (abs_nonneg _) hhigh).trans hsize
    have herror := abs_sub_value_le hvalue (e := -2) (by norm_num) (by norm_num)
      (hreal.trans_lt (zpow_lt_zpow_right₀ one_lt_two (by norm_num)))
    refine ⟨?_, herror.trans (by norm_num)⟩
    rw [hvalue]
    exact abs_saturated_rounded_le (by norm_num) (by norm_num)
      (hreal.trans (two_zpow_le (by norm_num)))
  obtain ⟨hfsmall, hferror⟩ := hpart hf.1 hf.2
  obtain ⟨hgsmall, hgerror⟩ := hpart hg.1 hg.2
  have happart : |total * value f - total * value g| ≤ 5 * 2 ^ (-3 : ℤ) := by
    rw [← mul_sub, abs_mul]
    calc
      _ ≤ 2 ^ (50 : ℤ) * (5 * 2 ^ (-53 : ℤ)) :=
        mul_le_mul hsize hclose (abs_nonneg _) (two_zpow_pos _).le
      _ = 5 * 2 ^ (-3 : ℤ) := by norm_num
  unfold share
  rw [nearestInt64_of_abs_le hfsmall, nearestInt64_of_abs_le hgsmall]
  apply abs_roundAway_sub_le
  · have hfmem := value_part_mem (h.trans (by norm_num)) hf.1 hf.2
    have hgmem := value_part_mem (h.trans (by norm_num)) hg.1 hg.2
    rcases le_total 0 (total : ℝ) with hpos | hneg
    · rw [Set.uIcc_of_le hpos] at hfmem hgmem
      exact .inl ⟨hfmem.1, hgmem.1⟩
    · rw [Set.uIcc_of_ge hneg] at hfmem hgmem
      exact .inr ⟨hfmem.2, hgmem.2⟩
  · rw [abs_le] at hferror hgerror happart ⊢
    norm_num at hferror hgerror happart
    constructor <;> linarith

end Shares

end Binary64
end StepMotion
