import StepMotion.Motion.Move
import StepMotion.Proofs.Binary64.Arithmetic

/-! The speed that a ramp over a move reaches is no less than the speed that it starts from, and a
faster start does not reach less: both despite the rounding. -/
namespace StepMotion

namespace Binary64

theorem le_rounded_add {p q : ℝ} {k : Nat} (hp : 0 < p) (hplace : lastPlace p = -1074)
    (hq : q = rounded p) (hk : 0 < k) : p ≤ rounded (q + k * 2 ^ (-1074 : ℤ)) := by
  have hleast := two_zpow_pos (-1074)
  have hadd : (2 : ℝ) ^ (-1074 : ℤ) ≤ k * 2 ^ (-1074 : ℤ) :=
    le_mul_of_one_le_left hleast.le (by exact_mod_cast hk)
  have hloss := (abs_le.mp (abs_sub_rounded p)).2
  rw [← hq, hplace] at hloss
  have hless : p ≤ q + k * 2 ^ (-1074 : ℤ) := by linarith
  rcases (le_lastPlace (q + k * 2 ^ (-1074 : ℤ))).eq_or_lt with hsum | hsum
  · -- The sum is a multiple of the least number and is not rounded.
    have hmultiple : (q + k * 2 ^ (-1074 : ℤ)) / 2 ^ (-1074 : ℤ) =
        ((nearestEven (p / 2 ^ (-1074 : ℤ)) + k : ℤ) : ℝ) := by
      rw [hq, rounded, hplace, ← add_mul, mul_div_cancel_right₀ _ hleast.ne']
      push_cast
      rfl
    rw [rounded, ← hsum, hmultiple, nearestEven_intCast, ← hmultiple, div_mul_cancel₀ _ hleast.ne']
    exact hless
  · calc
      p ≤ 2 ^ (lastPlace p + 53) := (lt_of_lastPlace hp).le
      _ ≤ 2 ^ (lastPlace (q + k * 2 ^ (-1074 : ℤ)) + 52) := two_zpow_le (by omega)
      _ ≤ rounded (q + k * 2 ^ (-1074 : ℤ)) := le_rounded (hp.trans_le hless) hsum

/-- A root rounds back to the number that was squared if the square lost few bits. -/
theorem le_rounded_sqrt_of_loss {m : Nat} {e : ℤ} {t : ℝ} (h : Fits m e) (hm : 2 ^ 52 < m)
    (hloss : ((m : ℝ) * m - 2 ^ 52) * (2 ^ e * 2 ^ e) ≤ t)
    (hless : t < (m : ℝ) * 2 ^ e * (m * 2 ^ e)) : (m : ℝ) * 2 ^ e ≤ rounded (√t) := by
  have hscale := two_zpow_pos e
  have hm' : (2 : ℝ) ^ 52 + 1 ≤ m := by exact_mod_cast hm
  have hmlt : (m : ℝ) < 2 ^ (53 : ℤ) := by exact_mod_cast h.lt
  have hhalf : ((m : ℝ) - 1 / 2) * 2 ^ e < √t := by
    have hnonneg : 0 ≤ ((m : ℝ) - 1 / 2) * 2 ^ e := by
      refine mul_nonneg ?_ hscale.le
      linarith [pow_pos (two_pos : (0 : ℝ) < 2) 52]
    rw [Real.lt_sqrt hnonneg, mul_pow, pow_two (2 ^ e : ℝ)]
    refine lt_of_lt_of_le (mul_lt_mul_of_pos_right ?_ (mul_pos hscale hscale)) hloss
    linarith [sub_sq (m : ℝ) (1 / 2)]
  have htop : √t < 2 ^ (53 + e) := by
    rw [two_zpow_add]
    refine lt_trans ?_ (mul_lt_mul_of_pos_right hmlt hscale)
    rw [Real.sqrt_lt' (mul_pos (by linarith [pow_pos (two_pos : (0 : ℝ) < 2) 52]) hscale), pow_two]
    exact hless
  have hbottom : 2 ^ (52 + e) ≤ √t := by
    refine le_trans ?_ hhalf.le
    rw [two_zpow_add]
    refine mul_le_mul_of_nonneg_right ?_ hscale.le
    rw [show (2 : ℝ) ^ (52 : ℤ) = 2 ^ 52 from zpow_natCast 2 52]
    linarith
  rw [rounded, lastPlace_eq h.low hbottom htop]
  refine mul_le_mul_of_nonneg_right ?_ hscale.le
  have hnearest : (m : ℤ) ≤ nearestEven (√t / 2 ^ e) := by
    apply le_nearestEven
    rw [lt_div_iff₀ hscale, Int.cast_natCast]
    exact hhalf
  exact_mod_cast hnearest

theorem rounded_square_two_pow {e : ℤ} (he : -1074 ≤ 104 + 2 * e) :
    rounded (((2 ^ 52 : ℕ) : ℝ) * 2 ^ e * ((2 ^ 52 : ℕ) * 2 ^ e)) =
      ((2 ^ 52 : ℕ) : ℝ) * 2 ^ e * ((2 ^ 52 : ℕ) * 2 ^ e) := by
  have hpower : ((2 ^ 52 : ℕ) : ℝ) * 2 ^ e * ((2 ^ 52 : ℕ) * 2 ^ e) =
      ((1 : ℤ) : ℝ) * 2 ^ (104 + 2 * e) := by
    rw [show 104 + 2 * e = 52 + e + (52 + e) by ring, two_zpow_add (52 + e), two_zpow_add 52]
    push_cast
    norm_num
  rw [hpower, rounded_of_bits (by norm_num) he]

/-- The square of a number may lose more in rounding than is added to it, but its root does not. -/
theorem le_rounded_sqrt {m : Nat} {e : ℤ} {k : Nat} (h : Fits m e) (hk : 0 < k) {q : ℝ}
    (hq : q = rounded ((m : ℝ) * 2 ^ e * (m * 2 ^ e))) (hq' : rounded q = q) :
    (m : ℝ) * 2 ^ e ≤ rounded (√(rounded (q + k * 2 ^ (-1074 : ℤ)))) := by
  have hscale := two_zpow_pos e
  have hvnonneg : 0 ≤ (m : ℝ) * 2 ^ e := mul_nonneg (Nat.cast_nonneg m) hscale.le
  have hqnonneg : 0 ≤ q := hq ▸ rounded_nonneg (mul_self_nonneg _)
  have hqt : q ≤ rounded (q + k * 2 ^ (-1074 : ℤ)) := by
    have haddnonneg : (0 : ℝ) ≤ k * 2 ^ (-1074 : ℤ) :=
      mul_nonneg (Nat.cast_nonneg k) (two_zpow_pos _).le
    calc
      q = rounded q := hq'.symm
      _ ≤ rounded (q + k * 2 ^ (-1074 : ℤ)) := rounded_mono hqnonneg (by linarith)
  by_cases hle : (m : ℝ) * 2 ^ e * (m * 2 ^ e) ≤ rounded (q + k * 2 ^ (-1074 : ℤ))
  · rw [← rounded_fits h]
    exact rounded_mono hvnonneg (Real.le_sqrt_of_sq_le (by rwa [pow_two]))
  have hless := not_le.mp hle
  have hpos := (hqnonneg.trans hqt).trans_lt hless
  rcases (le_lastPlace ((m : ℝ) * 2 ^ e * (m * 2 ^ e))).eq_or_lt with hplace | hplace
  · exact absurd (le_rounded_add hpos hplace.symm hq hk) hle
  have hbig := le_of_lastPlace hpos hplace
  have htop : (m : ℝ) * 2 ^ e * (m * 2 ^ e) < 2 ^ (106 + 2 * e) := by
    have hmlt : (m : ℝ) < 2 ^ (53 : ℤ) := by exact_mod_cast h.lt
    have hlt : (m : ℝ) * 2 ^ e < 2 ^ (53 + e) := by
      rw [two_zpow_add]
      exact mul_lt_mul_of_pos_right hmlt hscale
    rw [show 106 + 2 * e = 53 + e + (53 + e) by ring, two_zpow_add (53 + e)]
    exact mul_lt_mul'' hlt hlt hvnonneg hvnonneg
  have hplacele : lastPlace ((m : ℝ) * 2 ^ e * (m * 2 ^ e)) + 52 < 106 + 2 * e :=
    (zpow_lt_zpow_iff_right₀ one_lt_two).mp (hbig.trans_lt htop)
  have hfull : 2 ^ 52 ≤ m := h.full.resolve_left (by omega)
  have hm : 2 ^ 52 < m := by
    refine lt_of_le_of_ne hfull ?_
    rintro rfl
    rw [rounded_square_two_pow (by omega)] at hq
    linarith
  refine le_rounded_sqrt_of_loss h hm ?_ hless
  have hloss := (abs_le.mp (abs_sub_rounded ((m : ℝ) * 2 ^ e * (m * 2 ^ e)))).2
  have hhalf : (2 : ℝ) ^ lastPlace ((m : ℝ) * 2 ^ e * (m * 2 ^ e)) / 2 ≤
      2 ^ 52 * (2 ^ e * 2 ^ e) := by
    calc
      (2 : ℝ) ^ lastPlace ((m : ℝ) * 2 ^ e * (m * 2 ^ e)) / 2 ≤ 2 ^ (53 + (e + e)) / 2 :=
        div_le_div_of_nonneg_right (two_zpow_le (by omega)) two_pos.le
      _ = 2 ^ 52 * (2 ^ e * 2 ^ e) := by
        rw [two_zpow_add, two_zpow_add]
        norm_num
        ring
  rw [← hq] at hloss
  linarith

theorem exists_fits {x : Float} (hfinite : x.isFinite = true) (hpos : 0 < value x) :
    ∃ (m : Nat) (e : ℤ), 0 < m ∧ Fits m e ∧ value x = m * 2 ^ e := by
  have hcanonical := canonical_unpack x
  change (unpack x).isFinite = true at hfinite
  change 0 < realOf (unpack x) at hpos
  change ∃ (m : Nat) (e : ℤ), 0 < m ∧ Fits m e ∧ realOf (unpack x) = m * 2 ^ e
  generalize unpack x = u at hcanonical hfinite hpos
  cases u with
  | notANumber => contradiction
  | infinity s => contradiction
  | zero s => exact absurd hpos (lt_irrefl 0)
  | finite s m e hm =>
    cases s with
    | positive => exact ⟨m, e, hm, hcanonical.1, by rw [realOf, sign_positive, one_mul]⟩
    | negative =>
      rw [realOf, sign_negative] at hpos
      linarith [finite_pos hm e]

theorem exists_multiple {x : Float} (hfinite : x.isFinite = true) (hpos : 0 < value x) :
    ∃ k : Nat, 0 < k ∧ value x = k * 2 ^ (-1074 : ℤ) := by
  obtain ⟨m, e, hm, hfits, hvalue⟩ := exists_fits hfinite hpos
  refine ⟨m <<< (e - -1074).toNat, ?_, ?_⟩
  · rw [Nat.shiftLeft_eq]
    exact Nat.mul_pos hm (Nat.two_pow_pos _)
  · rw [hvalue, cast_shiftLeft m hfits.low]

structure IsSpeed (x : Float) : Prop where
  isNaN : x.isNaN = false
  nonneg : 0 ≤ value x

variable {x y c : Float}

theorem IsSpeed.le_iff (hx : IsSpeed x) (hy : IsSpeed y) : x ≤ y ↔ value x ≤ value y := by
  rw [Binary64.le_iff]
  exact ⟨fun h => h.2.2, fun h => ⟨hx.isNaN, hy.isNaN, h⟩⟩

theorem value_pos_iff : 0.0 < x ↔ x.isNaN = false ∧ 0 < value x := by
  rw [lt_iff, value_zero]
  exact ⟨fun h => h.2, fun h => ⟨rfl, h⟩⟩

theorem isSpeed_zero : IsSpeed 0.0 := ⟨rfl, value_zero.ge⟩

theorem isSpeed_mul_self (hx : x.isNaN = false) : IsSpeed (x * x) := by
  obtain ⟨hnumber, hvalue⟩ := nearest_mul_self hx
  exact ⟨hnumber, hvalue ▸ saturated_nonneg (rounded_nonneg (mul_self_nonneg _))⟩

theorem IsSpeed.zero_le (hx : IsSpeed x) : 0.0 ≤ x := by
  rw [isSpeed_zero.le_iff hx, value_zero]
  exact hx.nonneg

theorem IsSpeed.lesser (hx : IsSpeed x) (hy : 0 ≤ value y) : IsSpeed (lesser x y) := by
  rcases lesser_cases x y with ⟨heq, -⟩ | ⟨heq, hnumber, -⟩ <;> rw [heq]
  · exact hx
  · exact ⟨hnumber, hy⟩

section Ramp

variable (hc : c.isFinite = true) (hpos : 0 < value c)

include hc hpos

theorem isSpeed_mul_self_add (hx : x.isNaN = false) : IsSpeed (x * x + c) := by
  have hsquare := isSpeed_mul_self hx
  obtain ⟨hnumber, hvalue⟩ := nearest_add_of_nonneg hsquare.isNaN hsquare.nonneg (isFinite_iff.mp hc).1 hpos.le
  refine ⟨hnumber, hvalue ▸ saturated_nonneg (rounded_nonneg ?_)⟩
  exact add_nonneg hsquare.nonneg hpos.le

theorem isSpeed_ramp (hx : x.isNaN = false) : IsSpeed (x * x + c).sqrt := by
  have hsum := isSpeed_mul_self_add hc hpos hx
  exact ⟨isNaN_sqrt hsum.isNaN hsum.nonneg, value_sqrt_nonneg _⟩

theorem ramp_mono (hx : IsSpeed x) (hy : IsSpeed y) (h : value x ≤ value y) :
    value (x * x + c).sqrt ≤ value (y * y + c).sqrt := by
  have hxsquare := isSpeed_mul_self hx.isNaN
  have hysquare := isSpeed_mul_self hy.isNaN
  have hxsum := isSpeed_mul_self_add hc hpos hx.isNaN
  have hysum := isSpeed_mul_self_add hc hpos hy.isNaN
  have hsquares := value_mul_self_mono hx.isNaN hy.isNaN hx.nonneg h
  have hcnumber := (isFinite_iff.mp hc).1
  apply value_sqrt_mono hxsum.isNaN hysum.isNaN hxsum.nonneg
  rw [(nearest_add_of_nonneg hxsquare.isNaN hxsquare.nonneg hcnumber hpos.le).value,
    (nearest_add_of_nonneg hysquare.isNaN hysquare.nonneg hcnumber hpos.le).value]
  apply saturated_mono
  apply rounded_mono (add_nonneg hxsquare.nonneg hpos.le)
  linarith

theorem le_ramp (hx : IsSpeed x) : value x ≤ value (x * x + c).sqrt := by
  have hsquare := isSpeed_mul_self hx.isNaN
  have hsum := isSpeed_mul_self_add hc hpos hx.isNaN
  have hsquareNearest := nearest_mul_self hx.isNaN
  have hsumNearest := nearest_add_of_nonneg hsquare.isNaN hsquare.nonneg (isFinite_iff.mp hc).1 hpos.le
  by_cases hfinite : (x * x + c).isFinite = true
  · rcases hx.nonneg.eq_or_lt with hzero | hxpos
    · rw [← hzero]
      exact value_sqrt_nonneg _
    have hsumlt : value (x * x + c) < limit := by
      rw [isFinite_iff, abs_of_nonneg hsum.nonneg] at hfinite
      exact hfinite.2
    have hsumeq : value (x * x + c) = rounded (value (x * x) + value c) := by
      rw [hsumNearest.value] at hsumlt ⊢
      exact eq_saturated_of_lt (rounded_nonneg (add_nonneg hsquare.nonneg hpos.le)) hsumlt
    have hsquarelt : value (x * x) < limit := by
      refine lt_of_le_of_lt ?_ hsumlt
      calc
        value (x * x) = rounded (value (x * x)) := (rounded_value _).symm
        _ ≤ rounded (value (x * x) + value c) := rounded_mono hsquare.nonneg (by linarith)
        _ = value (x * x + c) := hsumeq.symm
    have hsquareeq : value (x * x) = rounded (value x * value x) := by
      rw [hsquareNearest.value] at hsquarelt ⊢
      exact eq_saturated_of_lt (rounded_nonneg (mul_self_nonneg _)) hsquarelt
    have hxfinite : x.isFinite = true := by
      rw [isFinite_iff, abs_of_pos hxpos]
      refine ⟨hx.isNaN, not_le.mp fun hle => hsquarelt.ne ?_⟩
      rw [hsquareNearest.value]
      exact rounded_limit_le (limit_le_mul_self hle)
    obtain ⟨k, hk, hcvalue⟩ := exists_multiple hc hpos
    obtain ⟨m, e, -, hfits, hxvalue⟩ := exists_fits hxfinite hxpos
    have hroot : value x ≤ rounded (√(value (x * x + c))) := by
      rw [hsumeq, hcvalue, hxvalue]
      exact le_rounded_sqrt hfits hk (by rw [hsquareeq, hxvalue]) (rounded_value _)
    rw [(nearest_sqrt hfinite hsum.nonneg).value, ← saturated_of_abs_le (abs_value_le x)]
    exact saturated_mono hroot
  · rw [(sqrt_infinity hsum.isNaN hsum.nonneg hfinite).2]
    exact (abs_le.mp (abs_value_le x)).2

end Ramp

end Binary64

namespace Move

open Binary64

/-- A move with a finite positive cruise speed, over which a ramp gains a finite positive square. -/
structure Regular (move : Move) : Prop where
  cruise_isFinite : move.cruise.isFinite = true
  cruise_pos : 0.0 < move.cruise
  gain_isFinite : (2.0 * move.acceleration * move.distance).isFinite = true
  gain_pos : 0.0 < 2.0 * move.acceleration * move.distance

instance (move : Move) : Decidable move.Regular :=
  decidable_of_iff (move.cruise.isFinite = true ∧ 0.0 < move.cruise ∧
      (2.0 * move.acceleration * move.distance).isFinite = true ∧
      0.0 < 2.0 * move.acceleration * move.distance)
    ⟨fun h => ⟨h.1, h.2.1, h.2.2.1, h.2.2.2⟩, fun h => ⟨h.1, h.2, h.3, h.4⟩⟩

namespace Regular

variable {move : Move} (h : move.Regular) {speed speed' : Float}

include h

theorem isSpeed_cruise : IsSpeed move.cruise := by
  have hpos := value_pos_iff.mp h.cruise_pos
  exact ⟨hpos.1, hpos.2.le⟩

theorem isSpeed_reachableFrom (hspeed : speed.isNaN = false) :
    IsSpeed (move.reachableFrom speed) :=
  isSpeed_ramp h.gain_isFinite (value_pos_iff.mp h.gain_pos).2 hspeed

theorem reachableFrom_mono (hspeed : IsSpeed speed) (hspeed' : IsSpeed speed')
    (hle : speed ≤ speed') : move.reachableFrom speed ≤ move.reachableFrom speed' := by
  have hreach := h.isSpeed_reachableFrom hspeed.isNaN
  rw [hreach.le_iff (h.isSpeed_reachableFrom hspeed'.isNaN)]
  exact ramp_mono h.gain_isFinite (value_pos_iff.mp h.gain_pos).2 hspeed hspeed'
    ((hspeed.le_iff hspeed').mp hle)

theorem le_reachableFrom (hspeed : speed.isNaN = false) : speed ≤ move.reachableFrom speed := by
  have hreach := h.isSpeed_reachableFrom hspeed
  rw [Binary64.le_iff]
  refine ⟨hspeed, hreach.isNaN, ?_⟩
  rcases le_or_gt 0 (value speed) with hnonneg | hneg
  · exact le_ramp h.gain_isFinite (value_pos_iff.mp h.gain_pos).2 ⟨hspeed, hnonneg⟩
  · exact hneg.le.trans hreach.nonneg

/-- Over the move one can speed up from any speed, and brake back to it. -/
theorem le_reachableFrom_reachableFrom (hspeed : speed.isNaN = false) :
    speed ≤ move.reachableFrom (move.reachableFrom speed) :=
  Binary64.le_trans (h.le_reachableFrom hspeed)
    (h.le_reachableFrom (h.isSpeed_reachableFrom hspeed).isNaN)

end Regular

end Move
end StepMotion
