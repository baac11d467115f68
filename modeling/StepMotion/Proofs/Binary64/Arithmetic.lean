import StepMotion.Proofs.Binary64.Value

/-! Products, sums and square roots of doubles are the rounded real ones, cut off at the
infinities. -/
namespace StepMotion.Binary64

open Float.Model UnpackedFloat

noncomputable section

section Residue

variable {em : ExtendedMantissa} {r : ℝ}

theorem Locates.shiftRightOne (h : Locates em r) : Locates em.shiftRightOne (r / 2) := by
  obtain ⟨tail, hr, hlow, hhigh, hsticky⟩ := h
  have hmantissa : (em.mantissa : ℝ) = 2 * (em.mantissa / 2 : ℕ) + (em.mantissa % 2 : ℕ) := by
    exact_mod_cast (Nat.div_add_mod em.mantissa 2).symm
  refine ⟨((if em.roundBit then 1 / 2 else 0) + tail) / 2, ?_, ?_, ?_, ?_⟩
  · rw [hr, hmantissa]
    rcases Nat.mod_two_eq_zero_or_one em.mantissa with heven | hodd
    · simp [ExtendedMantissa.shiftRightOne, heven]
      ring
    · simp [ExtendedMantissa.shiftRightOne, hodd]
      ring
  · split <;> linarith
  · split <;> linarith
  · simp only [ExtendedMantissa.shiftRightOne, Bool.or_eq_false_iff, ← hsticky]
    cases em.roundBit with
    | false => simp
    | true =>
      simp only [↓reduceIte, Bool.true_eq_false, false_and, iff_false]
      linarith

theorem Locates.shiftRight (h : Locates em r) (n : Nat) : Locates (em >>> n) (r / 2 ^ n) := by
  change Locates (n.repeat ExtendedMantissa.shiftRightOne em) _
  induction n with
  | zero => simpa [Nat.repeat] using h
  | succ n ih =>
    have hone := ih.shiftRightOne
    rwa [div_div, ← pow_succ] at hone

theorem Locates.roundedMantissa (h : Locates em r) :
    (em.roundedMantissa : ℤ) = nearestEven r := by
  obtain ⟨tail, rfl, hlow, hhigh, hsticky⟩ := h
  obtain ⟨m, round, sticky⟩ := em
  symm
  cases round with
  | false =>
    -- Below the half the significand stays, whether or not bits are left.
    have hround : (ExtendedMantissa.mk m false sticky).roundedMantissa = m := by
      cases sticky <;> rfl
    have hdistance : |(m : ℝ) + 0 + tail - ((m : ℤ) : ℝ)| = tail := by
      rw [Int.cast_natCast, add_zero, add_sub_cancel_left, abs_of_nonneg hlow]
    rw [hround]
    apply nearestEven_eq <;> simp only [Bool.false_eq_true, ↓reduceIte, hdistance]
    · exact hhigh.le
    · exact fun htie => absurd htie hhigh.ne
  | true =>
    cases sticky with
    | false =>
      obtain rfl : tail = 0 := hsticky.mpr rfl
      have hround : (ExtendedMantissa.mk m true false).roundedMantissa = m + m % 2 := rfl
      rw [hround]
      apply nearestEven_eq
      · rcases Nat.mod_two_eq_zero_or_one m with heven | hodd
        · simp [heven]
        · simp [hodd]
          norm_num
      · intro _
        exact_mod_cast Nat.even_iff.mpr (by omega : (m + m % 2) % 2 = 0)
    | true =>
      have hpos : 0 < tail := lt_of_le_of_ne hlow fun hzero => by simpa using hsticky.mp hzero.symm
      have hround : (ExtendedMantissa.mk m true true).roundedMantissa = m + 1 := rfl
      have hdistance : |(m : ℝ) + 1 / 2 + tail - ((m + 1 : ℕ) : ℤ)| = 1 / 2 - tail := by
        push_cast
        rw [abs_sub_comm, abs_of_nonneg] <;> linarith
      rw [hround]
      apply nearestEven_eq <;> simp only [↓reduceIte, hdistance]
      · linarith
      · intro htie
        linarith

theorem Locates.shiftToExponent {m : Nat} {e : Int} {accuracy : Accuracy} {x : ℝ}
    (h : Locates (.ofMantissaAndAccuracy m accuracy) (x / 2 ^ e)) (target : Int) :
    (shiftToExponent m e accuracy target).2 = max e target ∧
      Locates (shiftToExponent m e accuracy target).1 (x / 2 ^ max e target) := by
  have hexponent : e + ((target - e).toNat : Int) = max e target := by omega
  refine ⟨hexponent, ?_⟩
  have hshift := h.shiftRight (target - e).toNat
  rwa [div_div, ← zpow_natCast, ← two_zpow_add, hexponent] at hshift

theorem Locates.floor {m : Nat} {accuracy : Accuracy}
    (h : Locates (.ofMantissaAndAccuracy m accuracy) r) : (m : ℝ) ≤ r ∧ r < m + 1 := by
  obtain ⟨tail, hr, hlow, hhigh, -⟩ := h
  have hmantissa : (ExtendedMantissa.ofMantissaAndAccuracy m accuracy).mantissa = m := by
    unfold ExtendedMantissa.ofMantissaAndAccuracy
    split <;> rfl
  rw [hr, hmantissa]
  split <;> constructor <;> linarith

theorem locates_exact (m : Nat) : Locates (.ofMantissaAndAccuracy m .exact) m :=
  ⟨0, by simp [ExtendedMantissa.ofMantissaAndAccuracy]⟩

theorem locates_lower (m : Nat) {r : ℝ} (hlow : m < r) (hhalf : r < m + 1 / 2) :
    Locates (.ofMantissaAndAccuracy m (.inexact .lt)) r := by
  refine ⟨r - m, ?_, by linarith, by linarith, ?_⟩
  · simp [ExtendedMantissa.ofMantissaAndAccuracy]
  · simp only [ExtendedMantissa.ofMantissaAndAccuracy, Bool.true_eq_false, iff_false]
    linarith

theorem locates_half (m : Nat) : Locates (.ofMantissaAndAccuracy m (.inexact .eq)) (m + 1 / 2) := by
  refine ⟨0, ?_, le_refl 0, by norm_num, ?_⟩
  · simp [ExtendedMantissa.ofMantissaAndAccuracy]
  · simp [ExtendedMantissa.ofMantissaAndAccuracy]

theorem locates_upper (m : Nat) {r : ℝ} (hhalf : m + 1 / 2 < r) (hhigh : r < m + 1) :
    Locates (.ofMantissaAndAccuracy m (.inexact .gt)) r := by
  refine ⟨r - m - 1 / 2, ?_, by linarith, by linarith, ?_⟩
  · simp [ExtendedMantissa.ofMantissaAndAccuracy]
  · simp only [ExtendedMantissa.ofMantissaAndAccuracy, Bool.true_eq_false, iff_false]
    linarith

end Residue

section Rounding

theorem lastPlace_of_tiny {r : ℝ} (h : 0 < r) (hlt : r < 2 ^ (-1021 : ℤ)) :
    lastPlace r = -1074 := by
  have hlog : Int.log 2 r < -1021 := by
    rw [← Int.lt_zpow_iff_log_lt one_lt_two h, Nat.cast_ofNat]
    exact hlt
  unfold lastPlace
  rw [abs_of_pos h]
  omega

/-- The exponent that a result is shifted to is that of the last place that it keeps. -/
theorem targetExponent_eq_lastPlace {m : Nat} {e : Int} {x : ℝ} (hx : 0 < x)
    (hbits : 2 ^ 52 ≤ m ∨ e ≤ -1074) (hlow : (m : ℝ) ≤ x / 2 ^ e) (hhigh : x / 2 ^ e < m + 1) :
    Format.binary64.targetExponent (totalExponent m e) = lastPlace x := by
  rw [le_div_iff₀ (two_zpow_pos e)] at hlow
  rw [div_lt_iff₀ (two_zpow_pos e)] at hhigh
  have hmin : Format.binary64.minExponent = -1074 := by decide
  have hwidth : Format.binary64.mantissaBits = 53 := by decide
  rcases Nat.eq_zero_or_pos m with rfl | hm
  · -- Without a bit in front of the point the number is below the least one.
    have he : e ≤ -1074 := hbits.resolve_left (by decide)
    have htiny : x < 2 ^ (-1021 : ℤ) := by
      calc
        x < 2 ^ e := by simpa using hhigh
        _ ≤ 2 ^ (-1021 : ℤ) := two_zpow_le (by omega)
    rw [lastPlace_of_tiny hx htiny]
    unfold Format.targetExponent totalExponent
    rw [hmin, hwidth, Nat.log2_zero]
    omega
  have hbits : (2 : ℝ) ^ (m.log2 : ℤ) ≤ m := by exact_mod_cast Nat.log2_self_le hm.ne'
  have hbits' : (m : ℝ) + 1 ≤ 2 ^ (m.log2 + 1 : ℤ) := by
    exact_mod_cast (Nat.log2_lt hm.ne').mp (Nat.lt_succ_self m.log2)
  have hle : (m.log2 : ℤ) + e ≤ Int.log 2 x := by
    rw [← Int.zpow_le_iff_le_log one_lt_two hx, Nat.cast_ofNat, two_zpow_add]
    exact (mul_le_mul_of_nonneg_right hbits (two_zpow_pos e).le).trans hlow
  have hlt : Int.log 2 x < m.log2 + 1 + e := by
    rw [← Int.lt_zpow_iff_log_lt one_lt_two hx, Nat.cast_ofNat, two_zpow_add]
    exact hhigh.trans_le (mul_le_mul_of_nonneg_right hbits' (two_zpow_pos e).le)
  unfold Format.targetExponent totalExponent lastPlace
  rw [hmin, hwidth, abs_of_pos hx]
  omega

theorem le_targetExponent {m : Nat} {e : Int} (hbits : 2 ^ 52 ≤ m ∨ e ≤ -1074) :
    e ≤ Format.binary64.targetExponent (totalExponent m e) := by
  have hmin : Format.binary64.minExponent = -1074 := by decide
  have hwidth : Format.binary64.mantissaBits = 53 := by decide
  have hlog : 2 ^ 52 ≤ m → 52 ≤ m.log2 := fun hm => (Nat.le_log2 (by omega)).mpr hm
  unfold Format.targetExponent totalExponent
  rw [hmin, hwidth]
  omega

theorem nearestEven_lastPlace_le {x : ℝ} (hx : 0 < x) :
    nearestEven (x / 2 ^ lastPlace x) ≤ 2 ^ 53 := by
  have hle := rounded_le hx
  rw [rounded, add_comm, two_zpow_add] at hle
  exact_mod_cast le_of_mul_le_mul_right hle (two_zpow_pos _)

theorem le_nearestEven_lastPlace {x : ℝ} (hx : 0 < x) (hplace : -1074 < lastPlace x) :
    2 ^ 52 ≤ nearestEven (x / 2 ^ lastPlace x) := by
  have hle := le_rounded hx hplace
  rw [rounded, add_comm, two_zpow_add] at hle
  exact_mod_cast le_of_mul_le_mul_right hle (two_zpow_pos _)

theorem carry_spec {m : Nat} {e : Int} (hm : m ≤ 2 ^ 53) (hlow : -1074 ≤ e)
    (hfull : e = -1074 ∨ 2 ^ 52 ≤ m) :
    let shifted := shiftToTargetExponent Format.binary64 m e .exact
    Fits shifted.1.mantissa shifted.2 ∧ (shifted.1.mantissa : ℝ) * 2 ^ shifted.2 = m * 2 ^ e := by
  have hmin : Format.binary64.minExponent = -1074 := by decide
  have hwidth : Format.binary64.mantissaBits = 53 := by decide
  dsimp only
  unfold shiftToTargetExponent shiftToExponent
  dsimp only
  rcases hm.eq_or_lt with hwide | hfits
  · -- One more bit than the format has: the significand is even and is halved.
    have htarget : Format.binary64.targetExponent (totalExponent m e) = e + 1 := by
      subst hwide
      unfold Format.targetExponent totalExponent
      rw [Nat.log2_two_pow, hmin, hwidth]
      omega
    rw [htarget, show (e + 1 - e).toNat = 1 by omega]
    subst hwide
    refine ⟨⟨by decide, by omega, .inr (by decide)⟩, ?_⟩
    change ((2 ^ 53 / 2 : ℕ) : ℝ) * 2 ^ (e + 1) = _
    rw [two_zpow_add]
    norm_num
    ring
  · have htarget : Format.binary64.targetExponent (totalExponent m e) ≤ e := by
      have hlog : m.log2 ≤ 52 := by
        by_cases hzero : m = 0
        · simp [hzero]
        · exact Nat.le_of_lt_succ ((Nat.log2_lt hzero).mpr hfits)
      unfold Format.targetExponent totalExponent
      rw [hmin, hwidth]
      omega
    rw [show (Format.binary64.targetExponent (totalExponent m e) - e).toNat = 0 by omega]
    change Fits m (e + (0 : ℕ)) ∧ (m : ℝ) * 2 ^ (e + (0 : ℕ)) = _
    rw [Nat.cast_zero, add_zero]
    exact ⟨⟨hfits, hlow, hfull⟩, rfl⟩

/-- Rounding the number that a significand and its accuracy locate. -/
theorem roundWithAccuracy_spec (s : Sign) {m : Nat} {e : Int} {accuracy : Accuracy} {x : ℝ}
    (hx : 0 < x) (hbits : 2 ^ 52 ≤ m ∨ e ≤ -1074)
    (h : Locates (.ofMantissaAndAccuracy m accuracy) (x / 2 ^ e)) :
    let u := roundWithAccuracy Format.binary64 s m e accuracy
    Rounded u ∧ u.isNaN = false ∧ realOf u = sign s * rounded x := by
  have hplace : Format.binary64.targetExponent (totalExponent m e) = lastPlace x :=
    targetExponent_eq_lastPlace hx hbits h.floor.1 h.floor.2
  have hle : e ≤ lastPlace x := by
    rw [← hplace]
    exact le_targetExponent hbits
  obtain ⟨hexponent, hlocates⟩ := h.shiftToExponent (lastPlace x)
  rw [max_eq_right hle] at hexponent hlocates
  have hfirst : shiftToTargetExponent Format.binary64 m e accuracy =
      ((shiftToExponent m e accuracy (lastPlace x)).1, lastPlace x) := by
    unfold shiftToTargetExponent
    rw [hplace]
    exact Prod.ext rfl hexponent
  generalize (shiftToExponent m e accuracy (lastPlace x)).1 = em at hlocates hfirst
  have hnearest := hlocates.roundedMantissa
  have hlow := le_lastPlace x
  have hwide : em.roundedMantissa ≤ 2 ^ 53 := by
    have hnear := nearestEven_lastPlace_le hx
    rw [← hnearest] at hnear
    exact_mod_cast hnear
  have hfull : lastPlace x = -1074 ∨ 2 ^ 52 ≤ em.roundedMantissa := by
    rcases hlow.eq_or_lt with heq | hlt
    · exact .inl heq.symm
    · have hnear := le_nearestEven_lastPlace hx hlt
      rw [← hnearest] at hnear
      exact .inr (by exact_mod_cast hnear)
  obtain ⟨hfits, hvalue⟩ := carry_spec hwide hlow hfull
  rw [← Int.cast_natCast em.roundedMantissa, hnearest] at hvalue
  unfold roundWithAccuracy
  rw [hfirst]
  dsimp only
  generalize shiftToTargetExponent Format.binary64 em.roundedMantissa (lastPlace x) .exact =
    shifted at hfits hvalue
  split
  · next hzero =>
    refine ⟨trivial, rfl, ?_⟩
    rw [rounded, ← hvalue, hzero, Nat.cast_zero, zero_mul, mul_zero]
    rfl
  · refine ⟨hfits, rfl, ?_⟩
    rw [realOf, hvalue, rounded]

end Rounding

section Operations

theorem rounded_sign_mul (s : Sign) (r : ℝ) : rounded (sign s * r) = sign s * rounded r := by
  cases s with
  | positive => rw [sign_positive, one_mul, one_mul]
  | negative => rw [sign_negative, neg_one_mul, neg_one_mul, rounded_neg]

/-- An operation gives the rounded `r`, before it is cut off at the infinities. -/
structure Rounds (u : UnpackedFloat) (r : ℝ) : Prop where
  rounded : Rounded u
  isNaN : u.isNaN = false
  realOf : realOf u = Binary64.rounded r

theorem rounded_fits {m : Nat} {e : ℤ} (h : Fits m e) :
    rounded ((m : ℝ) * 2 ^ e) = m * 2 ^ e := by
  have hbits : |(m : ℤ)| < 2 ^ 53 := by
    rw [Nat.abs_cast]
    exact_mod_cast h.lt
  have hstays := rounded_of_bits hbits h.low
  rwa [Int.cast_natCast] at hstays

theorem rounded_realOf {u : UnpackedFloat} (h : Canonical u) (hfinite : u.isFinite = true) :
    Rounds u (realOf u) := by
  cases u with
  | notANumber => contradiction
  | infinity s => contradiction
  | zero s => exact ⟨trivial, rfl, rounded_zero.symm⟩
  | finite s m e hm =>
    refine ⟨h.1, rfl, ?_⟩
    rw [realOf, rounded_sign_mul, rounded_fits h.1]

theorem mul_rounds {u v : UnpackedFloat} (hu : Canonical u) (hv : Canonical v)
    (hufinite : u.isFinite = true) (hvfinite : v.isFinite = true) :
    Rounds (UnpackedFloat.mul Format.binary64 u v) (realOf u * realOf v) := by
  cases u with
  | notANumber => contradiction
  | infinity s => contradiction
  | zero s =>
    cases v with
    | notANumber => contradiction
    | infinity t => contradiction
    | _ => exact ⟨trivial, rfl, by rw [realOf_zero, zero_mul, rounded_zero]; rfl⟩
  | finite s m e hm =>
    cases v with
    | notANumber => contradiction
    | infinity t => contradiction
    | zero t => exact ⟨trivial, rfl, by rw [realOf_zero, mul_zero, rounded_zero]; rfl⟩
    | finite t n d hn =>
      have hbits : 2 ^ 52 ≤ m * n ∨ e + d ≤ -1074 := by
        rcases hu.1.full with he | hm'
        · rcases hv.1.full with hd | hn'
          · exact .inr (by omega)
          · exact .inl (hn'.trans (Nat.le_mul_of_pos_left n hm))
        · exact .inl (hm'.trans (Nat.le_mul_of_pos_right m hn))
      have hlocates : Locates (.ofMantissaAndAccuracy (m * n) .exact)
          ((m : ℝ) * 2 ^ e * (n * 2 ^ d) / 2 ^ (e + d)) := by
        have hproduct : (m : ℝ) * 2 ^ e * (n * 2 ^ d) / 2 ^ (e + d) = (m * n : ℕ) := by
          rw [div_eq_iff (two_zpow_pos _).ne', two_zpow_add]
          push_cast
          ring
        rw [hproduct]
        exact locates_exact (m * n)
      obtain ⟨hrounded, hnumber, hvalue⟩ :=
        roundWithAccuracy_spec (s * t) (mul_pos (finite_pos hm e) (finite_pos hn d)) hbits hlocates
      refine ⟨hrounded, hnumber, hvalue.trans ?_⟩
      rw [← rounded_sign_mul, sign_mul, realOf, realOf, mul_mul_mul_comm]

theorem cast_shiftLeft (m : Nat) {e low : Int} (h : low ≤ e) :
    ((m <<< (e - low).toNat : ℕ) : ℝ) * 2 ^ low = m * 2 ^ e := by
  rw [Nat.shiftLeft_eq, Nat.cast_mul, Nat.cast_pow, Nat.cast_ofNat, ← zpow_natCast,
    Int.toNat_of_nonneg (by omega), mul_assoc, ← two_zpow_add, sub_add_cancel]

theorem cast_aligned (s : Sign) (m : Nat) {e low : Int} (h : low ≤ e) :
    (s.apply (m <<< (e - low).toNat : ℕ) : ℝ) * 2 ^ low = sign s * (m * 2 ^ e) := by
  rw [cast_apply, Int.cast_natCast, mul_assoc, cast_shiftLeft m h]

theorem two_pow_le_shiftLeft {m k n : Nat} (hm : 0 < m) (h : n ≤ m.log2 + k) :
    2 ^ n ≤ m <<< k := by
  rw [Nat.shiftLeft_eq]
  calc
    2 ^ n ≤ 2 ^ (m.log2 + k) := Nat.pow_le_pow_right two_pos h
    _ = 2 ^ m.log2 * 2 ^ k := pow_add 2 _ _
    _ ≤ m * 2 ^ k := Nat.mul_le_mul_right _ (Nat.log2_self_le hm.ne')

theorem round_rounds (s : Sign) {m : Nat} (hm : 0 < m) (e : Int) :
    Rounds (UnpackedFloat.round Format.binary64 s m e) (sign s * (m * 2 ^ e)) := by
  have hmin : Format.binary64.minExponent = -1074 := by decide
  have hwidth : Format.binary64.mantissaBits = 53 := by decide
  unfold UnpackedFloat.round decreaseExponent
  dsimp only
  generalize hshift : (e - Format.binary64.targetExponent (totalExponent m e)).toNat = k
  have hbits : 2 ^ 52 ≤ m <<< k ∨ e - k ≤ -1074 := by
    have hwide : 52 ≤ m.log2 + k ∨ e - k ≤ -1074 := by
      unfold Format.targetExponent totalExponent at hshift
      rw [hmin, hwidth] at hshift
      omega
    exact hwide.imp_left (two_pow_le_shiftLeft hm)
  have hlocates : Locates (.ofMantissaAndAccuracy (m <<< k) .exact)
      ((m : ℝ) * 2 ^ e / 2 ^ (e - k : ℤ)) := by
    have hscaled : (m : ℝ) * 2 ^ e / 2 ^ (e - k : ℤ) = (m <<< k : ℕ) := by
      rw [div_eq_iff (two_zpow_pos _).ne', Nat.shiftLeft_eq, Nat.cast_mul, Nat.cast_pow,
        Nat.cast_ofNat, ← zpow_natCast, mul_assoc, ← two_zpow_add, add_sub_cancel]
    rw [hscaled]
    exact locates_exact _
  obtain ⟨hrounded, hnumber, hvalue⟩ := roundWithAccuracy_spec s (finite_pos hm e) hbits hlocates
  exact ⟨hrounded, hnumber, by rw [hvalue, rounded_sign_mul]⟩

theorem normalize_rounds (m : Int) (e : Int) (zero : Sign) :
    Rounds (UnpackedFloat.normalize Format.binary64 m e zero) (m * 2 ^ e) := by
  unfold UnpackedFloat.normalize
  split
  · next hlt =>
    rw [compare_lt_iff_lt] at hlt
    have hcast : ((-m).toNat : ℝ) = -m := by exact_mod_cast Int.toNat_of_nonneg (by omega)
    have hround := round_rounds .negative (by omega : 0 < (-m).toNat) e
    rwa [hcast, sign_negative, neg_one_mul, neg_mul, neg_neg] at hround
  · next heq =>
    rw [compare_eq_iff_eq] at heq
    subst heq
    refine ⟨trivial, rfl, ?_⟩
    rw [Int.cast_zero, zero_mul, rounded_zero, realOf_zero]
  · next hgt =>
    rw [compare_gt_iff_gt] at hgt
    have hcast : (m.toNat : ℝ) = m := by exact_mod_cast Int.toNat_of_nonneg (by omega)
    have hround := round_rounds .positive (by omega : 0 < m.toNat) e
    rwa [hcast, sign_positive, one_mul] at hround

theorem add_rounds {u v : UnpackedFloat} (hu : Canonical u) (hv : Canonical v)
    (hufinite : u.isFinite = true) (hvfinite : v.isFinite = true) :
    Rounds (UnpackedFloat.add Format.binary64 u v) (realOf u + realOf v) := by
  have hurounds := rounded_realOf hu hufinite
  have hvrounds := rounded_realOf hv hvfinite
  cases u with
  | notANumber => contradiction
  | infinity s => contradiction
  | zero s =>
    rw [realOf_zero, zero_add]
    cases v with
    | notANumber => contradiction
    | infinity t => contradiction
    | zero t =>
      rw [realOf_zero] at hvrounds ⊢
      cases s <;> cases t <;> exact ⟨trivial, rfl, rounded_zero.symm⟩
    | finite t n d hn => exact hvrounds
  | finite s m e hm =>
    cases v with
    | notANumber => contradiction
    | infinity t => contradiction
    | zero t =>
      rw [realOf_zero, add_zero]
      exact hurounds
    | finite t n d hn =>
      have hsum := normalize_rounds (s.apply (m <<< (e - min e d).toNat : ℕ) +
        t.apply (n <<< (d - min e d).toNat : ℕ)) (min e d) .positive
      rw [Int.cast_add, add_mul, cast_aligned s m (min_le_left e d),
        cast_aligned t n (min_le_right e d)] at hsum
      exact hsum

theorem locates_sqrt (n : Nat) :
    Locates (.ofMantissaAndAccuracy n.sqrt
      (if n - n.sqrt * n.sqrt = 0 then .exact
        else .inexact (if n - n.sqrt * n.sqrt ≤ n.sqrt then .lt else .gt))) (√n) := by
  have hle : n.sqrt * n.sqrt ≤ n := Nat.sqrt_le n
  have hlt : n < (n.sqrt + 1) * (n.sqrt + 1) := Nat.lt_succ_sqrt n
  generalize n.sqrt = root at hle hlt
  have hroot : (0 : ℝ) ≤ root := Nat.cast_nonneg root
  have hhigh : √(n : ℝ) < root + 1 := by
    rw [Real.sqrt_lt' (by linarith), pow_two]
    exact_mod_cast hlt
  split
  · next hexact =>
    have hsquare : (n : ℝ) = root * root := by exact_mod_cast (by omega : n = root * root)
    rw [hsquare, Real.sqrt_mul_self hroot]
    exact locates_exact root
  · next hrest =>
    split
    · next hless =>
      have hlow : (root : ℝ) < √n := by
        rw [Real.lt_sqrt hroot, pow_two]
        exact_mod_cast (by omega : root * root < n)
      have hhalf : √(n : ℝ) < root + 1 / 2 := by
        have hbound : (n : ℝ) ≤ root * root + root := by
          exact_mod_cast (by omega : n ≤ root * root + root)
        rw [Real.sqrt_lt' (by linarith)]
        linarith [add_sq (root : ℝ) (1 / 2)]
      exact locates_lower root hlow hhalf
    · next hmore =>
      have hhalf : (root : ℝ) + 1 / 2 < √n := by
        have hbound : (root : ℝ) * root + root + 1 ≤ n := by
          exact_mod_cast (by omega : root * root + root + 1 ≤ n)
        rw [Real.lt_sqrt (by linarith)]
        linarith [add_sq (root : ℝ) (1 / 2)]
      exact locates_upper root hhalf hhigh

theorem sqrt_rounds {u : UnpackedFloat} (hfinite : u.isFinite = true) (hnonneg : 0 ≤ realOf u) :
    Rounds (UnpackedFloat.sqrt Format.binary64 u) (√(realOf u)) := by
  cases u with
  | notANumber => contradiction
  | infinity s => contradiction
  | zero s => exact ⟨trivial, rfl, by rw [realOf_zero, Real.sqrt_zero, rounded_zero]; rfl⟩
  | finite s m e hm =>
    cases s with
    | negative =>
      have hpos := finite_pos hm e
      rw [realOf, sign_negative] at hnonneg
      linarith
    | positive =>
      rw [realOf, sign_positive, one_mul]
      have hmin : Format.binary64.minExponent = -1074 := by decide
      have hwidth : Format.binary64.mantissaBits = 53 := by decide
      unfold UnpackedFloat.sqrt sqrtCore
      dsimp only
      generalize hplace : min (e.ediv 2)
        (Format.binary64.targetExponent ((totalExponent m e + 1).ediv 2)) = place
      have hhalf : e.ediv 2 = e / 2 := rfl
      have hlow : 2 * place ≤ e := by omega
      have hshifted := cast_shiftLeft m hlow
      have hbits : 2 ^ 52 ≤ (m <<< (e - 2 * place).toNat).sqrt ∨ place ≤ -1074 := by
        have hwide : 104 ≤ m.log2 + (e - 2 * place).toNat ∨ place ≤ -1074 := by
          have hhalf' : (totalExponent m e + 1).ediv 2 = (totalExponent m e + 1) / 2 := rfl
          unfold Format.targetExponent at hplace
          rw [hmin, hwidth, hhalf'] at hplace
          unfold totalExponent at hplace
          omega
        refine hwide.imp_left fun hle => Nat.le_sqrt.mpr ?_
        exact two_pow_le_shiftLeft hm hle
      generalize m <<< (e - 2 * place).toNat = n at hshifted hbits
      have hlocates : √((m : ℝ) * 2 ^ e) / 2 ^ place = √n := by
        rw [← hshifted, two_mul, two_zpow_add, Real.sqrt_mul (Nat.cast_nonneg n),
          Real.sqrt_mul_self (two_zpow_pos _).le, mul_div_cancel_right₀ _ (two_zpow_pos _).ne']
      obtain ⟨hrounded, hnumber, hvalue⟩ :=
        roundWithAccuracy_spec .positive (Real.sqrt_pos.mpr (finite_pos hm e)) hbits
          (by rw [hlocates]; exact locates_sqrt n)
      exact ⟨hrounded, hnumber, by rw [hvalue, sign_positive, one_mul]⟩

/-- A double that is the rounded `r`, cut off at the infinities. -/
structure Nearest (x : Float) (r : ℝ) : Prop where
  isNaN : x.isNaN = false
  value : value x = saturated (rounded r)

theorem Rounds.nearest {u : UnpackedFloat} {r : ℝ} (h : Rounds u r) : Nearest (pack u) r :=
  ⟨(isNaN_pack h.rounded).trans h.isNaN, by rw [value_pack h.rounded, h.realOf]⟩

variable {x y : Float}

theorem nearest_mul (hx : x.isFinite = true) (hy : y.isFinite = true) :
    Nearest (x * y) (value x * value y) :=
  (mul_rounds (canonical_unpack x) (canonical_unpack y) hx hy).nearest

theorem nearest_add (hx : x.isFinite = true) (hy : y.isFinite = true) :
    Nearest (x + y) (value x + value y) :=
  (add_rounds (canonical_unpack x) (canonical_unpack y) hx hy).nearest

theorem nearest_sqrt (hx : x.isFinite = true) (hnonneg : 0 ≤ value x) :
    Nearest x.sqrt (√(value x)) :=
  (sqrt_rounds hx hnonneg).nearest

theorem rounded_limit : rounded limit = limit := by
  have hbits := rounded_of_bits (m := 1) (e := 1024) (by norm_num) (by norm_num)
  rwa [Int.cast_one, one_mul] at hbits

theorem rounded_value (x : Float) : rounded (value x) = value x := by
  by_cases hfinite : (unpack x).isFinite = true
  · exact (rounded_realOf (canonical_unpack x) hfinite).realOf.symm
  · change rounded (realOf (unpack x)) = realOf (unpack x)
    cases hu : unpack x with
    | notANumber => exact rounded_zero
    | infinity s =>
      rw [realOf, rounded_sign_mul, rounded_limit]
    | zero s => exact absurd (by rw [hu]; rfl) hfinite
    | finite s m e hm => exact absurd (by rw [hu]; rfl) hfinite

theorem value_sqrt_nonneg (x : Float) : 0 ≤ value x.sqrt := by
  by_cases hfinite : x.isFinite = true ∧ 0 ≤ value x
  · rw [(nearest_sqrt hfinite.1 hfinite.2).value]
    exact saturated_nonneg (rounded_nonneg (Real.sqrt_nonneg _))
  · change 0 ≤ realOf (unpack (pack (UnpackedFloat.sqrt Format.binary64 (unpack x))))
    have hspecial : UnpackedFloat.sqrt Format.binary64 (unpack x) = .notANumber ∨
        UnpackedFloat.sqrt Format.binary64 (unpack x) = .infinity .positive := by
      change ¬ ((unpack x).isFinite = true ∧ 0 ≤ realOf (unpack x)) at hfinite
      generalize unpack x = u at hfinite
      cases u with
      | notANumber => exact .inl rfl
      | infinity s => cases s <;> first | exact .inr rfl | exact .inl rfl
      | zero s => exact absurd ⟨rfl, le_refl _⟩ hfinite
      | finite s m e hm =>
        cases s with
        | negative => exact .inl rfl
        | positive =>
          refine absurd ⟨rfl, ?_⟩ hfinite
          rw [realOf, sign_positive, one_mul]
          exact (finite_pos hm e).le
    rcases hspecial with h | h <;> rw [h, unpack_pack_of_not_finite (by simp)]
    · exact le_refl _
    · rw [realOf, sign_positive, one_mul]
      exact limit_pos.le

theorem rounded_limit_le {r : ℝ} (h : limit ≤ r) : saturated (rounded r) = limit := by
  apply saturated_of_le
  rw [← rounded_limit]
  exact rounded_mono limit_pos.le h

theorem value_infinity : value (pack (.infinity .positive)) = limit := by
  rw [value_pack_of_canonical (u := .infinity .positive) trivial, realOf, sign_positive, one_mul]

theorem nearest_infinity {r : ℝ} (h : limit ≤ r) : Nearest (pack (.infinity .positive)) r := by
  refine ⟨isNaN_pack trivial, ?_⟩
  rw [rounded_limit_le h, value_infinity]

theorem exists_infinity (hx : x.isNaN = false) (hfinite : ¬ x.isFinite = true) :
    ∃ s, unpack x = .infinity s := by
  change (unpack x).isNaN = false at hx
  change ¬ (unpack x).isFinite = true at hfinite
  cases hu : unpack x with
  | infinity s => exact ⟨s, rfl⟩
  | _ => simp [hu, UnpackedFloat.isFinite, UnpackedFloat.isNaN] at hx hfinite

theorem unpack_eq_infinity (hx : x.isNaN = false) (hnonneg : 0 ≤ value x)
    (hfinite : ¬ x.isFinite = true) : unpack x = .infinity .positive := by
  obtain ⟨s, hs⟩ := exists_infinity hx hfinite
  rw [value, hs] at hnonneg
  obtain rfl := infinity_of_nonneg hnonneg
  exact hs

/-- Squaring an infinity overflows as squaring a large number does. -/
theorem nearest_mul_self (hx : x.isNaN = false) : Nearest (x * x) (value x * value x) := by
  by_cases hfinite : x.isFinite = true
  · exact nearest_mul hfinite hfinite
  · obtain ⟨s, hu⟩ := exists_infinity hx hfinite
    have hproduct : x * x = pack (.infinity .positive) := by
      change pack (UnpackedFloat.mul Format.binary64 (unpack x) (unpack x)) = _
      rw [hu]
      cases s <;> rfl
    have hsquare : value x * value x = limit * limit := by
      rw [← abs_mul_abs_self, value, hu, abs_realOf_infinity]
    rw [hproduct]
    apply nearest_infinity
    rw [hsquare]
    exact limit_le_mul_self le_rfl

theorem value_mul_self_mono (hx : x.isNaN = false) (hy : y.isNaN = false) (hnonneg : 0 ≤ value x)
    (h : value x ≤ value y) : value (x * x) ≤ value (y * y) := by
  rw [(nearest_mul_self hx).value, (nearest_mul_self hy).value]
  exact saturated_mono (rounded_mono (mul_self_nonneg _) (mul_self_le_mul_self hnonneg h))

theorem nearest_add_of_nonneg (hx : x.isNaN = false) (hxnonneg : 0 ≤ value x)
    (hy : y.isNaN = false) (hynonneg : 0 ≤ value y) : Nearest (x + y) (value x + value y) := by
  by_cases hfinite : x.isFinite = true ∧ y.isFinite = true
  · exact nearest_add hfinite.1 hfinite.2
  have hover : x + y = pack (.infinity .positive) ∧ limit ≤ value x + value y := by
    change pack (UnpackedFloat.add Format.binary64 (unpack x) (unpack y)) = _ ∧ _
    by_cases hxfinite : x.isFinite = true
    · have hyinfinity := unpack_eq_infinity hy hynonneg fun hyfinite => hfinite ⟨hxfinite, hyfinite⟩
      have hyvalue : value y = limit := by rw [value, hyinfinity, realOf, sign_positive, one_mul]
      refine ⟨?_, by linarith⟩
      change (unpack x).isFinite = true at hxfinite
      rw [hyinfinity]
      generalize unpack x = u at hxfinite
      cases u <;> first | rfl | contradiction
    · have hxinfinity := unpack_eq_infinity hx hxnonneg hxfinite
      have hxvalue : value x = limit := by rw [value, hxinfinity, realOf, sign_positive, one_mul]
      refine ⟨?_, by linarith⟩
      change (unpack y).isNaN = false at hy
      change 0 ≤ realOf (unpack y) at hynonneg
      rw [hxinfinity]
      generalize unpack y = v at hy hynonneg
      cases v with
      | notANumber => contradiction
      | infinity t =>
        obtain rfl := infinity_of_nonneg hynonneg
        rfl
      | _ => rfl
  rw [hover.1]
  exact nearest_infinity hover.2

theorem sqrt_infinity (hx : x.isNaN = false) (hnonneg : 0 ≤ value x)
    (hfinite : ¬ x.isFinite = true) : x.sqrt.isNaN = false ∧ value x.sqrt = limit := by
  have hroot : x.sqrt = pack (.infinity .positive) := by
    change pack (UnpackedFloat.sqrt Format.binary64 (unpack x)) = _
    rw [unpack_eq_infinity hx hnonneg hfinite]
    rfl
  rw [hroot]
  exact ⟨isNaN_pack trivial, value_infinity⟩

theorem isNaN_sqrt (hx : x.isNaN = false) (hnonneg : 0 ≤ value x) : x.sqrt.isNaN = false := by
  by_cases hfinite : x.isFinite = true
  · exact (nearest_sqrt hfinite hnonneg).isNaN
  · exact (sqrt_infinity hx hnonneg hfinite).1

theorem value_sqrt_mono (hx : x.isNaN = false) (hy : y.isNaN = false) (hnonneg : 0 ≤ value x)
    (h : value x ≤ value y) : value x.sqrt ≤ value y.sqrt := by
  have hynonneg := hnonneg.trans h
  by_cases hyfinite : y.isFinite = true
  · have hxfinite : x.isFinite = true := by
      rw [isFinite_iff, abs_of_nonneg hynonneg] at hyfinite
      rw [isFinite_iff, abs_of_nonneg hnonneg]
      exact ⟨hx, h.trans_lt hyfinite.2⟩
    rw [(nearest_sqrt hxfinite hnonneg).value, (nearest_sqrt hyfinite hynonneg).value]
    exact saturated_mono (rounded_mono (Real.sqrt_nonneg _) (Real.sqrt_le_sqrt h))
  · rw [(sqrt_infinity hy hynonneg hyfinite).2]
    exact (abs_le.mp (abs_value_le x.sqrt)).2

end Operations

end

end StepMotion.Binary64
