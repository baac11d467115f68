import StepMotion.Proofs.Binary64.Division

/-! Rounding to integers on the bits of a double is rounding the real number that it stands for, a
half away from zero. It keeps the order of numbers and leaves the integers alone. -/
namespace StepMotion.Binary64

open Float.Model
open UnpackedFloat hiding round

noncomputable section

/-- The nearest integer, of two the one that is further from zero. -/
def roundAway (r : ℝ) : ℤ := if 0 ≤ r then round r else -round (-r)

section Order

theorem roundAway_of_nonneg {r : ℝ} (h : 0 ≤ r) : roundAway r = round r := if_pos h

theorem round_mono {r s : ℝ} (h : r ≤ s) : round r ≤ round s := by
  rw [round_eq, round_eq]
  exact Int.floor_mono (by linarith)

theorem round_nonneg {r : ℝ} (h : 0 ≤ r) : 0 ≤ round r := by
  have hmono := round_mono h
  rwa [round_zero] at hmono

theorem roundAway_neg (r : ℝ) : roundAway (-r) = -roundAway r := by
  unfold roundAway
  rcases lt_trichotomy r 0 with hneg | rfl | hpos
  · rw [if_pos (by linarith), if_neg (by linarith), neg_neg]
  · simp
  · rw [if_neg (by linarith), if_pos hpos.le, neg_neg]

@[simp] theorem roundAway_intCast (n : ℤ) : roundAway n = n := by
  unfold roundAway
  split
  · exact round_intCast n
  · rw [← Int.cast_neg, round_intCast, neg_neg]

@[simp] theorem roundAway_zero : roundAway 0 = 0 := by exact_mod_cast roundAway_intCast 0

theorem roundAway_mono {r s : ℝ} (h : r ≤ s) : roundAway r ≤ roundAway s := by
  unfold roundAway
  split
  · next hr =>
    rw [if_pos (hr.trans h)]
    exact round_mono h
  · next hr =>
    have hleft := round_nonneg (r := -r) (by linarith)
    split
    · next hs =>
      have hright := round_nonneg hs
      omega
    · have hmono := round_mono (neg_le_neg h)
      omega

theorem nearestNat_eq_round (m : Nat) (e : Int) :
    (nearestNat m e : ℤ) = round ((m : ℝ) * 2 ^ e) := by
  cases e with
  | ofNat k =>
    have hpower : (m : ℝ) * 2 ^ (Int.ofNat k) = ((m * 2 ^ k : ℕ) : ℤ) := by
      rw [Int.ofNat_eq_natCast, zpow_natCast]
      push_cast
      rfl
    rw [hpower, round_intCast]
    rfl
  | negSucc k =>
    have hhalf : (m : ℝ) * 2 ^ (Int.negSucc k) + 1 / 2 =
        ((m + 2 ^ k : ℕ) : ℝ) / (2 ^ (k + 1) : ℕ) := by
      rw [zpow_negSucc]
      push_cast
      field_simp
      ring
    rw [round_eq, hhalf, Int.floor_div_natCast, Int.floor_natCast]
    rfl

end Order

section Bits

variable (b : BitVec 64)

theorem toNat_unpackMantissa : (@unpackMantissa Format.binary64 b).toNat = b.toNat % 2 ^ 52 := by
  simp only [unpackMantissa, BitVec.toNat_cast, BitVec.extractLsb_toNat]
  rfl

theorem toNat_unpackExponent :
    (@unpackExponent Format.binary64 b).toNat = b.toNat / 2 ^ 52 % 2 ^ 11 := by
  simp only [unpackExponent, BitVec.toNat_cast, BitVec.extractLsb_toNat]
  change (b.toNat >>> 52) % 2 ^ 11 = _
  rw [Nat.shiftRight_eq_div_pow]

theorem toNat_unpackSign : (@unpackSign Format.binary64 b).toNat = b.toNat / 2 ^ 63 := by
  have hlt := b.isLt
  simp only [unpackSign, BitVec.toNat_cast, BitVec.extractLsb_toNat]
  change (b.toNat >>> 63) % 2 ^ 1 = _
  rw [Nat.shiftRight_eq_div_pow]
  omega

end Bits

def signOf (x : Float) : Sign := if isNegative x then .negative else .positive

section Fields

variable (x : Float)

theorem exponentField_eq :
    exponentField x = (@unpackExponent Format.binary64 x.toBits.toBitVec).toNat := by
  rw [toNat_unpackExponent]
  change x.toBits.toNat % 2 ^ 63 / 2 ^ 52 = x.toBits.toNat / 2 ^ 52 % 2 ^ 11
  omega

theorem mantissaField_eq :
    (@unpackMantissa Format.binary64 x.toBits.toBitVec).toNat = magnitudeBits x % 2 ^ 52 := by
  rw [toNat_unpackMantissa]
  change x.toBits.toNat % 2 ^ 52 = x.toBits.toNat % 2 ^ 63 % 2 ^ 52
  omega

theorem ofBitVec_unpackSign :
    Sign.ofBitVec (@unpackSign Format.binary64 x.toBits.toBitVec) = signOf x := by
  have hbit : (@unpackSign Format.binary64 x.toBits.toBitVec).toNat = x.toBits.toNat / 2 ^ 63 :=
    toNat_unpackSign _
  have hlt : x.toBits.toNat < 2 ^ 64 := x.toBits.toBitVec.isLt
  unfold signOf isNegative Sign.ofBitVec
  change _ = if decide (2 ^ 63 ≤ x.toBits.toNat) = true then _ else _
  by_cases hsign : 2 ^ 63 ≤ x.toBits.toNat
  · rw [if_neg, if_pos (decide_eq_true hsign)]
    intro hzero
    rw [hzero] at hbit
    change 0 = _ at hbit
    omega
  · rw [if_pos, if_neg (by simpa using hsign)]
    apply BitVec.eq_of_toNat_eq
    rw [hbit]
    change _ = 0
    omega

theorem unpack_eq : unpack x = ofFields (signOf x)
    (@unpackExponent Format.binary64 x.toBits.toBitVec)
    (@unpackMantissa Format.binary64 x.toBits.toBitVec) := by
  rw [← ofBitVec_unpackSign]
  exact unpack_eq_ofFields _

theorem value_of_isFinite (h : isFinite x = true) :
    x.isFinite = true ∧ value x = sign (signOf x) * (significand x * 2 ^ exponent x) := by
  have hfield := exponentField_eq x
  have hmantissa := mantissaField_eq x
  have hmagnitude : exponentField x = 0 → magnitudeBits x % 2 ^ 52 = magnitudeBits x := by
    intro hzero
    change magnitudeBits x / 2 ^ 52 = 0 at hzero
    omega
  change (unpack x).isFinite = true ∧ realOf (unpack x) = _
  rw [unpack_eq]
  generalize @unpackExponent Format.binary64 x.toBits.toBitVec = e at hfield
  generalize @unpackMantissa Format.binary64 x.toBits.toBitVec = m at hmantissa
  unfold isFinite at h
  unfold significand exponent
  rw [hfield] at h hmagnitude ⊢
  unfold ofFields
  split
  · next hones =>
    rw [hones] at h
    simp at h
  · split
    · next hzero =>
      have hfield' : e.toNat = 0 := by rw [hzero]; rfl
      have hexponent : (((max e.toNat 1 : ℕ) : ℤ) - 1075) = -1074 := by
        rw [hfield']
        rfl
      rw [if_pos hfield', hexponent, ← hmagnitude hfield', ← hmantissa]
      split
      · next hempty =>
        rw [hempty]
        exact ⟨rfl, by simp [realOf]⟩
      · exact ⟨rfl, rfl⟩
    · next hzero =>
      have hfield' : e.toNat ≠ 0 := fun heq => hzero (BitVec.eq_of_toNat_eq heq)
      have hexponent : (((max e.toNat 1 : ℕ) : ℤ) - 1075) = e.toNat - 1075 := by omega
      have hsignificand : Nat.pow 2 52 + magnitudeBits x % Nat.pow 2 52 = (1#1 ++ m).toNat := by
        rw [toNat_one_append, hmantissa]
        rfl
      rw [if_neg hfield', hexponent, hsignificand]
      exact ⟨rfl, rfl⟩

theorem unpack_of_not_isFinite (h : ¬ isFinite x = true) :
    unpack x = .infinity (signOf x) ∨ unpack x = .notANumber := by
  have hfield := exponentField_eq x
  rw [unpack_eq]
  generalize @unpackExponent Format.binary64 x.toBits.toBitVec = e at hfield
  have hones : e = -1#11 := by
    apply BitVec.eq_of_toNat_eq
    have hlt : e.toNat < 2 ^ 11 := e.isLt
    unfold isFinite at h
    rw [hfield, decide_eq_true_iff] at h
    change e.toNat = 2047
    omega
  unfold ofFields
  rw [if_pos hones]
  split
  · exact .inl rfl
  · exact .inr rfl

theorem isFinite_eq : isFinite x = x.isFinite := by
  by_cases h : isFinite x = true
  · rw [h, (value_of_isFinite x h).1]
  · have hnot : (unpack x).isFinite = false := by
      rcases unpack_of_not_isFinite x h with hinfinity | hnan
      · rw [hinfinity]
        rfl
      · rw [hnan]
        rfl
    rw [Bool.not_eq_true] at h
    exact h.trans hnot.symm

omit x in
theorem eq_of_toBits {x y : Float} (h : x.toBits.toNat = y.toBits.toNat) : x = y := by
  obtain ⟨⟨b, hb⟩⟩ := x
  obtain ⟨⟨c, hc⟩⟩ := y
  obtain rfl : b = c := UInt64.toNat_inj.mp h
  rfl

variable {x}

theorem eq_zero_of_unpack (h : unpack x = .zero .positive) : x = 0.0 := by
  have hmantissa := mantissaField_eq x
  have hfield := exponentField_eq x
  rw [unpack_eq] at h
  generalize @unpackExponent Format.binary64 x.toBits.toBitVec = e at h hfield
  generalize @unpackMantissa Format.binary64 x.toBits.toBitVec = m at h hmantissa
  unfold ofFields at h
  split at h
  · split at h <;> contradiction
  · split at h
    · next hexponent =>
      split at h
      · next hm =>
        subst hexponent hm
        have hsign : signOf x = .positive := UnpackedFloat.zero.inj h
        have hpositive : ¬ Nat.pow 2 63 ≤ x.toBits.toNat := by
          intro hle
          rw [signOf, isNegative, if_pos (decide_eq_true hle)] at hsign
          contradiction
        change x.toBits.toNat % 2 ^ 63 / 2 ^ 52 = 0 at hfield
        change 0 = x.toBits.toNat % 2 ^ 63 % 2 ^ 52 at hmantissa
        change ¬ 2 ^ 63 ≤ x.toBits.toNat at hpositive
        apply eq_of_toBits
        change x.toBits.toNat = 0
        omega
      · contradiction
    · contradiction

theorem Unsigned.eq_zero (h : Unsigned x) (hzero : (x == 0.0) = true) : x = 0.0 := by
  obtain ⟨hnumber, -, hvalue⟩ := beq_iff.mp hzero
  rw [value_zero] at hvalue
  apply eq_zero_of_unpack
  change (unpack x).isNaN = false at hnumber
  change NoMinus (unpack x) at h
  change realOf (unpack x) = 0 at hvalue
  generalize unpack x = u at h hnumber hvalue
  cases h with
  | notANumber => contradiction
  | zero => rfl
  | infinity =>
    rw [realOf, sign_positive, one_mul] at hvalue
    exact absurd hvalue limit_pos.ne'
  | finite m e hm =>
    rw [realOf, sign_positive, one_mul] at hvalue
    exact absurd hvalue (finite_pos hm e).ne'

end Fields

section Integers

variable {x y : Float}

theorem nearest?_eq (h : isFinite x = true) : nearest? x = some (roundAway (value x)) := by
  have hvalue := (value_of_isFinite x h).2
  unfold nearest?
  rw [if_pos h, hvalue]
  have hnearest := nearestNat_eq_round (significand x) (exponent x)
  have hnonneg : (0 : ℝ) ≤ significand x * 2 ^ exponent x :=
    mul_nonneg (Nat.cast_nonneg _) (two_zpow_pos _).le
  rw [← roundAway_of_nonneg hnonneg] at hnearest
  unfold signOf
  dsimp only
  rw [hnearest]
  split
  · rw [sign_negative, neg_one_mul, roundAway_neg]
  · rw [sign_positive, one_mul]

theorem eq_roundAway_of_nearest? {n : ℤ} (h : nearest? x = some n) : n = roundAway (value x) := by
  by_cases hfinite : isFinite x = true
  · rw [nearest?_eq hfinite] at h
    exact (Option.some.inj h).symm
  · unfold nearest? at h
    rw [if_neg hfinite] at h
    contradiction

def wordLimit : ℤ := 2 ^ 63

theorem exists_limit : ∃ n : ℤ, limit = n ∧ wordLimit ≤ n := by
  refine ⟨2 ^ 1024, ?_, pow_le_pow_right₀ one_le_two (by norm_num)⟩
  rw [Int.cast_pow, Int.cast_ofNat]
  exact zpow_natCast 2 1024

theorem nearestInt64_eq (x : Float) :
    nearestInt64 x = max (-wordLimit) (min (roundAway (value x)) (wordLimit - 1)) := by
  obtain ⟨n, hn, hlimit⟩ := exists_limit
  unfold nearestInt64
  by_cases hfinite : isFinite x = true
  · rw [nearest?_eq hfinite]
    rfl
  · have hnone : nearest? x = none := if_neg hfinite
    rw [hnone]
    rcases unpack_of_not_isFinite x hfinite with hinfinity | hnan
    · have hnumber : x.isNaN = false := by
        change (unpack x).isNaN = false
        rw [hinfinity]
        rfl
      rw [value, hinfinity, realOf, hn]
      simp only [hnumber, Bool.false_eq_true, ↓reduceIte, signOf]
      split
      · rw [sign_negative, neg_one_mul, roundAway_neg, roundAway_intCast]
        change -wordLimit = _
        omega
      · rw [sign_positive, one_mul, roundAway_intCast]
        change wordLimit - 1 = _
        have hpos : 0 < wordLimit := by decide
        omega
    · have hnumber : x.isNaN = true := by
        change (unpack x).isNaN = true
        rw [hnan]
        rfl
      rw [value, hnan, realOf]
      simp only [hnumber, ↓reduceIte]
      rw [roundAway_zero]
      rfl

theorem nearestInt64_mono (h : value x ≤ value y) : nearestInt64 x ≤ nearestInt64 y := by
  rw [nearestInt64_eq, nearestInt64_eq]
  exact max_le_max le_rfl (min_le_min (roundAway_mono h) le_rfl)

/-- Among the numbers that are counted exactly, rounding keeps the order from zero up. -/
theorem nearest?_mem {n : ℤ} (h : nearest? x = some n) (hn : n.natAbs ≤ 2 ^ 53)
    (hnonneg : 0 ≤ value x) (hle : value x ≤ value y) : 0 ≤ n ∧ n ≤ nearestInt64 y := by
  have hround := eq_roundAway_of_nearest? h
  have hlow := roundAway_mono hnonneg
  have hhigh := roundAway_mono hle
  have hword : wordLimit = 2 ^ 63 := rfl
  have hzero := roundAway_zero
  rw [nearestInt64_eq]
  omega

theorem nearestInt64_mem {n : ℤ} (h : value x ∈ Set.uIcc 0 (n : ℝ)) :
    nearestInt64 x ∈ Set.uIcc 0 n := by
  have hzero := roundAway_zero
  have hend := roundAway_intCast n
  have hword : 0 < wordLimit := by decide
  rw [nearestInt64_eq, Set.mem_uIcc]
  rcases Set.mem_uIcc.mp h with ⟨hlow, hhigh⟩ | ⟨hlow, hhigh⟩ <;>
  · have hmono := roundAway_mono hlow
    have hmono' := roundAway_mono hhigh
    omega

theorem saturated_rounded_neg (r : ℝ) : saturated (rounded (-r)) = -saturated (rounded r) := by
  have hsign := saturated_sign_mul .negative (rounded r)
  rwa [sign_negative, neg_one_mul, neg_one_mul, ← rounded_neg] at hsign

theorem saturated_rounded_mem {n : ℤ} (hn : n.natAbs ≤ 2 ^ 53) {r : ℝ}
    (h : r ∈ Set.uIcc 0 (n : ℝ)) : saturated (rounded r) ∈ Set.uIcc 0 (n : ℝ) := by
  have hpart : ∀ (m : Nat) (s : ℝ), m ≤ 2 ^ 53 → 0 ≤ s → s ≤ m →
      0 ≤ saturated (rounded s) ∧ saturated (rounded s) ≤ m := by
    intro m s hm hs hle
    rw [← saturated_rounded_natCast hm]
    exact ⟨saturated_nonneg (rounded_nonneg hs), saturated_mono (rounded_mono hs hle)⟩
  obtain ⟨m, rfl | rfl⟩ := n.eq_nat_or_neg
  · rw [Int.cast_natCast, Set.uIcc_of_le (Nat.cast_nonneg m)] at h ⊢
    exact hpart m r hn h.1 h.2
  · have hsize : (m : ℝ) ≥ 0 := Nat.cast_nonneg m
    rw [Int.cast_neg, Int.cast_natCast, Set.uIcc_of_ge (by linarith)] at h ⊢
    have hflipped := hpart m (-r) (by simpa using hn) (by linarith [h.2]) (by linarith [h.1])
    rw [saturated_rounded_neg] at hflipped
    exact ⟨by linarith [hflipped.2], by linarith [hflipped.1]⟩

theorem rounded_two_zpow {e : ℤ} (he : -1074 ≤ e) : rounded (2 ^ e) = 2 ^ e := by
  have hbits := rounded_of_bits (m := 1) (e := e) (by norm_num) he
  rwa [Int.cast_one, one_mul] at hbits

theorem abs_rounded_le {r : ℝ} {e : ℤ} (hlow : -1074 ≤ e) (h : |r| ≤ 2 ^ e) :
    |rounded r| ≤ 2 ^ e := by
  have habs : |rounded r| = rounded |r| := by
    rcases le_total 0 r with hpos | hneg
    · rw [abs_of_nonneg hpos, abs_of_nonneg (rounded_nonneg hpos)]
    · have hflipped := rounded_nonneg (r := -r) (by linarith)
      rw [abs_of_nonpos hneg, rounded_neg, abs_of_nonpos]
      rw [rounded_neg] at hflipped
      linarith
  rw [habs, ← rounded_two_zpow hlow]
  exact rounded_mono (abs_nonneg r) h

theorem abs_saturated_rounded_le {r : ℝ} {e : ℤ} (hlow : -1074 ≤ e) (hhigh : e ≤ 1024)
    (h : |r| ≤ 2 ^ e) : |saturated (rounded r)| ≤ 2 ^ e := by
  have hrounded := abs_rounded_le hlow h
  rwa [saturated_of_abs_le (hrounded.trans (two_zpow_le hhigh))]

theorem natAbs_nearestInt64_le {x : Float} {n : ℕ} (hn : n < 2 ^ 63) (h : |value x| ≤ n) :
    (nearestInt64 x).natAbs ≤ n := by
  obtain ⟨hlow, hhigh⟩ := abs_le.mp h
  have hstart := roundAway_mono hlow
  have hend := roundAway_mono hhigh
  have hcast := roundAway_intCast n
  have hword : wordLimit = 2 ^ 63 := rfl
  rw [roundAway_neg] at hstart
  rw [Int.cast_natCast] at hcast
  rw [nearestInt64_eq]
  omega

theorem isNaN_neg (x : Float) : (-x).isNaN = x.isNaN := by
  change (unpack (-x)).isNaN = (unpack x).isNaN
  rw [unpack_neg]
  cases unpack x <;> rfl

theorem nearest_ofInt (n : ℤ) : Nearest (Float.ofInt n) n := by
  cases n with
  | ofNat m => exact nearest_ofNat m
  | negSucc m =>
    have hnat := nearest_ofNat (m + 1)
    refine ⟨(isNaN_neg _).trans hnat.isNaN, ?_⟩
    change value (-Float.ofNat (m + 1)) = _
    rw [value_neg, hnat.value, Int.cast_negSucc, saturated_rounded_neg]

/-- Also a fraction that is no number gives a product, which counts as zero. -/
theorem value_mul_fraction {fraction : Float} (hx : x.isFinite = true)
    (hlow : 0 ≤ value fraction) (hhigh : value fraction ≤ 1) :
    value (x * fraction) = saturated (rounded (value x * value fraction)) := by
  by_cases hpart : fraction.isFinite = true
  · exact (nearest_mul hx hpart).value
  · have hnan : fraction.isNaN = true := by
      rw [isFinite_iff, abs_of_nonneg hlow, not_and'] at hpart
      rw [← Bool.not_eq_false]
      exact hpart (hhigh.trans_lt (one_lt_zpow₀ one_lt_two (by norm_num)))
    rw [value_mul_of_isNaN hnan, value_of_isNaN hnan, mul_zero, rounded_zero,
      saturated_of_abs_le (by rw [abs_zero]; exact limit_pos.le)]

theorem value_two : value 2.0 = 2 := by
  change realOf (.finite .positive (2 ^ 52) (-51) (by decide)) = 2
  rw [realOf, sign_positive]
  norm_num

theorem value_half (hx : x.isFinite = true) :
    value (x / 2.0) = saturated (rounded (value x / 2)) := by
  rw [(nearest_div hx (y := 2.0) rfl (by rw [value_two]; exact two_ne_zero)).value, value_two]

end Integers

section Shares

variable {total : ℤ} (h : total.natAbs ≤ 2 ^ 53)

include h

theorem value_part {fraction : Float} (hlow : 0 ≤ value fraction) (hhigh : value fraction ≤ 1) :
    value (Float.ofInt total * fraction) = saturated (rounded (total * value fraction)) := by
  obtain ⟨hfinite, hvalue⟩ := ofInt_spec h
  rw [value_mul_fraction hfinite hlow hhigh, hvalue]

theorem value_part_mem {fraction : Float} (hlow : 0 ≤ value fraction)
    (hhigh : value fraction ≤ 1) :
    value (Float.ofInt total * fraction) ∈ Set.uIcc 0 (total : ℝ) := by
  rw [value_part h hlow hhigh]
  apply saturated_rounded_mem h
  rw [Set.mem_uIcc]
  rcases le_total 0 (total : ℝ) with hpos | hneg
  · exact .inl ⟨mul_nonneg hpos hlow, mul_le_of_le_one_right hpos hhigh⟩
  · exact .inr ⟨by nlinarith, mul_nonpos_of_nonpos_of_nonneg hneg hlow⟩

theorem share_mem {fraction : Float} (hlow : 0 ≤ value fraction) (hhigh : value fraction ≤ 1) :
    nearestInt64 (Float.ofInt total * fraction) ∈ Set.uIcc 0 total :=
  nearestInt64_mem (value_part_mem h hlow hhigh)

theorem half_mem : nearestInt64 (Float.ofInt total / 2.0) ∈ Set.uIcc 0 total := by
  obtain ⟨hfinite, hvalue⟩ := ofInt_spec h
  apply nearestInt64_mem
  rw [value_half hfinite, hvalue]
  apply saturated_rounded_mem h
  rw [Set.mem_uIcc]
  rcases le_total 0 (total : ℝ) with hpos | hneg
  · exact .inl ⟨by linarith, by linarith⟩
  · exact .inr ⟨by linarith, by linarith⟩

end Shares

section Words

variable {total : ℤ} (h : total.natAbs ≤ 2 ^ 54)

include h

theorem ofInt_word :
    (Float.ofInt total).isFinite = true ∧ |value (Float.ofInt total)| ≤ 2 ^ (54 : ℤ) := by
  have hcast : |(total : ℝ)| ≤ 2 ^ (54 : ℤ) := by
    rw [← Int.cast_abs, Int.abs_eq_natAbs]
    exact_mod_cast h
  have hvalue : |value (Float.ofInt total)| ≤ 2 ^ (54 : ℤ) := by
    rw [(nearest_ofInt total).value]
    exact abs_saturated_rounded_le (by norm_num) (by norm_num) hcast
  refine ⟨isFinite_iff.mpr ⟨(nearest_ofInt total).isNaN, hvalue.trans_lt ?_⟩, hvalue⟩
  exact zpow_lt_zpow_right₀ one_lt_two (by norm_num)

omit h in
theorem natAbs_nearestInt64_of_rounded {x : Float} {r : ℝ}
    (hx : value x = saturated (rounded r)) (hr : |r| ≤ 2 ^ (54 : ℤ)) :
    (nearestInt64 x).natAbs ≤ 2 ^ 54 := by
  apply natAbs_nearestInt64_le (by norm_num)
  rw [hx]
  exact_mod_cast abs_saturated_rounded_le (by norm_num) (by norm_num) hr

/-- Beyond the whole numbers that are counted exactly a part may be more than all of them, but it
stays below the same power of two. -/
theorem natAbs_share_le {fraction : Float} (hlow : 0 ≤ value fraction)
    (hhigh : value fraction ≤ 1) :
    (nearestInt64 (Float.ofInt total * fraction)).natAbs ≤ 2 ^ 54 := by
  obtain ⟨hfinite, hvalue⟩ := ofInt_word h
  apply natAbs_nearestInt64_of_rounded (value_mul_fraction hfinite hlow hhigh)
  rw [abs_mul, abs_of_nonneg hlow]
  exact (mul_le_of_le_one_right (abs_nonneg _) hhigh).trans hvalue

theorem natAbs_half_le : (nearestInt64 (Float.ofInt total / 2.0)).natAbs ≤ 2 ^ 54 := by
  obtain ⟨hfinite, hvalue⟩ := ofInt_word h
  apply natAbs_nearestInt64_of_rounded (value_half hfinite)
  rw [abs_div, abs_two]
  have hnonneg := abs_nonneg (value (Float.ofInt total))
  linarith

end Words

end

end StepMotion.Binary64
