import StepMotion.Proofs.Binary64.Unsigned

/-! Differences and quotients of doubles are the rounded real ones, and so are the doubles for whole
numbers. What lies between zero and a number, taken from it or divided by it, stays so. -/
namespace StepMotion.Binary64

open Float.Model UnpackedFloat

noncomputable section

section Difference

theorem sub_eq_add (format : Format) (u v : UnpackedFloat) :
    UnpackedFloat.sub format u v = UnpackedFloat.add format u v.neg := by
  cases u with
  | finite s m e hm =>
    cases v with
    | finite t n d hn =>
      have happly : ∀ k : Int, -t.apply k = (-t).apply k := by
        intro k
        cases t
        · exact Int.neg_neg k
        · rfl
      simp only [UnpackedFloat.sub, UnpackedFloat.add, UnpackedFloat.neg, Int.sub_eq_add_neg,
        happly]
    | _ => rfl
  | _ => cases v <;> rfl

theorem realOf_neg (u : UnpackedFloat) : realOf u.neg = -realOf u := by
  have hsign : ∀ s : Sign, sign (-s) = -sign s := by
    intro s
    cases s
    · exact sign_positive.trans (by simp)
    · exact sign_negative.trans (by simp)
  cases u with
  | notANumber => exact neg_zero.symm
  | zero s => exact neg_zero.symm
  | infinity s => rw [UnpackedFloat.neg, realOf, realOf, hsign, neg_mul]
  | finite s m e hm => rw [UnpackedFloat.neg, realOf, realOf, hsign, neg_mul]

theorem canonical_neg {u : UnpackedFloat} (h : Canonical u) : Canonical u.neg := by
  cases u <;> exact h

theorem isFinite_neg {u : UnpackedFloat} (h : u.isFinite = true) : u.neg.isFinite = true := by
  cases u <;> exact h

variable {x y : Float}

theorem nearest_sub (hx : x.isFinite = true) (hy : y.isFinite = true) :
    Nearest (x - y) (value x - value y) := by
  have hsum := add_rounds (canonical_unpack x) (canonical_neg (canonical_unpack y)) hx
    (isFinite_neg hy)
  rw [← sub_eq_add, realOf_neg, ← sub_eq_add_neg] at hsum
  exact hsum.nearest

end Difference

section Quotient

theorem sign_div (s t : Sign) : sign (s / t) = sign s / sign t := by
  cases s <;> cases t <;>
    simp only [sign_positive, sign_negative, div_one, div_neg, neg_neg] <;>
    first | exact sign_positive | exact sign_negative

theorem locates_fraction (m : Nat) {n : Nat} (hn : 0 < n) :
    Locates (.ofMantissaAndAccuracy (m / n) (accuracyOfFraction (m % n) n)) ((m : ℝ) / n) := by
  have hn' : (0 : ℝ) < n := by exact_mod_cast hn
  have hlt : ((m % n : ℕ) : ℝ) < n := by exact_mod_cast Nat.mod_lt m hn
  have hsum : (m : ℝ) / n = (m / n : ℕ) + ((m % n : ℕ) : ℝ) / n := by
    have hmod : (m : ℝ) = n * (m / n : ℕ) + (m % n : ℕ) := by
      exact_mod_cast (Nat.div_add_mod m n).symm
    rw [div_eq_iff hn'.ne', add_mul, div_mul_cancel₀ _ hn'.ne', mul_comm]
    exact hmod
  rw [hsum]
  generalize m % n = rest at hlt
  generalize m / n = quotient
  unfold accuracyOfFraction
  split
  · next hzero =>
    rw [hzero, Nat.cast_zero, zero_div, add_zero]
    exact locates_exact quotient
  · next hrest =>
    have hpos : (0 : ℝ) < rest / n := div_pos (by exact_mod_cast Nat.pos_of_ne_zero hrest) hn'
    have hone : (rest : ℝ) / n < 1 := (div_lt_one hn').mpr hlt
    rcases lt_trichotomy (2 * rest) n with hless | htie | hmore
    · have hhalf : (rest : ℝ) / n < 1 / 2 := by
        rw [div_lt_div_iff₀ hn' two_pos]
        have : (2 : ℝ) * rest < n := by exact_mod_cast hless
        linarith
      rw [compare_lt_iff_lt.mpr hless]
      exact locates_lower quotient (by linarith) (by linarith)
    · have hhalf : (rest : ℝ) / n = 1 / 2 := by
        rw [div_eq_div_iff hn'.ne' two_ne_zero]
        have : (2 : ℝ) * rest = n := by exact_mod_cast htie
        linarith
      rw [compare_eq_iff_eq.mpr htie, hhalf]
      exact locates_half quotient
    · have hhalf : (1 : ℝ) / 2 < rest / n := by
        rw [div_lt_div_iff₀ two_pos hn']
        have : (n : ℝ) < 2 * rest := by exact_mod_cast hmore
        linarith
      rw [compare_gt_iff_gt.mpr hmore]
      exact locates_upper quotient (by linarith) (by linarith)

theorem le_shiftLeft_div {m n k : Nat} (hm : 0 < m) (hn : 0 < n)
    (h : n.log2 + 53 ≤ m.log2 + k) : 2 ^ 52 ≤ m <<< k / n := by
  rw [Nat.le_div_iff_mul_le hn]
  calc
    2 ^ 52 * n ≤ 2 ^ 52 * 2 ^ (n.log2 + 1) :=
      Nat.mul_le_mul_left _ ((Nat.log2_lt hn.ne').mp (Nat.lt_succ_self _)).le
    _ = 2 ^ (n.log2 + 53) := by rw [← pow_add]; congr 1; omega
    _ ≤ m <<< k := two_pow_le_shiftLeft hm h

theorem div_rounds {u v : UnpackedFloat} (hufinite : u.isFinite = true)
    (hvfinite : v.isFinite = true) (hv : realOf v ≠ 0) :
    Rounds (UnpackedFloat.div Format.binary64 u v) (realOf u / realOf v) := by
  cases v with
  | notANumber => contradiction
  | infinity t => contradiction
  | zero t => exact absurd rfl hv
  | finite t n d hn =>
    cases u with
    | notANumber => contradiction
    | infinity s => contradiction
    | zero s => exact ⟨trivial, rfl, by rw [realOf_zero, zero_div, rounded_zero]; rfl⟩
    | finite s m e hm =>
      have hmin : Format.binary64.minExponent = -1074 := by decide
      have hwidth : Format.binary64.mantissaBits = 53 := by decide
      unfold UnpackedFloat.div divCore
      dsimp only
      generalize hplace : min (e - d)
        (Format.binary64.targetExponent (totalExponent m e - totalExponent n d)) = place
      have hlow : place ≤ e - d := by omega
      have hshifted := cast_shiftLeft m hlow
      have hbits : 2 ^ 52 ≤ m <<< (e - d - place).toNat / n ∨ place ≤ -1074 := by
        have hwide : n.log2 + 53 ≤ m.log2 + (e - d - place).toNat ∨ place ≤ -1074 := by
          unfold Format.targetExponent totalExponent at hplace
          rw [hmin, hwidth] at hplace
          omega
        exact hwide.imp_left (le_shiftLeft_div hm hn)
      generalize m <<< (e - d - place).toNat = k at hshifted hbits
      have hpos := div_pos (finite_pos hm e) (finite_pos hn d)
      have hlocates : (m : ℝ) * 2 ^ e / (n * 2 ^ d) / 2 ^ place = k / n := by
        have hscale : (2 : ℝ) ^ e = 2 ^ (e - d) * 2 ^ d := by rw [← two_zpow_add, sub_add_cancel]
        have hd := (two_zpow_pos d).ne'
        have hplace := (two_zpow_pos place).ne'
        rw [hscale, ← mul_assoc, mul_div_mul_right _ _ hd, ← hshifted, div_div,
          mul_div_mul_right _ _ hplace]
      obtain ⟨hrounded, hnumber, hvalue⟩ := roundWithAccuracy_spec (s / t) hpos hbits
        (by rw [hlocates]; exact locates_fraction k hn)
      refine ⟨hrounded, hnumber, hvalue.trans ?_⟩
      rw [← rounded_sign_mul, sign_div, realOf, realOf, div_mul_div_comm]

variable {x y : Float}

theorem nearest_div (hx : x.isFinite = true) (hy : y.isFinite = true) (hzero : value y ≠ 0) :
    Nearest (x / y) (value x / value y) :=
  (div_rounds hx hy hzero).nearest

end Quotient

section Whole

theorem nearest_toFloat (n : UInt64) : Nearest n.toFloat n.toNat := by
  have hround := (normalize_rounds n.toNat 0 .positive).nearest
  rw [zpow_zero, mul_one, Int.cast_natCast] at hround
  exact hround

theorem saturated_rounded_natCast {n : Nat} (h : n ≤ 2 ^ 53) : saturated (rounded n) = n := by
  have hbits : rounded n = n := by
    rcases h.eq_or_lt with rfl | hlt
    · have hpower := rounded_of_bits (m := 1) (e := 53) (by norm_num) (by norm_num)
      rw [Int.cast_one, one_mul] at hpower
      exact_mod_cast hpower
    · have hsmall := rounded_of_bits (m := n) (e := 0)
        (by rw [Nat.abs_cast]; exact_mod_cast hlt) (by norm_num)
      rwa [zpow_zero, mul_one, Int.cast_natCast] at hsmall
  have hcast : (n : ℝ) ≤ 2 ^ (53 : ℤ) := by exact_mod_cast h
  rw [hbits, saturated_of_abs_le]
  rw [Nat.abs_cast]
  exact hcast.trans (two_zpow_le (by norm_num))

theorem ofNat_of_lt {n : Nat} (h : n < 2 ^ 53) :
    Float.ofNat n = n.toUInt64.toFloat * Float.ofBits 0x3FF0000000000000 := by
  unfold Float.ofNat
  change Float.ofScientific n false 0 = _
  unfold Float.ofScientific
  rw [dif_pos ⟨h, by decide⟩]
  rfl

theorem ofNat_of_ge {n : Nat} (h : 2 ^ 53 ≤ n) :
    ∃ m, m = n * 2 ^ 53 ∧
      Float.ofNat n = pack (roundWithAccuracy Format.binary64 .positive m (-53) .exact) := by
  refine ⟨n <<< 53 * 1, by rw [Nat.mul_one, Nat.shiftLeft_eq], ?_⟩
  unfold Float.ofNat
  change Float.ofScientific n false 0 = _
  unfold Float.ofScientific
  rw [dif_neg (by omega)]
  change Float.ofModel (Float.Model.pack (UnpackedFloat.ofScientific Format.binary64 n 0)) = _
  have hpos : ¬ n = 0 := by omega
  have hbits : Format.binary64.exponentBits = 11 := by decide
  have hlow : ¬ (0 : Int) < -(2 ^ 11 + n.log2) := by omega
  unfold UnpackedFloat.ofScientific
  rw [dif_neg hpos, hbits, if_neg (by decide), if_neg hlow, if_pos (le_refl _)]
  rfl

theorem nearest_ofNat_of_lt {n : Nat} (h : n < 2 ^ 53) : Nearest (Float.ofNat n) n := by
  have hnat : n.toUInt64.toNat = n := Nat.mod_eq_of_lt (by omega)
  have hwhole := nearest_toFloat n.toUInt64
  have hvalue := saturated_rounded_natCast h.le
  rw [hnat] at hwhole
  rw [← hwhole.value] at hvalue
  have hlimit : value n.toUInt64.toFloat < limit := by
    have hcast : (n : ℝ) < 2 ^ (53 : ℤ) := by exact_mod_cast h
    rw [hvalue]
    exact hcast.trans_le (two_zpow_le (by norm_num))
  have hfinite : n.toUInt64.toFloat.isFinite = true := by
    rw [isFinite_iff, hvalue, Nat.abs_cast, ← hvalue]
    exact ⟨hwhole.isNaN, hlimit⟩
  have hone : value (Float.ofBits 0x3FF0000000000000) = 1 := by
    change realOf (.finite .positive (2 ^ 52) (-52) (by decide)) = 1
    rw [realOf, sign_positive]
    norm_num
  have hproduct := nearest_mul hfinite (y := Float.ofBits 0x3FF0000000000000) rfl
  rw [hone, mul_one, hvalue, ← ofNat_of_lt h] at hproduct
  exact hproduct

theorem nearest_ofNat_of_ge {n : Nat} (h : 2 ^ 53 ≤ n) : Nearest (Float.ofNat n) n := by
  have hpos : (0 : ℝ) < n := by exact_mod_cast (by omega : 0 < n)
  obtain ⟨m, hm, hpack⟩ := ofNat_of_ge h
  have hlocates : (n : ℝ) / 2 ^ (-53 : ℤ) = m := by
    rw [div_eq_iff (two_zpow_pos _).ne', hm, Nat.cast_mul, Nat.cast_pow, Nat.cast_ofNat, mul_assoc]
    norm_num
  obtain ⟨hrounded, hnumber, hvalue⟩ := roundWithAccuracy_spec (m := m) .positive hpos
    (.inl (by omega)) (by rw [hlocates]; exact locates_exact m)
  rw [hpack]
  refine Rounds.nearest ⟨hrounded, hnumber, ?_⟩
  rw [hvalue, sign_positive, one_mul]

theorem nearest_ofNat (n : Nat) : Nearest (Float.ofNat n) n := by
  rcases Nat.lt_or_ge n (2 ^ 53) with hlt | hge
  · exact nearest_ofNat_of_lt hlt
  · exact nearest_ofNat_of_ge hge

theorem unsigned_ofNat (n : Nat) : Unsigned (Float.ofNat n) := by
  rcases Nat.eq_zero_or_pos n with rfl | hn
  · exact unsigned_zero
  · apply unsigned_of_pos
    have hone : saturated (rounded ((1 : ℕ) : ℝ)) = (1 : ℕ) :=
      saturated_rounded_natCast (by norm_num)
    have hmono : saturated (rounded ((1 : ℕ) : ℝ)) ≤ saturated (rounded n) :=
      saturated_mono (rounded_mono (by norm_num) (by exact_mod_cast hn))
    rw [(nearest_ofNat n).value]
    rw [hone, Nat.cast_one] at hmono
    linarith

theorem unpack_neg (x : Float) : unpack (-x) = (unpack x).neg :=
  unpack_pack_of_canonical (canonical_neg (canonical_unpack x))

theorem value_neg (x : Float) : value (-x) = -value x := by
  rw [value, unpack_neg, realOf_neg, ← value]

theorem value_abs (x : Float) : value x.abs = |value x| := by
  have hcanonical := canonical_unpack x
  change value (pack (unpack x).abs) = |realOf (unpack x)|
  generalize unpack x = u at hcanonical
  cases u with
  | notANumber => exact value_notANumber.trans abs_zero.symm
  | zero s => exact (value_signed_zero .positive).trans abs_zero.symm
  | infinity s =>
    rw [abs_realOf_infinity, UnpackedFloat.abs]
    exact value_infinity
  | finite s m e hm =>
    rw [abs_realOf_finite, UnpackedFloat.abs,
      value_pack_of_canonical (u := .finite .positive m e hm) hcanonical, realOf, sign_positive,
      one_mul]

theorem ofInt_spec {n : Int} (h : n.natAbs ≤ 2 ^ 53) :
    (Float.ofInt n).isFinite = true ∧ value (Float.ofInt n) = n := by
  have hlimit : ∀ m : Nat, m ≤ 2 ^ 53 → (m : ℝ) < limit := by
    intro m hm
    have hcast : (m : ℝ) ≤ 2 ^ (53 : ℤ) := by exact_mod_cast hm
    exact hcast.trans_lt (zpow_lt_zpow_right₀ one_lt_two (by norm_num))
  have hnat : ∀ m : Nat, m ≤ 2 ^ 53 →
      (Float.ofNat m).isFinite = true ∧ value (Float.ofNat m) = m := by
    intro m hm
    have hvalue : value (Float.ofNat m) = m :=
      (nearest_ofNat m).value.trans (saturated_rounded_natCast hm)
    rw [isFinite_iff, hvalue, Nat.abs_cast]
    exact ⟨⟨(nearest_ofNat m).isNaN, hlimit m hm⟩, rfl⟩
  cases n with
  | ofNat m => exact hnat m h
  | negSucc m =>
    obtain ⟨hfinite, hvalue⟩ := hnat (m + 1) h
    refine ⟨?_, ?_⟩
    · change (unpack (-Float.ofNat (m + 1))).isFinite = true
      rw [unpack_neg]
      exact isFinite_neg hfinite
    · change value (-Float.ofNat (m + 1)) = _
      rw [value_neg, hvalue, Int.cast_negSucc]

end Whole

section Special

variable {u v : UnpackedFloat}

/-- An infinity is taken away from no less than an infinity. -/
theorem sub_special (hu : Canonical u) (hv : 0 ≤ realOf v) (hle : realOf v ≤ realOf u)
    (h : ¬ (u.isFinite = true ∧ v.isFinite = true)) :
    UnpackedFloat.sub Format.binary64 u v = .notANumber ∨
      ∃ s, u = .infinity s ∧ UnpackedFloat.sub Format.binary64 u v = .infinity s := by
  have hlimit := limit_pos
  cases v with
  | notANumber => cases u <;> exact .inl rfl
  | infinity t =>
    obtain rfl := infinity_of_nonneg hv
    rw [realOf, sign_positive, one_mul] at hle
    cases u with
    | notANumber => exact .inl rfl
    | infinity s => cases s <;> first | exact .inl rfl | exact .inr ⟨_, rfl, rfl⟩
    | zero s =>
      rw [realOf_zero] at hle
      linarith
    | finite s m e hm =>
      have hlt := finite_lt hu.1 hu.2
      rw [← abs_realOf_finite s e hm] at hlt
      linarith [le_abs_self (realOf (.finite s m e hm))]
  | _ =>
    cases u with
    | notANumber => exact .inl rfl
    | infinity s => exact .inr ⟨s, rfl, rfl⟩
    | _ => exact absurd ⟨rfl, rfl⟩ h

theorem div_special (hu : 0 ≤ realOf u) (hv : NoMinus v) (hcanonical : Canonical v)
    (h : ¬ (u.isFinite = true ∧ v.isFinite = true ∧ realOf v ≠ 0)) :
    UnpackedFloat.div Format.binary64 u v = .notANumber ∨
      (∃ s, UnpackedFloat.div Format.binary64 u v = .zero s) ∨
        UnpackedFloat.div Format.binary64 u v = .infinity .positive ∧ realOf v < realOf u := by
  have hlimit := limit_pos
  cases hv with
  | notANumber => cases u <;> exact .inl rfl
  | infinity => cases u <;> first | exact .inl rfl | exact .inr (.inl ⟨_, rfl⟩)
  | zero =>
    cases u with
    | notANumber => exact .inl rfl
    | zero s => exact .inl rfl
    | infinity s =>
      obtain rfl := infinity_of_nonneg hu
      refine .inr (.inr ⟨rfl, ?_⟩)
      rwa [realOf_zero, realOf, sign_positive, one_mul]
    | finite s m e hm =>
      obtain rfl := finite_of_nonneg hu
      refine .inr (.inr ⟨rfl, ?_⟩)
      rw [realOf_zero, realOf, sign_positive, one_mul]
      exact finite_pos hm e
  | finite n d hn =>
    have hpos := finite_pos hn d
    have hlt := finite_lt hcanonical.1 hcanonical.2
    have hdivisor : realOf (.finite .positive n d hn) = n * 2 ^ d := by
      rw [realOf, sign_positive, one_mul]
    cases u with
    | notANumber => exact .inl rfl
    | infinity s =>
      obtain rfl := infinity_of_nonneg hu
      refine .inr (.inr ⟨rfl, ?_⟩)
      rwa [hdivisor, realOf, sign_positive, one_mul]
    | _ => exact absurd ⟨rfl, rfl, by rw [hdivisor]; exact hpos.ne'⟩ h

end Special

section Bounds

variable {x y : Float}

theorem value_of_isNaN (h : x.isNaN = true) : value x = 0 := by
  change (unpack x).isNaN = true at h
  rw [value]
  cases hu : unpack x with
  | notANumber => rfl
  | _ =>
    rw [hu] at h
    contradiction

/-- Taking a part of a number away leaves a part of it. -/
theorem value_sub_of_le (hy : 0 ≤ value y) (h : value y ≤ value x) :
    0 ≤ value (x - y) ∧ value (x - y) ≤ value x := by
  by_cases hfinite : x.isFinite = true ∧ y.isFinite = true
  · have hx := rounded_value x
    rw [(nearest_sub hfinite.1 hfinite.2).value]
    refine ⟨saturated_nonneg (rounded_nonneg (by linarith)), ?_⟩
    calc
      saturated (rounded (value x - value y)) ≤ saturated (rounded (value x)) :=
        saturated_mono (rounded_mono (by linarith) (by linarith))
      _ = value x := by rw [hx, saturated_of_abs_le (abs_value_le x)]
  · have hx := hy.trans h
    change 0 ≤ value (pack (UnpackedFloat.sub Format.binary64 (unpack x) (unpack y))) ∧
      value (pack (UnpackedFloat.sub Format.binary64 (unpack x) (unpack y))) ≤ value x
    obtain hnan | ⟨s, hinfinity, hsame⟩ := sub_special (canonical_unpack x) hy h hfinite
    · rw [hnan, value_notANumber]
      exact ⟨le_refl 0, hx⟩
    · rw [hsame, value_pack_of_canonical (u := .infinity s) trivial, ← hinfinity]
      exact ⟨hx, le_refl _⟩

theorem value_div_special (hx : 0 ≤ value x) (hy : Unsigned y)
    (h : ¬ (x.isFinite = true ∧ y.isFinite = true ∧ value y ≠ 0)) :
    value (x / y) = 0 ∨ value (x / y) = limit ∧ value y < value x := by
  change value (pack (UnpackedFloat.div Format.binary64 (unpack x) (unpack y))) = 0 ∨
    value (pack (UnpackedFloat.div Format.binary64 (unpack x) (unpack y))) = limit ∧ _
  obtain hnan | ⟨s, hzero⟩ | ⟨hinfinity, hlt⟩ := div_special hx hy (canonical_unpack y) h
  · rw [hnan, value_notANumber]
    exact .inl rfl
  · rw [hzero, value_signed_zero]
    exact .inl rfl
  · rw [hinfinity, value_infinity]
    exact .inr ⟨rfl, hlt⟩

theorem value_zero_div (y : Float) : value (0.0 / y) = 0 := by
  change value (pack (UnpackedFloat.div Format.binary64 (unpack 0.0) (unpack y))) = 0
  rw [unpack_zero]
  cases unpack y with
  | notANumber => exact value_notANumber
  | zero t => exact value_notANumber
  | infinity t => exact value_signed_zero _
  | finite t n d hn => exact value_signed_zero _

theorem value_zero_mul (y : Float) : value (0.0 * y) = 0 := by
  change value (pack (UnpackedFloat.mul Format.binary64 (unpack 0.0) (unpack y))) = 0
  rw [unpack_zero]
  cases unpack y with
  | notANumber => exact value_notANumber
  | zero t => exact value_signed_zero _
  | infinity t => exact value_notANumber
  | finite t n d hn => exact value_signed_zero _

theorem value_div_nonneg (hx : 0 ≤ value x) (hy : Unsigned y) : 0 ≤ value (x / y) := by
  by_cases h : x.isFinite = true ∧ y.isFinite = true ∧ value y ≠ 0
  · rw [(nearest_div h.1 h.2.1 h.2.2).value]
    exact saturated_nonneg (rounded_nonneg (div_nonneg hx hy.nonneg))
  · rcases value_div_special hx hy h with hzero | ⟨hlimit, -⟩
    · rw [hzero]
    · rw [hlimit]
      exact limit_pos.le

theorem value_div_le_one (hx : 0 ≤ value x) (hy : Unsigned y) (hle : value x ≤ value y) :
    value (x / y) ≤ 1 := by
  by_cases h : x.isFinite = true ∧ y.isFinite = true ∧ value y ≠ 0
  · have hone : saturated (rounded ((1 : ℕ) : ℝ)) = (1 : ℕ) :=
      saturated_rounded_natCast (by norm_num)
    rw [Nat.cast_one] at hone
    rw [(nearest_div h.1 h.2.1 h.2.2).value, ← hone]
    exact saturated_mono (rounded_mono (div_nonneg hx hy.nonneg)
      (div_le_one_of_le₀ hle hy.nonneg))
  · rcases value_div_special hx hy h with hzero | ⟨-, hlt⟩
    · rw [hzero]
      exact zero_le_one
    · exact absurd hle hlt.not_ge

theorem value_mul_of_isNaN (h : y.isNaN = true) : value (x * y) = 0 := by
  have hproduct : x * y = pack .notANumber := by
    change pack (UnpackedFloat.mul Format.binary64 (unpack x) (unpack y)) = _
    change (unpack y).isNaN = true at h
    generalize unpack y = v at h
    cases v with
    | notANumber => cases unpack x <;> rfl
    | _ => contradiction
  rw [hproduct, value_notANumber]

theorem isNaN_pack_notANumber : (pack .notANumber).isNaN = true := isNaN_pack trivial

theorem isNaN_of_add (h : (x + y).isNaN = false) : x.isNaN = false ∧ y.isNaN = false := by
  change (pack (UnpackedFloat.add Format.binary64 (unpack x) (unpack y))).isNaN = false at h
  change (unpack x).isNaN = false ∧ (unpack y).isNaN = false
  generalize unpack x = u at *
  generalize unpack y = v at *
  cases u with
  | notANumber => exact absurd (isNaN_pack_notANumber.symm.trans h) (by decide)
  | _ =>
    cases v with
    | notANumber => exact absurd (isNaN_pack_notANumber.symm.trans h) (by decide)
    | _ => exact ⟨rfl, rfl⟩

theorem value_le_add (hx : 0 ≤ value x) (hy : 0 ≤ value y) (hsum : (x + y).isNaN = false) :
    value x ≤ value (x + y) ∧ value y ≤ value (x + y) := by
  obtain ⟨hxnumber, hynumber⟩ := isNaN_of_add hsum
  have hbelow : ∀ z, 0 ≤ value z → value z ≤ value x + value y → value z ≤ value (x + y) := by
    intro z hz hle
    rw [(nearest_add_of_nonneg hxnumber hx hynumber hy).value]
    calc
      value z = saturated (rounded (value z)) := by
        rw [rounded_value, saturated_of_abs_le (abs_value_le z)]
      _ ≤ saturated (rounded (value x + value y)) := saturated_mono (rounded_mono hz hle)
  exact ⟨hbelow x hx (by linarith), hbelow y hy (by linarith)⟩

section Scale

variable {c : Float} (hc : c.isFinite = true) (hpos : 0 < value c)

include hc hpos

theorem mul_infinity (hx : unpack x = .infinity .positive) : value (x * c) = limit := by
  change value (pack (UnpackedFloat.mul Format.binary64 (unpack x) (unpack c))) = limit
  rw [hx, ← value_infinity]
  change (unpack c).isFinite = true at hc
  change 0 < realOf (unpack c) at hpos
  generalize unpack c = v at hc hpos
  cases v with
  | notANumber => contradiction
  | infinity t => contradiction
  | zero t => exact absurd hpos (lt_irrefl 0)
  | finite t n d hn =>
    obtain rfl := finite_of_nonneg hpos.le
    rfl

theorem value_mul_nonneg (hx : 0.0 ≤ x) : 0 ≤ value (x * c) := by
  rw [le_iff, value_zero] at hx
  by_cases hfinite : x.isFinite = true
  · rw [(nearest_mul hfinite hc).value]
    exact saturated_nonneg (rounded_nonneg (mul_nonneg hx.2.2 hpos.le))
  · rw [mul_infinity hc hpos (unpack_eq_infinity hx.2.1 hx.2.2 hfinite)]
    exact limit_pos.le

theorem value_mul_mono (hx : 0.0 ≤ x) (hle : x ≤ y) : value (x * c) ≤ value (y * c) := by
  rw [le_iff, value_zero] at hx
  rw [le_iff] at hle
  have hynonneg := hx.2.2.trans hle.2.2
  by_cases hyfinite : y.isFinite = true
  · have hxfinite : x.isFinite = true := by
      rw [isFinite_iff, abs_of_nonneg hynonneg] at hyfinite
      rw [isFinite_iff, abs_of_nonneg hx.2.2]
      exact ⟨hx.2.1, hle.2.2.trans_lt hyfinite.2⟩
    rw [(nearest_mul hxfinite hc).value, (nearest_mul hyfinite hc).value]
    exact saturated_mono (rounded_mono (mul_nonneg hx.2.2 hpos.le)
      (mul_le_mul_of_nonneg_right hle.2.2 hpos.le))
  · rw [mul_infinity hc hpos (unpack_eq_infinity hle.2.1 hynonneg hyfinite)]
    exact (abs_le.mp (abs_value_le _)).2

end Scale

end Bounds

end

end StepMotion.Binary64
