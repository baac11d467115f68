import StepMotion.Binary64
import StepMotion.Proofs.Binary64.Rounding

/-! The real number that a double stands for. An infinity stands for the next power of two after
the finite numbers, so the order of doubles is the order of the numbers that they stand for, and an
overflow is a number that is cut off there. -/
namespace StepMotion.Binary64

open Float.Model UnpackedFloat

noncomputable section

/-- The form of a significand and an exponent that a finite number has, but for an overflow. -/
structure Fits (m : Nat) (e : Int) : Prop where
  lt : m < 2 ^ 53
  low : -1074 ≤ e
  full : e = -1074 ∨ 2 ^ 52 ≤ m

/-- A result in the form of the format; its exponent may be too large. -/
def Rounded : UnpackedFloat → Prop
  | .finite _ m e _ => Fits m e
  | _ => True

def unpack (x : Float) : UnpackedFloat := x.toModel.unpack

def pack (u : UnpackedFloat) : Float := .ofModel (Float.Model.pack u)

def value (x : Float) : ℝ := realOf (unpack x)

def saturated (r : ℝ) : ℝ := max (-limit) (min r limit)

theorem realOf_zero (s : Sign) : realOf (.zero s) = 0 := rfl

theorem limit_pos : 0 < limit := two_zpow_pos 1024

theorem limit_le_mul_self {r : ℝ} (h : limit ≤ r) : limit ≤ r * r := by
  have hone : 1 ≤ limit := one_le_zpow₀ one_le_two (by norm_num)
  exact h.trans (le_mul_of_one_le_left (limit_pos.le.trans h) (hone.trans h))

theorem saturated_mono {r s : ℝ} (h : r ≤ s) : saturated r ≤ saturated s :=
  max_le_max le_rfl (min_le_min h le_rfl)

theorem saturated_nonneg {r : ℝ} (h : 0 ≤ r) : 0 ≤ saturated r :=
  le_max_of_le_right (le_min h limit_pos.le)

theorem saturated_of_le {r : ℝ} (h : limit ≤ r) : saturated r = limit := by
  rw [saturated, min_eq_right h, max_eq_right (neg_le_self limit_pos.le)]

theorem eq_saturated_of_lt {r : ℝ} (h : 0 ≤ r) (hlt : saturated r < limit) : saturated r = r := by
  have hmin : min r limit < limit := (le_max_right _ _).trans_lt hlt
  have hr : r < limit := by simpa using hmin
  rw [saturated, min_eq_left hr.le, max_eq_right (by linarith [limit_pos])]

theorem saturated_of_abs_le {r : ℝ} (h : |r| ≤ limit) : saturated r = r := by
  obtain ⟨hlow, hhigh⟩ := abs_le.mp h
  rw [saturated, min_eq_left hhigh, max_eq_right hlow]

@[simp] theorem sign_positive : sign .positive = 1 := by simp [sign, Sign.apply]

@[simp] theorem sign_negative : sign .negative = -1 := by simp [sign, Sign.apply]

@[simp] theorem abs_sign (s : Sign) : |sign s| = 1 := by
  cases s <;> simp

theorem cast_apply (s : Sign) (n : Int) : (s.apply n : ℝ) = sign s * n := by
  cases s <;> simp [Sign.apply]

theorem sign_mul (s t : Sign) : sign (s * t) = sign s * sign t := by
  cases s <;> cases t <;>
    simp only [sign_positive, sign_negative, mul_one, one_mul, neg_mul_neg] <;>
    first | exact sign_positive | exact sign_negative

theorem saturated_sign_mul (s : Sign) (r : ℝ) : saturated (sign s * r) = sign s * saturated r := by
  cases s with
  | positive => simp
  | negative =>
    have hbounds : -limit ≤ limit := neg_le_self limit_pos.le
    rw [sign_negative, neg_one_mul, neg_one_mul, saturated, saturated, ← min_neg_neg,
      ← max_neg_neg, neg_neg, max_min_distrib_left, max_eq_right hbounds, max_comm, min_comm]

section Packing

theorem ofBitVec_toBitVec (s : Sign) : Sign.ofBitVec s.toBitVec = s := by
  cases s <;> rfl

theorem unpackSign_packComponents (s : Sign) (e : BitVec 11) (m : BitVec 52) :
    unpackSign (packComponents Format.binary64 s e m) = s.toBitVec := by
  apply BitVec.eq_of_getLsbD_eq
  intro i hi
  obtain rfl : i = 0 := by omega
  have hbit : (s.toBitVec ++ e ++ m).getLsbD 63 = s.toBitVec.getLsbD 0 := by
    rw [BitVec.getLsbD_append, BitVec.getLsbD_append]
    rfl
  simp only [unpackSign, packComponents, BitVec.getLsbD_cast, BitVec.getLsbD_extractLsb]
  rw [decide_eq_true (by decide), Bool.true_and]
  exact hbit

theorem toNat_one_append (m : BitVec 52) : (1#1 ++ m).toNat = 2 ^ 52 + m.toNat := by
  have hor := Nat.two_pow_add_eq_or_of_lt m.isLt 1
  rw [BitVec.toNat_append, Nat.shiftLeft_eq, BitVec.toNat_ofNat,
    show 1 % 2 ^ 1 * 2 ^ 52 = 2 ^ 52 * 1 from rfl, ← hor, Nat.mul_one]

def ofFields (s : Sign) (e : BitVec 11) (m : BitVec 52) : UnpackedFloat :=
  if e = -1#11 then if m = 0#52 then .infinity s else .notANumber
  else if e = 0#11 then
    if h : m = 0#52 then .zero s
    else .finite s m.toNat (-1074) (Nat.pos_of_ne_zero fun heq => h (BitVec.eq_of_toNat_eq heq))
  else .finite s (1#1 ++ m).toNat (e.toNat - 1075) (by rw [toNat_one_append]; omega)

theorem unpack_eq_ofFields (b : BitVec 64) :
    UnpackedFloat.unpack Format.binary64 b =
      ofFields (Sign.ofBitVec (@unpackSign Format.binary64 b)) (@unpackExponent Format.binary64 b)
        (@unpackMantissa Format.binary64 b) := by
  unfold UnpackedFloat.unpack ofFields
  dsimp only
  split
  · rfl
  · split
    · next hsubnormal =>
      rw [hsubnormal]
      rfl
    · rfl

theorem unpack_packComponents (s : Sign) (e : BitVec 11) (m : BitVec 52) :
    UnpackedFloat.unpack Format.binary64 (packComponents Format.binary64 s e m) =
      ofFields s e m := by
  rw [unpack_eq_ofFields, unpackSign_packComponents, ofBitVec_toBitVec]
  congr 1
  · exact unpackExponent_packComponents
  · exact unpackMantissa_packComponents

theorem log2_add_one_eq_iff {m : Nat} (h : m < 2 ^ 53) : m.log2 + 1 = 53 ↔ 2 ^ 52 ≤ m := by
  by_cases hzero : m = 0
  · subst hzero
    simp
  · rw [← Nat.le_log2 hzero]
    have := (Nat.log2_lt hzero).mpr h
    omega

theorem unpack_pack_finite (s : Sign) {m : Nat} {e : Int} (hm : 0 < m) (h : Fits m e) :
    unpack (pack (.finite s m e hm)) = if 971 < e then .infinity s else .finite s m e hm := by
  change UnpackedFloat.unpack Format.binary64
    (UnpackedFloat.pack Format.binary64 (.finite s m e hm)) = _
  obtain ⟨hlt, hlow, hfull⟩ := h
  have hbiased : (e + Format.binary64.exponentBias + 52).toNat = e + 1075 := by
    simp only [Format.exponentBias]
    omega
  unfold UnpackedFloat.pack
  dsimp only
  by_cases hlarge : 971 < e
  · rw [if_pos, if_pos hlarge]
    · exact unpack_packComponents s (-1#_) 0
    · omega
  rw [if_neg (by omega), if_neg hlarge]
  split
  · next hnormal =>
    have hbits : 2 ^ 52 ≤ m := (log2_add_one_eq_iff hlt).mp hnormal
    generalize (e + Format.binary64.exponentBias + 52).toNat = biased at hbiased
    have hexponent : (BitVec.ofNat 11 biased).toNat = biased := Nat.mod_eq_of_lt (by omega)
    have hones : BitVec.ofNat 11 biased ≠ -1#11 := by
      intro heq
      have htoNat := congrArg BitVec.toNat heq
      rw [hexponent, show (-1#11).toNat = 2047 from rfl] at htoNat
      omega
    have hzeros : BitVec.ofNat 11 biased ≠ 0#11 := by
      intro heq
      have htoNat := congrArg BitVec.toNat heq
      rw [hexponent, show (0#11).toNat = 0 from rfl] at htoNat
      omega
    rw [unpack_packComponents, ofFields, if_neg hones, if_neg hzeros]
    congr 1
    · rw [toNat_one_append, BitVec.toNat_ofNat]
      omega
    · omega
  · next hsubnormal =>
    have hbits : m < 2 ^ 52 := by
      rw [← not_le, ← log2_add_one_eq_iff hlt]
      exact hsubnormal
    have hmantissa : (BitVec.ofNat 52 m).toNat = m := Nat.mod_eq_of_lt hbits
    have hzero : BitVec.ofNat 52 m ≠ 0#52 := by
      intro heq
      have htoNat := congrArg BitVec.toNat heq
      rw [hmantissa, show (0#52).toNat = 0 from rfl] at htoNat
      omega
    rw [unpack_packComponents, ofFields, if_neg (by decide), if_pos rfl, dif_neg hzero]
    congr 1
    omega

theorem unpack_pack_of_not_finite {u : UnpackedFloat} (h : ∀ s m e hm, u ≠ .finite s m e hm) :
    unpack (pack u) = u := by
  change UnpackedFloat.unpack Format.binary64 (UnpackedFloat.pack Format.binary64 u) = u
  cases u with
  | infinity s => exact unpack_packComponents s (-1#_) 0
  | notANumber => exact unpack_packComponents .positive (-1#_) (1#_ <<< 51)
  | zero s => exact unpack_packComponents s 0 0
  | finite s m e hm => exact absurd rfl (h s m e hm)

end Packing

def Canonical : UnpackedFloat → Prop
  | .finite _ m e _ => Fits m e ∧ e ≤ 971
  | _ => True

theorem canonical_ofFields (s : Sign) (e : BitVec 11) (m : BitVec 52) :
    Canonical (ofFields s e m) := by
  have hm := m.isLt
  have he := e.isLt
  unfold ofFields
  split
  · split <;> trivial
  · next hones =>
    have htop : e.toNat ≠ 2047 := fun heq => hones (BitVec.eq_of_toNat_eq heq)
    split
    · split
      · trivial
      · exact ⟨⟨by omega, by omega, .inl rfl⟩, by omega⟩
    · next hzeros =>
      have hbottom : e.toNat ≠ 0 := fun heq => hzeros (BitVec.eq_of_toNat_eq heq)
      simp only [toNat_one_append]
      exact ⟨⟨by omega, by omega, .inr (by omega)⟩, by omega⟩

theorem canonical_unpack (x : Float) : Canonical (unpack x) := by
  change Canonical (UnpackedFloat.unpack Format.binary64 x.toModel.toBits.toBitVec)
  rw [unpack_eq_ofFields]
  exact canonical_ofFields _ _ _

theorem unpack_pack_of_canonical {u : UnpackedFloat} (h : Canonical u) : unpack (pack u) = u := by
  cases u with
  | finite s m e hm =>
    obtain ⟨hfits, hsmall⟩ := h
    rw [unpack_pack_finite s hm hfits, if_neg (by omega)]
  | _ => exact unpack_pack_of_not_finite (by simp)

theorem finite_pos {m : Nat} (hm : 0 < m) (e : Int) : (0 : ℝ) < m * 2 ^ e :=
  mul_pos (by exact_mod_cast hm) (two_zpow_pos e)

theorem infinity_of_nonneg {s : Sign} (h : 0 ≤ realOf (.infinity s)) : s = .positive := by
  cases s with
  | positive => rfl
  | negative =>
    rw [realOf, sign_negative] at h
    linarith [limit_pos]

theorem finite_of_nonneg {s : Sign} {m : Nat} {e : Int} {hm : 0 < m}
    (h : 0 ≤ realOf (.finite s m e hm)) : s = .positive := by
  cases s with
  | positive => rfl
  | negative =>
    rw [realOf, sign_negative] at h
    linarith [finite_pos hm e]

theorem finite_lt {m : Nat} {e : Int} (h : Fits m e) (he : e ≤ 971) :
    (m : ℝ) * 2 ^ e < limit := by
  have hm : (m : ℝ) < 2 ^ (53 : ℤ) := by exact_mod_cast h.lt
  calc
    (m : ℝ) * 2 ^ e < 2 ^ (53 : ℤ) * 2 ^ e := mul_lt_mul_of_pos_right hm (two_zpow_pos e)
    _ = 2 ^ (53 + e) := (two_zpow_add 53 e).symm
    _ ≤ 2 ^ (1024 : ℤ) := two_zpow_le (by omega)

theorem abs_realOf_infinity (s : Sign) : |realOf (.infinity s)| = limit := by
  rw [realOf, abs_mul, abs_sign, one_mul, abs_of_pos limit_pos]

theorem abs_realOf_finite (s : Sign) {m : Nat} (e : Int) (hm : 0 < m) :
    |realOf (.finite s m e hm)| = m * 2 ^ e := by
  rw [realOf, abs_mul, abs_sign, one_mul, abs_of_pos (finite_pos hm e)]

theorem realOf_abs_le {u : UnpackedFloat} (h : Canonical u) : |realOf u| ≤ limit := by
  cases u with
  | infinity s => exact (abs_realOf_infinity s).le
  | finite s m e hm =>
    rw [abs_realOf_finite]
    exact (finite_lt h.1 h.2).le
  | _ => simp [realOf, limit_pos.le]

theorem abs_value_le (x : Float) : |value x| ≤ limit := realOf_abs_le (canonical_unpack x)

theorem isFinite_iff {x : Float} : x.isFinite = true ↔ x.isNaN = false ∧ |value x| < limit := by
  change (unpack x).isFinite = true ↔ (unpack x).isNaN = false ∧ |realOf (unpack x)| < limit
  have hcanonical := canonical_unpack x
  generalize unpack x = u at hcanonical
  cases u with
  | notANumber => simp [UnpackedFloat.isFinite, UnpackedFloat.isNaN]
  | infinity s => simp [UnpackedFloat.isFinite, abs_realOf_infinity]
  | zero s => simp [UnpackedFloat.isFinite, UnpackedFloat.isNaN, realOf, limit_pos]
  | finite s m e hm =>
    have hlt := finite_lt hcanonical.1 hcanonical.2
    simpa [UnpackedFloat.isFinite, UnpackedFloat.isNaN, abs_realOf_finite] using hlt

theorem value_pack_of_canonical {u : UnpackedFloat} (h : Canonical u) :
    value (pack u) = realOf u := by
  rw [value, unpack_pack_of_canonical h]

@[simp] theorem value_notANumber : value (pack .notANumber) = 0 :=
  value_pack_of_canonical (u := .notANumber) trivial

@[simp] theorem value_signed_zero (s : Sign) : value (pack (.zero s)) = 0 :=
  value_pack_of_canonical (u := .zero s) trivial

/-- Packing cuts off what is too large. -/
theorem value_pack {u : UnpackedFloat} (h : Rounded u) : value (pack u) = saturated (realOf u) := by
  by_cases hfinite : ∃ s m e hm, u = .finite s m e hm
  · obtain ⟨s, m, e, hm, rfl⟩ := hfinite
    rw [value, unpack_pack_finite s hm h]
    split
    · next hlarge =>
      have hbits : 2 ^ 52 ≤ m := h.full.resolve_left (by omega)
      have hm' : (2 : ℝ) ^ (52 : ℤ) ≤ m := by exact_mod_cast hbits
      have hover : limit ≤ m * 2 ^ e := calc
        limit ≤ 2 ^ (52 + e) := two_zpow_le (by omega)
        _ = 2 ^ (52 : ℤ) * 2 ^ e := two_zpow_add 52 e
        _ ≤ m * 2 ^ e := mul_le_mul_of_nonneg_right hm' (two_zpow_pos e).le
      rw [realOf, realOf, saturated_sign_mul, saturated_of_le hover]
    · next hsmall =>
      have hcanonical : Canonical (.finite s m e hm) := ⟨h, by omega⟩
      rw [saturated_of_abs_le (realOf_abs_le hcanonical)]
  · have hcanonical : Canonical u := by
      cases u with
      | finite s m e hm => exact absurd ⟨s, m, e, hm, rfl⟩ hfinite
      | _ => trivial
    rw [value_pack_of_canonical hcanonical, saturated_of_abs_le (realOf_abs_le hcanonical)]

theorem isNaN_pack {u : UnpackedFloat} (h : Rounded u) : (pack u).isNaN = u.isNaN := by
  change (unpack (pack u)).isNaN = u.isNaN
  cases u with
  | finite s m e hm =>
    rw [unpack_pack_finite s hm h]
    split <;> rfl
  | _ => rw [unpack_pack_of_not_finite (by simp)]

theorem unpack_zero : unpack 0.0 = .zero .positive := rfl

theorem value_zero : value 0.0 = 0 := by
  rw [value, unpack_zero, realOf_zero]

section Order

theorem compares_of_fits {m n : Nat} {e d : Int} (h : Fits m e) (h' : Fits n d) :
    ((compare e d).then (compare m n)).Compares ((m : ℝ) * 2 ^ e) (n * 2 ^ d) := by
  have hless : ∀ {m n : Nat} {e d : Int}, Fits m e → Fits n d → e < d →
      (m : ℝ) * 2 ^ e < n * 2 ^ d := by
    intro m n e d h h' hlt
    have hlow := h.low
    have hbits : 2 ^ 52 ≤ n := h'.full.resolve_left (by omega)
    have hm : (m : ℝ) < 2 ^ (53 : ℤ) := by exact_mod_cast h.lt
    have hn : (2 : ℝ) ^ (52 : ℤ) ≤ n := by exact_mod_cast hbits
    calc
      (m : ℝ) * 2 ^ e < 2 ^ (53 : ℤ) * 2 ^ e := mul_lt_mul_of_pos_right hm (two_zpow_pos e)
      _ = 2 ^ (53 + e) := (two_zpow_add 53 e).symm
      _ ≤ 2 ^ (52 + d) := two_zpow_le (by omega)
      _ = 2 ^ (52 : ℤ) * 2 ^ d := two_zpow_add 52 d
      _ ≤ n * 2 ^ d := mul_le_mul_of_nonneg_right hn (two_zpow_pos d).le
  rcases lt_trichotomy e d with hlt | heq | hgt
  · rw [compare_lt_iff_lt.mpr hlt]
    exact hless h h' hlt
  · subst heq
    rw [compare_eq_iff_eq.mpr rfl]
    rcases lt_trichotomy m n with hlt | heq | hgt
    · rw [compare_lt_iff_lt.mpr hlt]
      exact mul_lt_mul_of_pos_right (by exact_mod_cast hlt) (two_zpow_pos e)
    · rw [compare_eq_iff_eq.mpr heq]
      exact congrArg (fun k : Nat => (k : ℝ) * 2 ^ e) heq
    · rw [compare_gt_iff_gt.mpr hgt]
      exact mul_lt_mul_of_pos_right (by exact_mod_cast hgt) (two_zpow_pos e)
  · rw [compare_gt_iff_gt.mpr hgt]
    exact hless h' h hgt

theorem compares_finite (s t : Sign) {m n : Nat} {e d : Int} (hm : 0 < m) (hn : 0 < n)
    (h : Fits m e) (h' : Fits n d) :
    ∃ o, (UnpackedFloat.finite s m e hm).compare (.finite t n d hn) = some o ∧
      o.Compares (realOf (.finite s m e hm)) (realOf (.finite t n d hn)) := by
  have hpos := finite_pos hm e
  have hpos' := finite_pos hn d
  have hcompares := compares_of_fits h h'
  cases s with
  | positive =>
    cases t with
    | positive => exact ⟨_, rfl, by simpa only [realOf, sign_positive, one_mul]⟩
    | negative =>
      refine ⟨.gt, rfl, ?_⟩
      simp only [Ordering.Compares, realOf, sign_positive, sign_negative]
      linarith
  | negative =>
    cases t with
    | positive =>
      refine ⟨.lt, rfl, ?_⟩
      simp only [Ordering.Compares, realOf, sign_positive, sign_negative]
      linarith
    | negative =>
      -- The order of the magnitudes is turned around.
      refine ⟨_, rfl, Ordering.compares_swap.mpr ?_⟩
      simp only [realOf, sign_negative, neg_one_mul]
      generalize (compare e d).then (compare m n) = o at hcompares
      cases o with
      | lt => exact neg_lt_neg hcompares
      | eq => exact congrArg (- ·) hcompares.symm
      | gt => exact neg_lt_neg hcompares

theorem compares_realOf {u v : UnpackedFloat} (hu : Canonical u) (hv : Canonical v)
    (hun : u.isNaN = false) (hvn : v.isNaN = false) :
    ∃ o, u.compare v = some o ∧ o.Compares (realOf u) (realOf v) := by
  have hlimit := limit_pos
  cases u with
  | notANumber => contradiction
  | infinity s =>
    cases v with
    | notANumber => contradiction
    | infinity t =>
      cases s <;> cases t <;> refine ⟨_, rfl, ?_⟩ <;>
        simp [compare, Ordering.Compares, realOf, sign_positive, sign_negative] <;> linarith
    | zero t =>
      cases s <;> refine ⟨_, rfl, ?_⟩ <;>
        simp only [Ordering.Compares, realOf, sign_positive, sign_negative] <;> linarith
    | finite t n d hn =>
      have hpos := finite_pos hn d
      have hlt := finite_lt hv.1 hv.2
      cases s <;> cases t <;> refine ⟨_, rfl, ?_⟩ <;>
        simp only [Ordering.Compares, realOf, sign_positive, sign_negative] <;> linarith
  | zero s =>
    cases v with
    | notANumber => contradiction
    | infinity t =>
      cases t <;> refine ⟨_, rfl, ?_⟩ <;>
        simp only [Ordering.Compares, realOf, sign_positive, sign_negative] <;> linarith
    | zero t => exact ⟨.eq, rfl, rfl⟩
    | finite t n d hn =>
      have hpos := finite_pos hn d
      cases t <;> refine ⟨_, rfl, ?_⟩ <;>
        simp only [Ordering.Compares, realOf, sign_positive, sign_negative] <;> linarith
  | finite s m e hm =>
    have hpos := finite_pos hm e
    have hlt := finite_lt hu.1 hu.2
    cases v with
    | notANumber => contradiction
    | infinity t =>
      cases s <;> cases t <;> refine ⟨_, rfl, ?_⟩ <;>
        simp only [Ordering.Compares, realOf, sign_positive, sign_negative] <;> linarith
    | zero t =>
      cases s <;> refine ⟨_, rfl, ?_⟩ <;>
        simp only [Ordering.Compares, realOf, sign_positive, sign_negative] <;> linarith
    | finite t n d hn =>
      exact compares_finite s t hm hn hu.1 hv.1

theorem compare_eq_none {u v : UnpackedFloat} (h : u.isNaN = true ∨ v.isNaN = true) :
    u.compare v = none := by
  rcases h with h | h
  · cases u <;> first | rfl | contradiction
  · cases v <;> first | contradiction | (cases u <;> rfl)

theorem compare_eq_some {x y : Float} {o : Ordering} :
    (unpack x).compare (unpack y) = some o ↔
      x.isNaN = false ∧ y.isNaN = false ∧ o.Compares (value x) (value y) := by
  change _ ↔ (unpack x).isNaN = false ∧ (unpack y).isNaN = false ∧ _
  by_cases hnumbers : (unpack x).isNaN = false ∧ (unpack y).isNaN = false
  · obtain ⟨hx, hy⟩ := hnumbers
    obtain ⟨o', hcompare, hcompares⟩ :=
      compares_realOf (canonical_unpack x) (canonical_unpack y) hx hy
    rw [hcompare]
    constructor
    · rintro ⟨rfl⟩
      exact ⟨hx, hy, hcompares⟩
    · rintro ⟨-, -, ho⟩
      rw [hcompares.inj ho]
  · have hnone : (unpack x).compare (unpack y) = none := by
      apply compare_eq_none
      rw [not_and_or, Bool.not_eq_false, Bool.not_eq_false] at hnumbers
      exact hnumbers
    rw [hnone]
    exact ⟨fun h => by contradiction, fun h => absurd ⟨h.1, h.2.1⟩ hnumbers⟩

theorem lt_iff {x y : Float} :
    x < y ↔ x.isNaN = false ∧ y.isNaN = false ∧ value x < value y := by
  have hlt : x < y ↔ (unpack x).compare (unpack y) = some .lt := by
    change decide (_ = true) = true ↔ _
    rw [decide_eq_true_iff]
    exact beq_iff_eq
  rw [hlt, compare_eq_some]
  rfl

theorem le_iff {x y : Float} :
    x ≤ y ↔ x.isNaN = false ∧ y.isNaN = false ∧ value x ≤ value y := by
  have hle : x ≤ y ↔ (unpack x).compare (unpack y) = some .lt ∨
      (unpack x).compare (unpack y) = some .eq := by
    change decide (((unpack x).compare (unpack y)).any Ordering.isLE = true) = true ↔ _
    rw [decide_eq_true_iff]
    cases (unpack x).compare (unpack y) with
    | none => simp
    | some o => cases o <;> simp
  rw [hle, compare_eq_some, compare_eq_some, ← and_or_left, ← and_or_left]
  simp only [Ordering.Compares, ← le_iff_lt_or_eq]

theorem beq_iff {x y : Float} :
    (x == y) = true ↔ x.isNaN = false ∧ y.isNaN = false ∧ value x = value y := by
  have heq : (x == y) = true ↔ (unpack x).compare (unpack y) = some .eq := by
    change ((unpack x).compare (unpack y) == some .eq) = true ↔ _
    exact beq_iff_eq
  rw [heq, compare_eq_some]
  rfl

variable {x y z : Float}

theorem not_lt_self (x : Float) : ¬ x < x := by
  rw [lt_iff]
  exact fun h => lt_irrefl _ h.2.2

protected theorem lt_trans (hxy : x < y) (hyz : y < z) : x < z := by
  rw [lt_iff] at *
  exact ⟨hxy.1, hyz.2.1, hxy.2.2.trans hyz.2.2⟩

protected theorem le_trans (hxy : x ≤ y) (hyz : y ≤ z) : x ≤ z := by
  rw [le_iff] at *
  exact ⟨hxy.1, hyz.2.1, hxy.2.2.trans hyz.2.2⟩

protected theorem le_of_not_lt (hx : x.isNaN = false) (hy : y.isNaN = false) (h : ¬ y < x) :
    x ≤ y := by
  rw [lt_iff] at h
  rw [le_iff]
  exact ⟨hx, hy, not_lt.mp fun hlt => h ⟨hy, hx, hlt⟩⟩

protected theorem le_of_lt (h : x < y) : x ≤ y := by
  rw [lt_iff] at h
  rw [le_iff]
  exact ⟨h.1, h.2.1, h.2.2.le⟩

protected theorem not_lt_of_le (h : x ≤ y) : ¬ y < x := by
  rw [le_iff] at h
  rw [lt_iff]
  exact fun hlt => hlt.2.2.not_ge h.2.2

theorem lesser_cases (x y : Float) :
    lesser x y = x ∧ (x ≤ y ∨ y.isNaN = true) ∨
      lesser x y = y ∧ y.isNaN = false ∧ (y < x ∨ x.isNaN = true) := by
  unfold lesser
  split
  · next h => exact .inl ⟨rfl, by simpa using h⟩
  · next h =>
    rw [Bool.or_eq_true, decide_eq_true_iff, not_or, Bool.not_eq_true] at h
    refine .inr ⟨rfl, h.2, ?_⟩
    by_cases hx : x.isNaN = true
    · exact .inr hx
    · have hle : ¬ value x ≤ value y := fun hle => h.1 (le_iff.mpr ⟨by simpa using hx, h.2, hle⟩)
      exact .inl (lt_iff.mpr ⟨h.2, by simpa using hx, not_le.mp hle⟩)

theorem not_lt_of_isNaN_left (h : x.isNaN = true) : ¬ x < y := by
  rw [lt_iff, h]
  simp

theorem not_lt_lesser_left (x y : Float) : ¬ x < lesser x y := by
  rcases lesser_cases x y with ⟨heq, -⟩ | ⟨heq, -, hlt | hx⟩
  · rw [heq]
    exact not_lt_self x
  · rw [heq]
    exact fun hxy => not_lt_self x (Binary64.lt_trans hxy hlt)
  · exact not_lt_of_isNaN_left hx

theorem not_lt_lesser_right (x y : Float) : ¬ y < lesser x y := by
  rcases lesser_cases x y with ⟨heq, hle | hy⟩ | ⟨heq, -⟩
  · rw [heq]
    exact Binary64.not_lt_of_le hle
  · exact not_lt_of_isNaN_left hy
  · rw [heq]
    exact not_lt_self y

theorem le_lesser (hxz : x ≤ z) (h : ¬ y < x) : x ≤ lesser y z := by
  rcases lesser_cases y z with ⟨heq, hyz | hz⟩ | ⟨heq, -⟩
  · rw [heq]
    rw [le_iff] at hxz hyz
    exact Binary64.le_of_not_lt hxz.1 hyz.1 h
  · rw [le_iff, hz] at hxz
    exact absurd hxz.2.1 (by decide)
  · rwa [heq]

theorem not_lt_of_lesser (h : ¬ lesser x y < z) : ¬ x < z ∧ ¬ y < z := by
  rcases lesser_cases x y with ⟨heq, hle | hy⟩ | ⟨heq, -, hlt | hx⟩ <;> rw [heq] at h
  · refine ⟨h, fun hyz => h ?_⟩
    rw [lt_iff] at *
    rw [le_iff] at hle
    exact ⟨hle.1, hyz.2.1, hle.2.2.trans_lt hyz.2.2⟩
  · exact ⟨h, not_lt_of_isNaN_left hy⟩
  · exact ⟨fun hxz => h (Binary64.lt_trans hlt hxz), h⟩
  · exact ⟨not_lt_of_isNaN_left hx, h⟩

end Order

end

end StepMotion.Binary64
