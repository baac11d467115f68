import StepMotion.Proofs.Binary64.Integers

/-! Magnitudes. Rounding does not lead beyond a power of two, so what is known of the exponents of the
operands tells as much of the result as exact arithmetic would. A chain of operations that stays away
from both ends of the double range neither overflows nor vanishes. -/
namespace StepMotion.Binary64

structure Between (low high : ℤ) (x : Float) : Prop where
  low_le : 2 ^ low ≤ value x
  le_high : value x ≤ 2 ^ high

structure Below (high : ℤ) (x : Float) : Prop where
  isNaN : x.isNaN = false
  nonneg : 0 ≤ value x
  le_high : value x ≤ 2 ^ high

/-- Zero, or a number between two powers of two. -/
def Within (low high : ℤ) (x : Float) : Prop :=
  x.isNaN = false ∧ value x = 0 ∨ Between low high x

variable {x y : Float} {r : ℝ} {a b c d e : ℤ}

theorem Between.pos (h : Between a b x) : 0 < value x := (two_zpow_pos a).trans_le h.low_le

theorem Between.isNaN (h : Between a b x) : x.isNaN = false := by
  rw [← Bool.not_eq_true]
  intro hnan
  have hpos := h.pos
  rw [value_of_isNaN hnan] at hpos
  exact lt_irrefl 0 hpos

theorem Between.below (h : Between a b x) : Below b x := ⟨h.isNaN, h.pos.le, h.le_high⟩

theorem Within.below (h : Within a b x) : Below b x := by
  rcases h with ⟨hnumber, hzero⟩ | hbetween
  · exact ⟨hnumber, hzero.ge, hzero.trans_le (two_zpow_pos b).le⟩
  · exact hbetween.below

theorem within_zero : Within a b 0.0 := .inl ⟨rfl, value_zero⟩

theorem Between.mono (h : Between a b x) (hlow : c ≤ a) (hhigh : b ≤ d) : Between c d x :=
  ⟨(two_zpow_le hlow).trans h.low_le, h.le_high.trans (two_zpow_le hhigh)⟩

theorem Below.mono (h : Below b x) (hhigh : b ≤ d) : Below d x :=
  ⟨h.isNaN, h.nonneg, h.le_high.trans (two_zpow_le hhigh)⟩

theorem Within.mono (h : Within a b x) (hlow : c ≤ a) (hhigh : b ≤ d) : Within c d x :=
  h.imp_right fun hbetween => hbetween.mono hlow hhigh

theorem Below.isFinite (h : Below b x) (hb : b < 1024) : x.isFinite = true := by
  rw [isFinite_iff, abs_of_nonneg h.nonneg]
  exact ⟨h.isNaN, h.le_high.trans_lt (zpow_lt_zpow_right₀ one_lt_two hb)⟩

theorem Between.isFinite (h : Between a b x) (hb : b < 1024) : x.isFinite = true :=
  h.below.isFinite hb

theorem Between.unsigned (h : Between a b x) : Unsigned x := unsigned_of_pos h.pos

theorem isFinite_of_between_abs (hnumber : x.isNaN = false) (h : Between a b x.abs)
    (hb : b < 1024) : x.isFinite = true := by
  rw [isFinite_iff, ← value_abs]
  exact ⟨hnumber, h.le_high.trans_lt (zpow_lt_zpow_right₀ one_lt_two hb)⟩

section Rounding

theorem saturated_rounded_two_zpow (hlow : -1074 ≤ e) (hhigh : e ≤ 1024) :
    saturated (rounded (2 ^ e)) = 2 ^ e := by
  rw [rounded_two_zpow hlow, saturated_of_abs_le]
  rw [abs_of_pos (two_zpow_pos e)]
  exact two_zpow_le hhigh

theorem saturated_rounded_le (hnonneg : 0 ≤ r) (hr : r ≤ 2 ^ b) (hlow : -1074 ≤ b)
    (hhigh : b ≤ 1024) : saturated (rounded r) ≤ 2 ^ b := by
  rw [← saturated_rounded_two_zpow hlow hhigh]
  exact saturated_mono (rounded_mono hnonneg hr)

theorem le_saturated_rounded (hr : 2 ^ a ≤ r) (hlow : -1074 ≤ a) (hhigh : a ≤ 1024) :
    2 ^ a ≤ saturated (rounded r) := by
  rw [← saturated_rounded_two_zpow hlow hhigh]
  exact saturated_mono (rounded_mono (two_zpow_pos a).le hr)

theorem between_of_value (h : value x = saturated (rounded r)) (hr : 2 ^ a ≤ r ∧ r ≤ 2 ^ b)
    (ha : -1074 ≤ a) (hb : b ≤ 1024) : Between a b x := by
  have hab : a ≤ b := (zpow_le_zpow_iff_right₀ one_lt_two).mp (hr.1.trans hr.2)
  exact ⟨h ▸ le_saturated_rounded hr.1 ha (hab.trans hb),
    h ▸ saturated_rounded_le ((two_zpow_pos a).le.trans hr.1) hr.2 (ha.trans hab) hb⟩

theorem between_of_nearest (h : Nearest x r) (hr : 2 ^ a ≤ r ∧ r ≤ 2 ^ b) (ha : -1074 ≤ a)
    (hb : b ≤ 1024) : Between a b x :=
  between_of_value h.value hr ha hb

theorem abs_saturated_rounded (r : ℝ) : |saturated (rounded r)| = saturated (rounded |r|) := by
  rcases le_total 0 r with hpos | hneg
  · rw [abs_of_nonneg hpos, abs_of_nonneg (saturated_nonneg (rounded_nonneg hpos))]
  · have hflipped : 0 ≤ saturated (rounded (-r)) :=
      saturated_nonneg (rounded_nonneg (neg_nonneg.mpr hneg))
    rw [abs_of_nonpos hneg, ← abs_neg, ← saturated_rounded_neg, abs_of_nonneg hflipped]

theorem between_abs_of_nearest (h : Nearest x r) (hr : 2 ^ a ≤ |r| ∧ |r| ≤ 2 ^ b) (ha : -1074 ≤ a)
    (hb : b ≤ 1024) : Between a b x.abs :=
  between_of_value (by rw [value_abs, h.value, abs_saturated_rounded]) hr ha hb

theorem below_of_nearest (h : Nearest x r) (hr : 0 ≤ r ∧ r ≤ 2 ^ b) (hlow : -1074 ≤ b)
    (hhigh : b ≤ 1024) : Below b x :=
  ⟨h.isNaN, h.value ▸ saturated_nonneg (rounded_nonneg hr.1),
    h.value ▸ saturated_rounded_le hr.1 hr.2 hlow hhigh⟩

end Rounding

section Operations

theorem Between.mul (hx : Between a b x) (hy : Between c d y) (hbounds : b < 1024 ∧ d < 1024)
    (hlow : -1074 ≤ a + c) (hhigh : b + d ≤ 1024) : Between (a + c) (b + d) (x * y) := by
  have hproduct := nearest_mul (hx.isFinite hbounds.1) (hy.isFinite hbounds.2)
  refine between_of_nearest hproduct ?_ hlow hhigh
  rw [two_zpow_add, two_zpow_add]
  exact ⟨mul_le_mul hx.low_le hy.low_le (two_zpow_pos c).le hx.pos.le,
    mul_le_mul hx.le_high hy.le_high hy.pos.le (two_zpow_pos b).le⟩

theorem Between.div (hx : Between a b x) (hy : Between c d y) (hbounds : b < 1024 ∧ d < 1024)
    (hlow : -1074 ≤ a - d) (hhigh : b - c ≤ 1024) : Between (a - d) (b - c) (x / y) := by
  have hquotient := nearest_div (hx.isFinite hbounds.1) (hy.isFinite hbounds.2) hy.pos.ne'
  refine between_of_nearest hquotient ?_ hlow hhigh
  rw [zpow_sub₀ two_ne_zero, zpow_sub₀ two_ne_zero]
  exact ⟨div_le_div₀ hx.pos.le hx.low_le hy.pos hy.le_high,
    div_le_div₀ (two_zpow_pos b).le hx.le_high (two_zpow_pos c) hy.low_le⟩

theorem between_abs_div (hnumber : x.isNaN = false) (hx : Between a b x.abs) (hy : Between c d y)
    (hbounds : b < 1024 ∧ d < 1024) (hlow : -1074 ≤ a - d) (hhigh : b - c ≤ 1024) :
    Between (a - d) (b - c) (x / y).abs := by
  have hfinite := isFinite_of_between_abs hnumber hx hbounds.1
  have hquotient := nearest_div hfinite (hy.isFinite hbounds.2) hy.pos.ne'
  refine between_abs_of_nearest hquotient ?_ hlow hhigh
  rw [abs_div, abs_of_pos hy.pos, ← value_abs, zpow_sub₀ two_ne_zero, zpow_sub₀ two_ne_zero]
  exact ⟨div_le_div₀ hx.pos.le hx.low_le hy.pos hy.le_high,
    div_le_div₀ (two_zpow_pos b).le hx.le_high (two_zpow_pos c) hy.low_le⟩

theorem between_mul_self (hnumber : x.isNaN = false) (hx : Between a b x.abs) (hb : b < 1024)
    (hlow : -1074 ≤ 2 * a) (hhigh : 2 * b ≤ 1024) : Between (2 * a) (2 * b) (x * x) := by
  have hfinite := isFinite_of_between_abs hnumber hx hb
  refine between_of_nearest (nearest_mul hfinite hfinite) ?_ hlow hhigh
  rw [← abs_mul_abs_self, ← value_abs, two_mul, two_zpow_add, two_mul, two_zpow_add]
  exact ⟨mul_le_mul hx.low_le hx.low_le (two_zpow_pos a).le hx.pos.le,
    mul_le_mul hx.le_high hx.le_high hx.pos.le (two_zpow_pos b).le⟩

theorem Between.sqrt (hx : Between c d x) (hd : d < 1024) (hlow : 2 * a ≤ c) (hhigh : d ≤ 2 * b)
    (ha : -1074 ≤ a) (hb : b ≤ 1024) : Between a b x.sqrt := by
  have hroot := nearest_sqrt (hx.isFinite hd) hx.pos.le
  refine between_of_nearest hroot ⟨?_, ?_⟩ ha hb
  · apply Real.le_sqrt_of_sq_le
    rw [← zpow_natCast, ← zpow_mul, mul_comm, Nat.cast_ofNat]
    exact (two_zpow_le hlow).trans hx.low_le
  · rw [Real.sqrt_le_left (two_zpow_pos b).le, ← zpow_natCast, ← zpow_mul, mul_comm, Nat.cast_ofNat]
    exact hx.le_high.trans (two_zpow_le hhigh)

theorem Below.mul_self (hx : Below b x) (hb : b < 1024) (hlow : -1074 ≤ 2 * b)
    (hhigh : 2 * b ≤ 1024) : Below (2 * b) (x * x) := by
  refine below_of_nearest (nearest_mul (hx.isFinite hb) (hx.isFinite hb)) ⟨?_, ?_⟩ hlow hhigh
  · exact mul_self_nonneg _
  · rw [two_mul, two_zpow_add]
    exact mul_le_mul hx.le_high hx.le_high hx.nonneg (two_zpow_pos b).le

theorem add_le_two_zpow {s : ℝ} (hr : r ≤ 2 ^ b) (hs : s ≤ 2 ^ b) : r + s ≤ 2 ^ (b + 1) := by
  rw [two_zpow_add, zpow_one]
  linarith

theorem Below.add (hx : Below b x) (hy : Below b y) (hlow : -1074 ≤ b) (hb : b < 1024) :
    Below (b + 1) (x + y) :=
  below_of_nearest (nearest_add (hx.isFinite hb) (hy.isFinite hb))
    ⟨add_nonneg hx.nonneg hy.nonneg, add_le_two_zpow hx.le_high hy.le_high⟩ (by omega) (by omega)

theorem Between.add (hx : Between a b x) (hy : Below b y) (ha : -1074 ≤ a) (hb : b < 1024) :
    Between a (b + 1) (x + y) :=
  between_of_nearest (nearest_add (hx.isFinite hb) (hy.isFinite hb))
    ⟨le_add_of_le_of_nonneg hx.low_le hy.nonneg, add_le_two_zpow hx.le_high hy.le_high⟩ ha
    (by omega)

theorem Below.add_between (hx : Below b x) (hy : Between a b y) (ha : -1074 ≤ a) (hb : b < 1024) :
    Between a (b + 1) (x + y) :=
  between_of_nearest (nearest_add (hx.isFinite hb) (hy.isFinite hb))
    ⟨le_add_of_nonneg_of_le hx.nonneg hy.low_le, add_le_two_zpow hx.le_high hy.le_high⟩ ha
    (by omega)

theorem Between.lesser (hx : Between a b x) (hy : Between a c y) :
    Between a b (lesser x y) ∧ Between a c (lesser x y) := by
  have hxnumber := hx.isNaN
  have hynumber := hy.isNaN
  rcases lesser_cases x y with ⟨hsame, hle | hnan⟩ | ⟨hsame, -, hlt | hnan⟩
  · rw [hsame]
    exact ⟨hx, hx.low_le, (le_iff.mp hle).2.2.trans hy.le_high⟩
  · rw [hynumber] at hnan
    contradiction
  · rw [hsame]
    exact ⟨⟨hy.low_le, (lt_iff.mp hlt).2.2.le.trans hx.le_high⟩, hy⟩
  · rw [hxnumber] at hnan
    contradiction

theorem Within.lesser (hx : Within a b x) (hy : Between a c y) : Within a b (lesser x y) := by
  rcases hx with ⟨hnumber, hzero⟩ | hx
  · rcases lesser_cases x y with ⟨hsame, -⟩ | ⟨-, -, hlt | hnan⟩
    · rw [hsame]
      exact .inl ⟨hnumber, hzero⟩
    · have hnegative := (lt_iff.mp hlt).2.2
      rw [hzero] at hnegative
      exact absurd hy.pos hnegative.not_gt
    · rw [hnumber] at hnan
      contradiction
  · exact .inr (hx.lesser hy).1

theorem Between.greater (hx : Between a b x) (hy : Below b y) : Between a b (greater x y) := by
  unfold Binary64.greater
  split
  · exact hx
  · next h =>
    rw [Bool.or_eq_true, decide_eq_true_iff, not_or] at h
    have hlt : value x < value y := by
      rw [← not_le]
      exact fun hle => h.1 (le_iff.mpr ⟨hy.isNaN, hx.isNaN, hle⟩)
    exact ⟨hx.low_le.trans hlt.le, hy.le_high⟩

end Operations

section Sum

theorem below_foldl {xs : List Float} {acc : Float} (hacc : Below e acc)
    (hxs : ∀ x ∈ xs, Below e x) (hlow : -1074 ≤ e) (hhigh : e + xs.length ≤ 1024) :
    Below (e + xs.length) (xs.foldl (· + ·) acc) ∧ value acc ≤ value (xs.foldl (· + ·) acc) ∧
      ∀ x ∈ xs, value x ≤ value (xs.foldl (· + ·) acc) := by
  induction xs generalizing acc e with
  | nil => exact ⟨by simpa using hacc, le_refl _, List.forall_mem_nil _⟩
  | cons x rest ih =>
    rw [List.forall_mem_cons] at hxs
    rw [List.length_cons, Nat.cast_add, Nat.cast_one] at hhigh ⊢
    have hsum := hacc.add hxs.1 hlow (by omega)
    obtain ⟨haccLe, hxLe⟩ := value_le_add hacc.nonneg hxs.1.nonneg hsum.isNaN
    obtain ⟨hbelow, hle, hrest⟩ :=
      ih hsum (fun y hy => (hxs.2 y hy).mono (by omega)) (by omega) (by omega)
    rw [List.foldl_cons, List.forall_mem_cons]
    rw [add_assoc, add_comm (1 : ℤ)] at hbelow
    exact ⟨hbelow, haccLe.trans hle, hxLe.trans hle, hrest⟩

/-- A sum of numbers that are zero or large enough is as large as any of them. -/
theorem between_sum {xs : List Float} (hxs : ∀ x ∈ xs, Below b x) (hx : x ∈ xs)
    (hlarge : Between a b x) (hlow : -1074 ≤ b) (hhigh : b + xs.length ≤ 1024) :
    Between a (b + xs.length) (sum xs) := by
  have hstart : Below b (-0.0) :=
    ⟨rfl, by rw [value_neg, value_zero, neg_zero], by
      rw [value_neg, value_zero, neg_zero]
      exact (two_zpow_pos b).le⟩
  obtain ⟨hbelow, -, hle⟩ := below_foldl hstart hxs hlow hhigh
  exact ⟨hlarge.low_le.trans (hle x hx), hbelow.le_high⟩

end Sum

theorem between_two : Between 1 1 2.0 := by
  have hvalue : value 2.0 = 2 ^ (1 : ℤ) := by rw [value_two, zpow_one]
  exact ⟨hvalue.ge, hvalue.le⟩

theorem between_infinity (ha : a ≤ 1024) : Between a 1024 (1.0 / 0.0) := by
  have hvalue : value (1.0 / 0.0) = 2 ^ (1024 : ℤ) := value_infinity
  exact ⟨hvalue ▸ two_zpow_le ha, hvalue.le⟩

theorem between_ofNat {n : ℕ} {k : ℤ} (hpos : 0 < n) (hn : (n : ℝ) ≤ 2 ^ k) (hk : k ≤ 1024) :
    Between 0 k (Float.ofNat n) := by
  refine between_of_nearest (nearest_ofNat n) ⟨?_, hn⟩ (by norm_num) hk
  rw [zpow_zero]
  exact_mod_cast hpos

theorem value_of_significand {m : ℕ} (h : isFinite x = true ∧ isNegative x = false ∧
    significand x = m ∧ exponent x = e) : value x = m * 2 ^ e := by
  obtain ⟨hfinite, hsign, rfl, rfl⟩ := h
  rw [(value_of_isFinite x hfinite).2, signOf, hsign, if_neg Bool.false_ne_true, sign_positive,
    one_mul]

theorem between_abs_ofInt {n : ℤ} (hlow : 2 ^ a ≤ (n.natAbs : ℝ)) (hhigh : (n.natAbs : ℝ) ≤ 2 ^ b)
    (ha : -1074 ≤ a) (hb : b ≤ 1024) : Between a b (Float.ofInt n).abs := by
  refine between_abs_of_nearest (nearest_ofInt n) ?_ ha hb
  rw [← Int.cast_abs, Int.abs_eq_natAbs, Int.cast_natCast]
  exact ⟨hlow, hhigh⟩

/-- A number that is far from both ends of the double range. -/
def Moderate (x : Float) : Prop := 1e-30 ≤ x ∧ x ≤ 1e30

instance (x : Float) : Decidable (Moderate x) := inferInstanceAs (Decidable (_ ∧ _))

theorem Moderate.between (h : Moderate x) : Between (-100) 100 x := by
  obtain ⟨hlow, hhigh⟩ := h
  have hleast : value 1e-30 = (5708990770823840 : ℕ) * 2 ^ (-152 : ℤ) :=
    value_of_significand (by decide +kernel)
  have hmost : value 1e30 = (7105427357601002 : ℕ) * 2 ^ (47 : ℤ) :=
    value_of_significand (by decide +kernel)
  refine ⟨?_, ?_⟩
  · refine le_trans ?_ (le_iff.mp hlow).2.2
    rw [hleast]
    norm_num
  · refine (le_iff.mp hhigh).2.2.trans ?_
    rw [hmost]
    norm_num

end StepMotion.Binary64
