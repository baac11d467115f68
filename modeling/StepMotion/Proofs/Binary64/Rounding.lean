import StepMotion.Proofs.Binary64.Real

/-! Rounding keeps the order of numbers and leaves those alone that already have 53 bits. -/
namespace StepMotion.Binary64

noncomputable section

theorem floor_le_nearestEven (x : ℝ) : ⌊x⌋ ≤ nearestEven x := by
  unfold nearestEven
  split <;> omega

theorem nearestEven_le_floor_add_one (x : ℝ) : nearestEven x ≤ ⌊x⌋ + 1 := by
  unfold nearestEven
  split <;> omega

theorem nearestEven_mono {x y : ℝ} (h : x ≤ y) : nearestEven x ≤ nearestEven y := by
  rcases (Int.floor_mono h).lt_or_eq with hlt | heq
  · have hx := nearestEven_le_floor_add_one x
    have hy := floor_le_nearestEven y
    omega
  · -- Between the same two integers the choice goes up at most once.
    unfold nearestEven
    rw [heq]
    split
    · split <;> omega
    · next hx =>
      rw [if_neg]
      rintro (hy | ⟨hy, heven⟩)
      · exact hx (.inl (by linarith))
      · rcases h.lt_or_eq with hlt | hlast
        · exact hx (.inl (by linarith))
        · exact hx (.inr ⟨by rw [hlast]; exact hy, heven⟩)

@[simp] theorem nearestEven_intCast (n : ℤ) : nearestEven n = n := by
  simp [nearestEven]

theorem le_nearestEven {n : ℤ} {x : ℝ} (h : (n : ℝ) - 1 / 2 < x) : n ≤ nearestEven x := by
  have hfloor := floor_le_nearestEven x
  by_cases hn : n ≤ ⌊x⌋
  · omega
  · -- Then `x` lies in the upper half below `n`.
    have hnext : ((⌊x⌋ + 1 : ℤ) : ℝ) ≤ n := by exact_mod_cast (by omega : ⌊x⌋ + 1 ≤ n)
    push_cast at hnext
    have hbelow := Int.lt_floor_add_one x
    have hlast : n < ⌊x⌋ + 2 := by
      have : (n : ℝ) < ((⌊x⌋ + 2 : ℤ) : ℝ) := by push_cast; linarith
      exact_mod_cast this
    unfold nearestEven
    rw [if_neg]
    · omega
    · rintro (hx | ⟨hx, -⟩) <;> linarith

theorem abs_sub_nearestEven (x : ℝ) : |x - nearestEven x| ≤ 1 / 2 ∧
    (|x - nearestEven x| = 1 / 2 → Even (nearestEven x)) := by
  have hlow := Int.floor_le x
  have hhigh := Int.lt_floor_add_one x
  unfold nearestEven
  split
  · next hdown =>
    rw [abs_of_nonneg (by linarith)]
    rcases hdown with hlt | ⟨heq, heven⟩
    · exact ⟨hlt.le, fun htie => absurd htie hlt.ne⟩
    · exact ⟨heq.le, fun _ => heven⟩
  · next hup =>
    rw [not_or, not_and, not_lt] at hup
    push_cast
    rw [abs_sub_comm, abs_of_nonneg (by linarith)]
    refine ⟨by linarith, fun htie => Int.even_add_one.mpr (hup.2 (by linarith))⟩

theorem nearestEven_eq {x : ℝ} {n : ℤ} (h : |x - n| ≤ 1 / 2) (htie : |x - n| = 1 / 2 → Even n) :
    nearestEven x = n := by
  obtain ⟨hnear, heven⟩ := abs_sub_nearestEven x
  rw [abs_le] at h hnear
  have hbelow : (nearestEven x : ℝ) ≤ ((n + 1 : ℤ) : ℝ) := by push_cast; linarith
  have habove : ((n - 1 : ℤ) : ℝ) ≤ nearestEven x := by push_cast; linarith
  have hbelow' : nearestEven x ≤ n + 1 := by exact_mod_cast hbelow
  have habove' : n - 1 ≤ nearestEven x := by exact_mod_cast habove
  -- Of two integers that are both a half away only one is even.
  have hparity : ∀ m : ℤ, |x - m| = 1 / 2 → |x - n| = 1 / 2 → (|x - m| = 1 / 2 → Even m) →
      m ≠ n + 1 ∧ m ≠ n - 1 := by
    intro m hm hn hmeven
    obtain ⟨k, hk⟩ := hmeven hm
    obtain ⟨l, hl⟩ := htie hn
    omega
  by_contra hne
  obtain hnext | hprev : nearestEven x = n + 1 ∨ nearestEven x = n - 1 := by omega
  · have hcast : (nearestEven x : ℝ) = n + 1 := by exact_mod_cast hnext
    refine (hparity _ ?_ ?_ heven).1 hnext
    · rw [hcast, abs_sub_comm, abs_of_nonneg] <;> linarith
    · rw [abs_of_nonneg] <;> linarith
  · have hcast : (nearestEven x : ℝ) = n - 1 := by exact_mod_cast hprev
    refine (hparity _ ?_ ?_ heven).2 hprev
    · rw [hcast, abs_of_nonneg] <;> linarith
    · rw [abs_sub_comm, abs_of_nonneg] <;> linarith

theorem nearestEven_neg (x : ℝ) : nearestEven (-x) = -nearestEven x := by
  obtain ⟨hnear, heven⟩ := abs_sub_nearestEven x
  have hdistance : |-x - ((-nearestEven x : ℤ) : ℝ)| = |x - nearestEven x| := by
    rw [Int.cast_neg, ← neg_sub', abs_neg]
  apply nearestEven_eq
  · rwa [hdistance]
  · rw [hdistance]
    exact fun htie => (heven htie).neg

theorem le_lastPlace (r : ℝ) : -1074 ≤ lastPlace r := le_max_right _ _

theorem two_zpow_pos (e : ℤ) : (0 : ℝ) < 2 ^ e := zpow_pos two_pos e

theorem two_zpow_add (d e : ℤ) : (2 : ℝ) ^ (d + e) = 2 ^ d * 2 ^ e :=
  zpow_add₀ two_ne_zero d e

theorem two_zpow_le {d e : ℤ} (h : d ≤ e) : (2 : ℝ) ^ d ≤ 2 ^ e :=
  zpow_le_zpow_right₀ one_le_two h

@[simp] theorem rounded_zero : rounded 0 = 0 := by
  have hzero : nearestEven 0 = 0 := by exact_mod_cast nearestEven_intCast 0
  simp [rounded, hzero]

theorem rounded_nonneg {r : ℝ} (h : 0 ≤ r) : 0 ≤ rounded r := by
  have hquotient : (0 : ℝ) ≤ r / 2 ^ lastPlace r := div_nonneg h (two_zpow_pos _).le
  have hnearest := nearestEven_mono hquotient
  rw [show nearestEven 0 = 0 by exact_mod_cast nearestEven_intCast 0] at hnearest
  have hcast : (0 : ℝ) ≤ nearestEven (r / 2 ^ lastPlace r) := by exact_mod_cast hnearest
  exact mul_nonneg hcast (two_zpow_pos _).le

theorem rounded_neg (r : ℝ) : rounded (-r) = -rounded r := by
  have hplace : lastPlace (-r) = lastPlace r := by rw [lastPlace, abs_neg, ← lastPlace]
  rw [rounded, rounded, hplace, neg_div, nearestEven_neg, Int.cast_neg, neg_mul]

theorem lastPlace_mono {r s : ℝ} (hr : 0 < r) (h : r ≤ s) : lastPlace r ≤ lastPlace s := by
  unfold lastPlace
  rw [abs_of_pos hr, abs_of_pos (hr.trans_le h)]
  have hlog := Int.log_mono_right (b := 2) hr h
  omega

theorem lt_of_lastPlace {r : ℝ} (h : 0 < r) : r < 2 ^ (lastPlace r + 53) := by
  have hlog := Int.lt_zpow_succ_log_self (b := 2) (by norm_num) r
  have hle : (2 : ℝ) ^ (Int.log 2 r + 1) ≤ 2 ^ (lastPlace r + 53) := by
    apply two_zpow_le
    unfold lastPlace
    rw [abs_of_pos h]
    omega
  exact_mod_cast hlog.trans_le (by exact_mod_cast hle)

theorem le_of_lastPlace {r : ℝ} (h : 0 < r) (hplace : -1074 < lastPlace r) :
    2 ^ (lastPlace r + 52) ≤ r := by
  have hlog := Int.zpow_log_le_self (b := 2) (by norm_num) h
  have hplaceEq : lastPlace r + 52 = Int.log 2 r := by
    unfold lastPlace at hplace ⊢
    rw [abs_of_pos h] at hplace ⊢
    omega
  rw [hplaceEq]
  exact_mod_cast hlog

theorem rounded_le {r : ℝ} (h : 0 < r) : rounded r ≤ 2 ^ (lastPlace r + 53) := by
  have hquotient : r / 2 ^ lastPlace r ≤ ((2 ^ 53 : ℤ) : ℝ) := by
    rw [div_le_iff₀ (two_zpow_pos _)]
    have hlt := (lt_of_lastPlace h).le
    rw [add_comm, two_zpow_add] at hlt
    exact_mod_cast hlt
  have hnearest := nearestEven_mono hquotient
  rw [nearestEven_intCast] at hnearest
  have hcast : (nearestEven (r / 2 ^ lastPlace r) : ℝ) ≤ 2 ^ (53 : ℤ) := by exact_mod_cast hnearest
  rw [add_comm, two_zpow_add]
  exact mul_le_mul_of_nonneg_right hcast (two_zpow_pos _).le

theorem le_rounded {r : ℝ} (h : 0 < r) (hplace : -1074 < lastPlace r) :
    2 ^ (lastPlace r + 52) ≤ rounded r := by
  have hquotient : ((2 ^ 52 : ℤ) : ℝ) ≤ r / 2 ^ lastPlace r := by
    rw [le_div_iff₀ (two_zpow_pos _)]
    have hle := le_of_lastPlace h hplace
    rw [add_comm, two_zpow_add] at hle
    exact_mod_cast hle
  have hnearest := nearestEven_mono hquotient
  rw [nearestEven_intCast] at hnearest
  have hcast : (2 : ℝ) ^ (52 : ℤ) ≤ nearestEven (r / 2 ^ lastPlace r) := by exact_mod_cast hnearest
  rw [add_comm, two_zpow_add]
  exact mul_le_mul_of_nonneg_right hcast (two_zpow_pos _).le

theorem rounded_mono {r s : ℝ} (hr : 0 ≤ r) (h : r ≤ s) : rounded r ≤ rounded s := by
  rcases hr.eq_or_lt with hzero | hr
  · rw [← hzero, rounded_zero]
    exact rounded_nonneg (by linarith)
  have hs := hr.trans_le h
  rcases (lastPlace_mono hr h).eq_or_lt with hplace | hplace
  · unfold rounded
    rw [hplace]
    have hquotient : r / 2 ^ lastPlace s ≤ s / 2 ^ lastPlace s :=
      div_le_div_of_nonneg_right h (two_zpow_pos _).le
    have hcast : (nearestEven (r / 2 ^ lastPlace s) : ℝ) ≤ nearestEven (s / 2 ^ lastPlace s) := by
      exact_mod_cast nearestEven_mono hquotient
    exact mul_le_mul_of_nonneg_right hcast (two_zpow_pos _).le
  · -- A power of two lies between the results.
    have hlow := le_lastPlace r
    calc
      rounded r ≤ 2 ^ (lastPlace r + 53) := rounded_le hr
      _ ≤ 2 ^ (lastPlace s + 52) := two_zpow_le (by omega)
      _ ≤ rounded s := le_rounded hs (by omega)

/-- A number with 53 bits that end at or above the last place stays. -/
theorem rounded_of_bits {m : ℤ} {e : ℤ} (hm : |m| < 2 ^ 53) (he : -1074 ≤ e) :
    rounded (m * 2 ^ e) = m * 2 ^ e := by
  by_cases hzero : m = 0
  · simp [hzero]
  have hplace : lastPlace (m * 2 ^ e) ≤ e := by
    have hpos : 0 < |(m : ℝ) * 2 ^ e| := by
      rw [abs_pos]
      exact mul_ne_zero (by exact_mod_cast hzero) (two_zpow_pos e).ne'
    have hlt : |(m : ℝ) * 2 ^ e| < ((2 : ℕ) : ℝ) ^ (e + 53) := by
      rw [abs_mul, abs_of_pos (two_zpow_pos e), add_comm, Nat.cast_ofNat, two_zpow_add]
      have hcast : |(m : ℝ)| < 2 ^ (53 : ℤ) := by exact_mod_cast hm
      exact mul_lt_mul_of_pos_right hcast (two_zpow_pos e)
    have hlog := (Int.lt_zpow_iff_log_lt (by norm_num) hpos).mp hlt
    unfold lastPlace
    omega
  obtain ⟨k, hk⟩ := Int.le.dest hplace
  have hquotient : (m : ℝ) * 2 ^ e / 2 ^ lastPlace (m * 2 ^ e) = ((m * 2 ^ k : ℤ) : ℝ) := by
    rw [div_eq_iff (two_zpow_pos _).ne']
    conv_lhs => rw [← hk]
    rw [add_comm, two_zpow_add, zpow_natCast]
    push_cast
    ring
  unfold rounded
  rw [hquotient, nearestEven_intCast, ← hquotient, div_mul_cancel₀ _ (two_zpow_pos _).ne']

theorem abs_sub_rounded (r : ℝ) : |r - rounded r| ≤ 2 ^ lastPlace r / 2 := by
  have hscaled : r - rounded r =
      (r / 2 ^ lastPlace r - nearestEven (r / 2 ^ lastPlace r)) * 2 ^ lastPlace r := by
    rw [rounded, sub_mul, div_mul_cancel₀ _ (two_zpow_pos _).ne']
  have hnear := (abs_sub_nearestEven (r / 2 ^ lastPlace r)).1
  calc
    |r - rounded r| = |r / 2 ^ lastPlace r - nearestEven (r / 2 ^ lastPlace r)| *
        2 ^ lastPlace r := by rw [hscaled, abs_mul, abs_of_pos (two_zpow_pos _)]
    _ ≤ 1 / 2 * 2 ^ lastPlace r := mul_le_mul_of_nonneg_right hnear (two_zpow_pos _).le
    _ = 2 ^ lastPlace r / 2 := by ring

theorem lastPlace_eq {r : ℝ} {e : ℤ} (he : -1074 ≤ e) (hlow : 2 ^ (52 + e) ≤ r)
    (hhigh : r < 2 ^ (53 + e)) : lastPlace r = e := by
  have hr : 0 < r := (two_zpow_pos _).trans_le hlow
  have hle : 52 + e ≤ Int.log 2 r := by
    rw [← Int.zpow_le_iff_le_log one_lt_two hr, Nat.cast_ofNat]
    exact hlow
  have hlt : Int.log 2 r < 53 + e := by
    rw [← Int.lt_zpow_iff_log_lt one_lt_two hr, Nat.cast_ofNat]
    exact hhigh
  unfold lastPlace
  rw [abs_of_pos hr]
  omega

end

end StepMotion.Binary64
