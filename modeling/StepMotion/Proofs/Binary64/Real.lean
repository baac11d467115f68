import Mathlib

/-! Doubles and real numbers: the number that a double stands for and rounding to 53 significant
bits, to nearest with ties to even. An infinity stands for the next power of two after the finite
numbers. -/
namespace StepMotion.Binary64

open Float.Model UnpackedFloat

noncomputable section

def nearestEven (x : ℝ) : ℤ :=
  if x - ⌊x⌋ < 1 / 2 ∨ x - ⌊x⌋ = 1 / 2 ∧ Even ⌊x⌋ then ⌊x⌋ else ⌊x⌋ + 1

/-- The exponent of the last bit that is kept of a number. -/
def lastPlace (r : ℝ) : ℤ := max (Int.log 2 |r| - 52) (-1074)

def rounded (r : ℝ) : ℝ := nearestEven (r / 2 ^ lastPlace r) * 2 ^ lastPlace r

def sign (s : Sign) : ℝ := s.apply 1

def limit : ℝ := 2 ^ (1024 : ℤ)

/-- The number that an unpacked one stands for, zero for what is not a number. -/
def realOf : UnpackedFloat → ℝ
  | .notANumber => 0
  | .infinity s => sign s * limit
  | .zero _ => 0
  | .finite s m e _ => sign s * (m * 2 ^ e)

/-- `r` lies where the residual bits say between the significand and the next integer. -/
def Locates (em : ExtendedMantissa) (r : ℝ) : Prop :=
  ∃ tail : ℝ, r = em.mantissa + (if em.roundBit then 1 / 2 else 0) + tail ∧
    0 ≤ tail ∧ tail < 1 / 2 ∧ (tail = 0 ↔ em.stickyBit = false)

end

end StepMotion.Binary64
