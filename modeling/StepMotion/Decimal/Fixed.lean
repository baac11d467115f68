import StepMotion.Binary64

/-! A double with a set number of decimal places, rounded once from its exact value, a half going
to the even neighbour. -/
namespace StepMotion.Decimal

/-- The quotient rounded to the nearest integer, a half to the even neighbour. -/
def roundDiv (num den : Nat) : Nat :=
  let q := num / den
  let r := num % den
  if 2 * r < den ∨ (2 * r = den ∧ q % 2 = 0) then q else q + 1

/-- The last of `places` decimal places of `m * 2 ^ q` counted in units. -/
def fixedUnits (places m : Nat) (q : Int) : Nat :=
  roundDiv (m * Nat.pow 10 places * Nat.pow 2 q.toNat) (Nat.pow 2 (-q).toNat)

def fixedText (places units : Nat) : String :=
  let whole := toString (units / Nat.pow 10 places)
  let part := toString (units % Nat.pow 10 places)
  if places = 0 then whole else whole ++ "." ++ "".pushn '0' (places - part.length) ++ part

def fixed (places : Nat) (x : Float) : String :=
  if x.isNaN then "NaN"
  else (if Binary64.isNegative x then "-" else "") ++
    (if Binary64.isFinite x then
      fixedText places (fixedUnits places (Binary64.significand x) (Binary64.exponent x))
    else "inf")

end StepMotion.Decimal
