/-! Double precision numbers as exact quantities: a finite one is a sign and `significand * 2 ^
exponent`. Rounding to an integer is done on those two, so that it is exact arithmetic, and the
choice of the lesser or greater of two numbers passes over one that is not a number. -/
namespace StepMotion.Binary64

def magnitudeBits (x : Float) : Nat := x.toBits.toNat % Nat.pow 2 63

def isNegative (x : Float) : Bool := Nat.pow 2 63 ≤ x.toBits.toNat

def exponentField (x : Float) : Nat := magnitudeBits x / Nat.pow 2 52

def isFinite (x : Float) : Bool := exponentField x < 2047

/-- The natural number by which `2 ^ exponent x` is multiplied to give a finite `x` without its
sign. -/
def significand (x : Float) : Nat :=
  if exponentField x = 0 then magnitudeBits x else Nat.pow 2 52 + magnitudeBits x % Nat.pow 2 52

def exponent (x : Float) : Int := (max (exponentField x) 1 : Nat) - 1075

/-- The integer nearest to `m * 2 ^ q`, a half going up. -/
def nearestNat (m : Nat) : Int → Nat
  | .ofNat k => m * Nat.pow 2 k
  | .negSucc k => (m + Nat.pow 2 k) / Nat.pow 2 (k + 1)

/-- The integer nearest to a finite number, a half going away from zero. -/
def nearest? (x : Float) : Option Int :=
  if isFinite x then
    let n : Int := nearestNat (significand x) (exponent x)
    some (if isNegative x then -n else n)
  else none

/-- The nearest integer that 64 bits hold; 0 for what is not a number. -/
def nearestInt64 (x : Float) : Int :=
  match nearest? x with
  | some n => max (-Int.pow 2 63) (min n (Int.pow 2 63 - 1))
  | none => if x.isNaN then 0 else if isNegative x then -Int.pow 2 63 else Int.pow 2 63 - 1

/-- The lesser of two numbers, or the one that is a number. -/
def lesser (x y : Float) : Float := if x ≤ y || y.isNaN then x else y

def greater (x y : Float) : Float := if y ≤ x || y.isNaN then x else y

def clamp (x low high : Float) : Float := if x < low then low else if high < x then high else x

/-- The sum from left to right, which is `-0.0` for no summand. -/
def sum (xs : List Float) : Float := xs.foldl (· + ·) (-0.0)

end StepMotion.Binary64
