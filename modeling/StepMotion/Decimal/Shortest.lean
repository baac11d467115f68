import StepMotion.Binary64

/-! The shortest decimal that reads back to a double. A positive double stands for an interval of
numbers that round to it; the shortest decimal is the point of that interval on the coarsest
power-of-ten grid that has one, and of two such points the nearer. All is exact integer arithmetic:
both the interval and the grid are scaled to one common denominator. -/
namespace StepMotion.Decimal

inductive Tie where
  | even | up
  deriving DecidableEq, Repr

structure Scaled where
  digits : Nat
  power : Int
  deriving DecidableEq, Repr

/-- The interval of numbers that round to a positive double, in quarters of its last binary place.
-/
structure Interval where
  least : Nat
  value : Nat
  greatest : Nat
  unit : Int
  closed : Bool

def Interval.ofFloat (x : Float) : Interval :=
  let m := Binary64.significand x
  let atPowerOfTwo := m = Nat.pow 2 52 ∧ 1 < Binary64.exponentField x
  { least := if atPowerOfTwo then 4 * m - 1 else 4 * m - 2
    value := 4 * m
    greatest := 4 * m + 2
    unit := Binary64.exponent x - 2
    closed := m % 2 = 0 }

/-- The nearest point of the interval on the grid of multiples of `10 ^ power`, if it has one. -/
def Interval.gridPoint? (i : Interval) (tie : Tie) (power : Int) : Option Scaled :=
  let step := Nat.pow 10 power.toNat * Nat.pow 2 (-i.unit).toNat
  let scale := Nat.pow 10 (-power).toNat * Nat.pow 2 i.unit.toNat
  let inside (d : Nat) : Bool :=
    if i.closed then i.least * scale ≤ d * step && d * step ≤ i.greatest * scale
    else i.least * scale < d * step && d * step < i.greatest * scale
  let below := i.value * scale / step
  let toBelow := i.value * scale - below * step
  let toAbove := (below + 1) * step - i.value * scale
  let nearer :=
    if toBelow < toAbove then below
    else if toAbove < toBelow then below + 1
    else match tie with
      | .up => below + 1
      | .even => if below % 2 = 0 then below else below + 1
  match inside below, inside (below + 1) with
  | true, true => some ⟨nearer, power⟩
  | true, false => some ⟨below, power⟩
  | false, true => some ⟨below + 1, power⟩
  | false, false => none

def Interval.startPower (i : Interval) : Int := (i.unit + i.value.log2 + 1) * 30103 / 100000 + 1

/-- The shortest decimal for a positive finite double. Seventeen digits always suffice, so the
search ends within its range. -/
def shortest (tie : Tie) (x : Float) : Scaled :=
  let i := Interval.ofFloat x
  ((List.range 20).findSome? fun (k : Nat) => i.gridPoint? tie (i.startPower - k)).getD ⟨0, 0⟩

end StepMotion.Decimal
