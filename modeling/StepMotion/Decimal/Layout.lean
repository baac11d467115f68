import StepMotion.Decimal.Shortest

/-! How a double is written: the digits are the shortest ones that read back, and a `Layout` says
where the point stands, when an exponent is written and how. -/
namespace StepMotion.Decimal

structure Layout where
  tie : Tie
  /-- Decimal exponents from `least` to `greatest` are written without an exponent; `none` is no
  limit. -/
  positional : Option (Int × Int)
  pointZero : Bool
  plus : Bool
  infinity : String := "inf"
  notNumber : String := "NaN"

/-- Digits with the point after the first `places` of them, padded with zeros where it falls
outside. -/
def pointed (digits : String) (places : Int) (pointZero : Bool) : String :=
  let n := digits.length
  if places ≤ 0 then
    "0." ++ "".pushn '0' (-places).toNat ++ digits
  else if n ≤ places.toNat then
    digits ++ "".pushn '0' (places.toNat - n) ++ (if pointZero then ".0" else "")
  else
    (digits.take places.toNat).toString ++ "." ++ (digits.drop places.toNat).toString

def scientific (digits : String) (exponent : Int) (plus : Bool) : String :=
  let mantissa := if digits.length = 1 then digits else pointed digits 1 false
  mantissa ++ "e" ++ (if plus && 0 ≤ exponent then "+" else "") ++ toString exponent

namespace Layout

def renderPositive (layout : Layout) (x : Float) : String :=
  let s := shortest layout.tie x
  let digits := toString s.digits
  let exponent := s.power + digits.length - 1
  match layout.positional with
  | some (least, greatest) =>
    if least ≤ exponent ∧ exponent ≤ greatest then pointed digits (exponent + 1) layout.pointZero
    else scientific digits exponent layout.plus
  | none => pointed digits (exponent + 1) layout.pointZero

def renderMagnitude (layout : Layout) (x : Float) : String :=
  if !Binary64.isFinite x then layout.infinity
  else if Binary64.significand x = 0 then (if layout.pointZero then "0.0" else "0")
  else layout.renderPositive x

def render (layout : Layout) (x : Float) : String :=
  if x.isNaN then layout.notNumber
  else (if Binary64.isNegative x then "-" else "") ++ layout.renderMagnitude x

end Layout
end StepMotion.Decimal
