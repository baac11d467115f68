/-! Decimal numbers as they are read from text: an optional sign, then digits with an optional
point and exponent, or a spelling of infinity or of what is not a number. The value is the nearest
double. -/
namespace StepMotion.Decimal

def digitsValue (digits : List Char) : Nat :=
  digits.foldl (fun n c => 10 * n + (c.toNat - '0'.toNat)) 0

/-- The double nearest to `digits * 10 ^ power`, infinite beyond the largest. The two first cases
keep the power of ten small; they lie far outside what a double holds. -/
def nearestFloat (digits : Nat) (power : Int) : Float :=
  let magnitude : Int := (toString digits).length + power
  if digits = 0 ∨ magnitude < -400 then 0.0
  else if 400 < magnitude then 1.0 / 0.0
  else Float.ofScientific digits (power < 0) power.natAbs

def splitSign : List Char → Bool × List Char
  | '+' :: cs => (false, cs)
  | '-' :: cs => (true, cs)
  | cs => (false, cs)

def applySign (negative : Bool) (x : Float) : Float := if negative then -x else x

def readExponent? (cs : List Char) : Option Int :=
  let (negative, digits) := splitSign cs
  if digits ≠ [] ∧ digits.all Char.isDigit then
    some (if negative then -(digitsValue digits : Int) else digitsValue digits)
  else none

def readUnsigned? (cs : List Char) : Option Float := do
  let whole := cs.takeWhile Char.isDigit
  let rest := cs.dropWhile Char.isDigit
  let (part, rest) := match rest with
    | '.' :: rest => (rest.takeWhile Char.isDigit, rest.dropWhile Char.isDigit)
    | rest => ([], rest)
  if whole ++ part = [] then none
  let exponent ← match rest with
    | [] => some 0
    | c :: rest => if c = 'e' ∨ c = 'E' then readExponent? rest else none
  some (nearestFloat (digitsValue (whole ++ part)) (exponent - part.length))

/-- Reads a whole text as a number. The words for infinity and for what is not a number may be in
either case. -/
def read? (cs : List Char) : Option Float :=
  let (negative, body) := splitSign cs
  let word := String.ofList (body.map Char.toLower)
  if word = "inf" ∨ word = "infinity" then some (applySign negative (1.0 / 0.0))
  else if word = "nan" then some (0.0 / 0.0)
  else (readUnsigned? body).map (applySign negative)

end StepMotion.Decimal
