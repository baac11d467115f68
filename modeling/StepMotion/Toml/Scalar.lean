import StepMotion.Decimal.Reader
import StepMotion.Binary64
import StepMotion.Toml.Value

/-! Values of a TOML document that are written without quotes: booleans, numbers, dates and times.
An integer is recognised by its beginning. One that begins well is a value even if the digits that
follow are wrong, and whoever wants a number from it then gets none. -/
namespace StepMotion.Toml.Scalar

def separates (isDigit : Char → Bool) (cs : List Char) : Bool :=
  let groups := cs.splitOn '_'
  groups.tail.all (·.head?.any isDigit) && groups.dropLast.all (·.getLast?.any isDigit)

def withoutSeparators (cs : List Char) : List Char := cs.filter (· ≠ '_')

def ungroup? (isDigit : Char → Bool) (cs : List Char) : Option (List Char) :=
  let digits := withoutSeparators cs
  if digits ≠ [] ∧ digits.all isDigit ∧ separates isDigit cs then some digits else none

def isHexDigit (c : Char) : Bool := c.isDigit || ('a' ≤ c && c ≤ 'f') || ('A' ≤ c && c ≤ 'F')

def digitValue (c : Char) : Nat :=
  if c.isDigit then c.toNat - '0'.toNat else c.toLower.toNat - 'a'.toNat + 10

def readBase (base : Nat) (digits : List Char) : Nat :=
  digits.foldl (fun n c => base * n + digitValue c) 0

/-- An integer is kept if 128 bits hold it, with or without a sign. -/
def ofInt (n : Int) : Value :=
  if -Int.pow 2 127 ≤ n ∧ n < Int.pow 2 128 then .integer n else .badNumber

/-- What follows the mark of a base. There may be no digit, and then no number. -/
def based? (base : Nat) (isDigit : Char → Bool) (cs : List Char) : Option Value :=
  if cs = [] then some .badNumber
  else (ungroup? isDigit cs).map fun digits => ofInt (readBase base digits)

def hasNeedlessZero (cs : List Char) : Bool := cs.head? = some '0' && cs ≠ ['0']

def isForeign (c : Char) : Bool := c ∈ ['.', 'e', 'E', ' ']

/-- Decimal digits, and after an underscore whatever does not make another kind of value. The digits
next to an underscore may be those of any base. -/
def beginsDecimal (cs : List Char) : Bool :=
  let rest := cs.dropWhile Char.isDigit
  cs.head?.any Char.isDigit && !hasNeedlessZero cs && separates isHexDigit cs &&
    (rest.isEmpty || (rest.head? = some '_' && !rest.any isForeign))

def integer? : List Char → Option Value
  | '0' :: 'x' :: cs => based? 16 isHexDigit cs
  | '0' :: 'o' :: cs => based? 8 (fun c => '0' ≤ c && c ≤ '7') cs
  | '0' :: 'b' :: cs => based? 2 (fun c => c = '0' || c = '1') cs
  | cs =>
    let (negative, body) := Decimal.splitSign cs
    if !beginsDecimal body then none
    else
      let digits := withoutSeparators body
      let n : Int := Decimal.digitsValue digits
      some (if !digits.all Char.isDigit then .badNumber else ofInt (if negative then -n else n))

def exponent? (cs : List Char) : Option Int := do
  let (negative, body) := Decimal.splitSign cs
  let digits ← ungroup? Char.isDigit body
  return if negative then -(Decimal.digitsValue digits : Int) else Decimal.digitsValue digits

def isExponentMark (c : Char) : Bool := c = 'e' || c = 'E'

/-- A float has a point or an exponent or both, and digits on either side of a point. -/
def float? (cs : List Char) : Option Value := do
  let (negative, body) := Decimal.splitSign cs
  if body = ['i', 'n', 'f'] then return .float (Decimal.applySign negative (1.0 / 0.0))
  if body = ['n', 'a', 'n'] then return .float (0.0 / 0.0)
  let mantissa := body.takeWhile (!isExponentMark ·)
  let power ← match body.dropWhile (!isExponentMark ·) with
    | [] => if mantissa.contains '.' then some 0 else none
    | _ :: rest => exponent? rest
  let whole ← ungroup? Char.isDigit (mantissa.takeWhile (· ≠ '.'))
  if hasNeedlessZero whole then none
  let part ← match mantissa.dropWhile (· ≠ '.') with
    | [] => some []
    | _ :: rest => ungroup? Char.isDigit rest
  let x := Decimal.nearestFloat (Decimal.digitsValue (whole ++ part)) (power - part.length)
  return if Binary64.isFinite x then .float (Decimal.applySign negative x) else .badNumber

def takeNumber? (count : Nat) (cs : List Char) : Option (Nat × List Char) :=
  let digits := cs.take count
  if digits.length = count ∧ digits.all Char.isDigit then
    some (Decimal.digitsValue digits, cs.drop count)
  else none

def expect? (c : Char) : List Char → Option (List Char)
  | d :: rest => if d = c then some rest else none
  | [] => none

def daysInMonth (year month : Nat) : Nat :=
  if month = 2 then
    if year % 4 = 0 ∧ (year % 100 ≠ 0 ∨ year % 400 = 0) then 29 else 28
  else if month ∈ [4, 6, 9, 11] then 30 else 31

def date? (cs : List Char) : Option (List Char) := do
  let (year, cs) ← takeNumber? 4 cs
  let (month, cs) ← takeNumber? 2 (← expect? '-' cs)
  let (day, cs) ← takeNumber? 2 (← expect? '-' cs)
  if 1 ≤ month ∧ month ≤ 12 ∧ 1 ≤ day ∧ day ≤ daysInMonth year month then some cs else none

/-- Seconds may have a fraction; a leap second is one more. -/
def seconds? (cs : List Char) : Option (List Char) := do
  let (second, cs) ← takeNumber? 2 cs
  if 60 < second then none
  match cs with
  | '.' :: cs => if (cs.takeWhile Char.isDigit) = [] then none else some (cs.dropWhile Char.isDigit)
  | cs => some cs

def time? (cs : List Char) : Option (List Char) := do
  let (hour, cs) ← takeNumber? 2 cs
  let (minute, cs) ← takeNumber? 2 (← expect? ':' cs)
  if 23 < hour ∨ 59 < minute then none
  match cs with
  | ':' :: cs => seconds? cs
  | cs => some cs

def isOffset (cs : List Char) : Bool :=
  match cs with
  | ['Z'] | ['z'] => true
  | sign :: cs =>
    (sign = '+' || sign = '-') && (do
      let (hour, cs) ← takeNumber? 2 cs
      let (minute, cs) ← takeNumber? 2 (← expect? ':' cs)
      return hour ≤ 23 && minute ≤ 59 && cs.isEmpty).getD false
  | [] => false

/-- A date, a time, or both with an offset from universal time if there is one. -/
def isDateTime (cs : List Char) : Bool :=
  match date? cs with
  | none => time? cs = some []
  | some [] => true
  | some (mark :: cs) =>
    (mark = 'T' || mark = 't' || mark = ' ') && match time? cs with
      | some rest => rest.isEmpty || isOffset rest
      | none => false

def read? (cs : List Char) : Option Value :=
  if cs = ['t', 'r', 'u', 'e'] then some (.boolean true)
  else if cs = ['f', 'a', 'l', 's', 'e'] then some (.boolean false)
  else if isDateTime cs then some .dateTime
  else integer? cs <|> float? cs

end StepMotion.Toml.Scalar
