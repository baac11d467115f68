/-! Values of a TOML document. A date or time is kept only as such, for nothing here looks into
one. -/
namespace StepMotion.Toml

inductive Value where
  | string (text : String)
  | integer (n : Int)
  | float (x : Float)
  | boolean (on : Bool)
  | dateTime
  /-- A word that looks like a number and gives none: it is larger than any type holds, or its
  digits are not those of its base. -/
  | badNumber
  | array (items : List Value)
  | table (entries : List (String × Value))

namespace Value

mutual

/-- Whether a reader that has no use for a value can pass over it: every number in it is one. -/
def isPassable : Value → Bool
  | badNumber => false
  | array items => arePassable items
  | table entries => haveOnlyPassable entries
  | _ => true

def arePassable : List Value → Bool
  | [] => true
  | item :: rest => item.isPassable && arePassable rest

def haveOnlyPassable : List (String × Value) → Bool
  | [] => true
  | (_, value) :: rest => value.isPassable && haveOnlyPassable rest

end

end Value
end StepMotion.Toml
