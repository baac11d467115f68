import StepMotion.Axis
import StepMotion.Binary64
import StepMotion.Decimal.Reader
import StepMotion.Text.Blank
import StepMotion.Text.Lines

/-! Move lists. A line asks for one move in words that are a letter and a number: an axis and its
target in mm, or `F` and a feedrate in mm/s. A bare `R` makes the move a rapid one, and a bare `H`
alone on a line reports that the machine stands on its home switches. Letters may be in either case,
a `#` starts a comment, and a line without a word asks for nothing. -/
namespace StepMotion

inductive MoveKind where
  | coordinated | rapid | home
  deriving DecidableEq, Repr

structure MoveRequest where
  kind : MoveKind := .coordinated
  /-- The targets, each axis once; an axis without one stays where it is. -/
  axes : List (Axis × Float) := []
  feedrate : Option Float := none
  line : Nat
  deriving DecidableEq

inductive MoveListError where
  | invalidWord (line : Nat) (word : String)
  | invalidNumber (line : Nat) (word : String)
  | homeWithMove (line : Nat)
  deriving DecidableEq, Repr

def MoveListError.message : MoveListError → String
  | .invalidWord line word => s!"Line {line}: unknown word '{word}'"
  | .invalidNumber line word => s!"Line {line}: invalid number in '{word}'"
  | .homeWithMove line => s!"Line {line}: 'H' takes no other words"

namespace MoveRequest

def setTarget (axis : Axis) (value : Float) : List (Axis × Float) → List (Axis × Float)
  | [] => [(axis, value)]
  | entry :: rest =>
    if entry.1 = axis then (axis, value) :: rest else entry :: setTarget axis value rest

def number? (value : List Char) : Option Float := (Decimal.read? value).filter Binary64.isFinite

/-- Adds what a word asks for. The number is looked at before the letter. -/
def addWord (request : MoveRequest) (word : List Char) : Except MoveListError MoveRequest :=
  let unknown := .error (.invalidWord request.line (String.ofList word))
  match word with
  | [] => .ok request
  | [letter] => if letter.toUpper = 'R' then .ok { request with kind := .rapid } else unknown
  | letter :: value =>
    match number? value with
    | none => .error (.invalidNumber request.line (String.ofList word))
    | some number =>
      if letter.toUpper = 'F' then .ok { request with feedrate := some number }
      else match Axis.ofLetter? letter with
        | some axis => .ok { request with axes := setTarget axis number request.axes }
        | none => unknown

def isHomeWord (word : List Char) : Bool := word.map Char.toUpper = ['H']

def wordsOfLine (line : List Char) : List (List Char) := Text.words (line.takeWhile (· ≠ '#'))

def ofLine? (number : Nat) (line : List Char) : Except MoveListError (Option MoveRequest) :=
  let words := wordsOfLine line
  if words = [] then .ok none
  else if words.any isHomeWord then
    if words.length = 1 then .ok (some { kind := .home, line := number })
    else .error (.homeWithMove number)
  else (words.foldlM addWord { line := number }).map some

end MoveRequest

namespace MoveList

def ofLines (first : Nat) : List (List Char) → Except MoveListError (List MoveRequest)
  | [] => .ok []
  | line :: rest => do
    let request ← MoveRequest.ofLine? first line
    let requests ← ofLines (first + 1) rest
    return request.toList ++ requests

def parse (text : String) : Except MoveListError (List MoveRequest) :=
  ofLines 1 (Text.lines text.toList)

end MoveList
end StepMotion
