/-! The ten logical axes, in register order, and the letters that name them. A letter is read in
either case and written as a capital; the two laws below say that each axis has one letter. -/
namespace StepMotion

inductive Axis where
  | x | y | z | e | a | b | c | u | v | w
  deriving DecidableEq, Repr

namespace Axis

def all : List Axis := [.x, .y, .z, .e, .a, .b, .c, .u, .v, .w]

@[simp] theorem mem_all (axis : Axis) : axis ∈ all := by cases axis <;> decide

theorem nodup_all : all.Nodup := by decide

def letter : Axis → Char
  | .x => 'X' | .y => 'Y' | .z => 'Z' | .e => 'E' | .a => 'A'
  | .b => 'B' | .c => 'C' | .u => 'U' | .v => 'V' | .w => 'W'

def name (axis : Axis) : String := axis.letter.toString

def ofLetter? (letter : Char) : Option Axis :=
  all.find? fun axis => axis.letter == letter.toUpper

def index (axis : Axis) : Nat := all.idxOf axis

@[simp] theorem ofLetter?_letter (axis : Axis) : ofLetter? axis.letter = some axis := by
  cases axis <;> decide

theorem letter_of_ofLetter? {letter : Char} {axis : Axis} (h : ofLetter? letter = some axis) :
    axis.letter = letter.toUpper := by
  simpa using List.find?_some h

end Axis
end StepMotion
