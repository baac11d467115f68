import StepMotion.Steps
import StepMotion.Decimal.Fixed
import StepMotion.Decimal.Layout

/-! A segment is a straight piece of motion under constant acceleration, in steps. It has three
written forms: a data record, a line of a log and the words that both summaries list its steps
with. -/
namespace StepMotion

/-- The speeds are step rates of the defining axis, in steps/s. -/
structure Segment where
  v0 : Float
  v1 : Float
  steps : Steps

namespace Segment

/-- The time in seconds under constant acceleration; a segment at rest takes none. -/
def duration (segment : Segment) : Float :=
  let speeds := segment.v0 + segment.v1
  if speeds ≤ 0.0 then 0.0 else 2.0 * Float.ofNat segment.steps.count / speeds

/-- Numbers in a data record keep a decimal point and have an exponent below `1e-5` and from
`1e16`. -/
def recordNumber : Decimal.Layout :=
  { tie := .even, positional := some (-5, 15), pointZero := true, plus := true }

def recordText (x : Float) : String := if Binary64.isFinite x then recordNumber.render x else "null"

def json (segment : Segment) : String :=
  let steps := ",".intercalate (segment.steps.toList.map toString)
  "\x7b\"v0\":" ++ recordText segment.v0 ++ ",\"v1\":" ++ recordText segment.v1
    ++ ",\"steps\":\x7b\"values\":[" ++ steps ++ "]\x7d\x7d"

def stepWords (segment : Segment) (word : Axis → Int → String) : String :=
  " ".intercalate (segment.steps.moving.map fun axis => word axis (segment.steps axis))

end Segment
end StepMotion
