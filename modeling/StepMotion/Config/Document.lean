import StepMotion.Config.File
import StepMotion.Toml.Document

/-! A configuration file as a TOML document. Each known key has one kind of value; what is not known
is passed over. The axes are in tables under `axis`, or in arrays with the limits in a fixed order,
and are taken in the order of their names. -/
namespace StepMotion

open Toml (Value)

/-- A number, whole ones being taken as they are if 64 bits hold them. -/
def Toml.Value.number? : Value → Option Float
  | .integer n => if -Int.pow 2 63 ≤ n ∧ n < Int.pow 2 64 then some (Float.ofInt n) else none
  | .float x => some x
  | _ => none

def Toml.Value.flag? : Value → Option Bool
  | .boolean on => some on
  | _ => none

def Toml.Value.text? : Value → Option String
  | .string text => some text
  | _ => none

namespace AxisLimits

def withEntry? (limits : AxisLimits) (entry : String × Value) : Option AxisLimits :=
  let value := entry.2
  match entry.1 with
  | "steps_per_mm" => value.number?.map fun x => { limits with stepsPerMm := x }
  | "move_range_mm" => value.number?.map fun x => { limits with range := x }
  | "max_feedrate" => value.number?.map fun x => { limits with maxFeedrate := x }
  | "acceleration" => value.number?.map fun x => { limits with acceleration := x }
  | _ => if value.isPassable then some limits else none

def fieldOrder : List String := ["steps_per_mm", "move_range_mm", "max_feedrate", "acceleration"]

/-- The limits of one axis. A date has none of the keys of a table. -/
def ofValue? : Value → Option AxisLimits
  | .table entries => entries.foldlM withEntry? {}
  | .array items => (fieldOrder.zip items).foldlM withEntry? {}
  | .dateTime => some {}
  | _ => none

end AxisLimits

namespace ConfigFile

def axisTablesOf? : Value → Option (List (String × AxisLimits))
  | .table entries => do
    let tables ← entries.mapM fun entry => (AxisLimits.ofValue? entry.2).map (entry.1, ·)
    return tables.mergeSort fun a b => decide (a.1 ≤ b.1)
  | _ => none

def withEntry? (file : ConfigFile) (entry : String × Value) : Option ConfigFile :=
  let value := entry.2
  match entry.1 with
  | "speed_factor" => value.number?.map fun x => { file with speedFactor := x }
  | "threshold_angle" => value.number?.map fun x => { file with thresholdAngle := x }
  | "axis_mapping" => value.text?.map fun s => { file with axisMapping := some s }
  | "min_endswitch" => value.text?.map fun s => { file with minEndswitch := some s }
  | "max_endswitch" => value.text?.map fun s => { file with maxEndswitch := some s }
  | "endswitch_polarity" => value.text?.map fun s => { file with endswitchPolarity := some s }
  | "home_order" => value.text?.map fun s => { file with homeOrder := some s }
  | "acknowledge_lines" => value.flag?.map fun on => { file with acknowledgeLines := on }
  | "require_homing" => value.flag?.map fun on => { file with requireHoming := on }
  | "range_check" => value.flag?.map fun on => { file with rangeCheck := on }
  | "debug_print" => value.flag?.map fun on => { file with debugPrint := on }
  | "synchronous" => value.flag?.map fun on => { file with synchronous := on }
  | "axis" => (axisTablesOf? value).map fun tables => { file with axisTables := tables }
  | _ => if value.isPassable then some file else none

def read? (text : String) : Option ConfigFile := do
  (← Toml.Document.read? text).foldlM withEntry? {}

end ConfigFile

namespace MachineConfig

def parse (text : String) : Except ConfigError MachineConfig :=
  match ConfigFile.read? text with
  | some file => file.toConfig
  | none => .error .malformed

def load (bytes : Option ByteArray) : Except ConfigError MachineConfig :=
  match bytes.bind String.fromUTF8? with
  | some text => parse text
  | none => .error .unreadable

end MachineConfig
end StepMotion
