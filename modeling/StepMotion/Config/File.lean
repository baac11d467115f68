import StepMotion.Config

/-! A configuration file as it is read: the settings, and limits under whatever names the file uses.
It becomes a configuration if each name is an axis letter and the result meets the rules. -/
namespace StepMotion

structure ConfigFile extends Settings where
  axisTables : List (String × AxisLimits) := []

namespace ConfigFile

def axisOfName? (name : String) : Option Axis :=
  match name.toList with
  | [letter] => Axis.ofLetter? letter
  | _ => none

def namedAxes (tables : List (String × AxisLimits)) :
    Except ConfigError (List (Axis × AxisLimits)) :=
  tables.mapM fun table =>
    match axisOfName? table.1 with
    | some axis => .ok (axis, table.2)
    | none => .error (.unknownAxis table.1)

/-- Of two tables for one axis the later holds. -/
def toConfig (file : ConfigFile) : Except ConfigError MachineConfig := do
  let axes ← namedAxes file.axisTables
  let config : MachineConfig := { file.toSettings with axes := (Register.fill {}).override axes }
  config.validate
  return config

end ConfigFile
end StepMotion
