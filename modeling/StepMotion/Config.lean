import StepMotion.Binary64
import StepMotion.Register

/-! The configuration of a machine: limits for each axis, planning parameters, wiring strings and
policies. `firstOffence?` is the rule that a usable configuration has to meet; it names the first
offence in a fixed order. -/
namespace StepMotion

structure AxisLimits where
  /-- Zero leaves the axis unconfigured: it never moves. -/
  stepsPerMm : Float := 0.0
  /-- The travel from the origin in mm; a negative one is unbounded. -/
  range : Float := -1.0
  maxFeedrate : Float := 0.0
  acceleration : Float := 0.0

structure Settings where
  speedFactor : Float := 1.0
  /-- Corners of at least this many degrees are taken from rest. -/
  thresholdAngle : Float := 10.0
  axisMapping : Option String := none
  minEndswitch : Option String := none
  maxEndswitch : Option String := none
  endswitchPolarity : Option String := none
  homeOrder : Option String := none
  acknowledgeLines : Bool := true
  requireHoming : Bool := false
  rangeCheck : Bool := true
  debugPrint : Bool := false
  synchronous : Bool := false

structure MachineConfig extends Settings where
  axes : Register AxisLimits := .fill {}

inductive ConfigError where
  | unreadable
  | malformed
  | unknownAxis (name : String)
  | speedFactor
  | thresholdAngle
  | stepsPerMm (axis : Axis)
  | maxFeedrate (axis : Axis)
  | acceleration (axis : Axis)
  | range (axis : Axis)
  deriving DecidableEq, Repr

def ConfigError.message : ConfigError → String
  | .unreadable => "IO error"
  | .malformed => "TOML parse error"
  | .unknownAxis name => s!"Unknown axis '{name}' in configuration"
  | .speedFactor => "Invalid value for speed_factor: must be > 0"
  | .thresholdAngle => "Invalid value for threshold_angle: must be >= 0 degrees"
  | .stepsPerMm axis => s!"Invalid value for axis.{axis.name}.steps_per_mm: must be >= 0"
  | .maxFeedrate axis =>
    s!"Invalid value for axis.{axis.name}.max_feedrate: must be > 0 for a configured axis"
  | .acceleration axis =>
    s!"Invalid value for axis.{axis.name}.acceleration: must be > 0 for a configured axis"
  | .range axis => s!"Invalid value for axis.{axis.name}.move_range_mm: is not a number"

namespace AxisLimits

def isConfigured (limits : AxisLimits) : Bool := 0.0 < limits.stepsPerMm

/-- The first limit that is unusable; limits of an unconfigured axis are not looked at. -/
def firstOffence? (axis : Axis) (limits : AxisLimits) : Option ConfigError :=
  if !Binary64.isFinite limits.stepsPerMm || limits.stepsPerMm < 0.0 then some (.stepsPerMm axis)
  else if limits.stepsPerMm == 0.0 then none
  else if !(Binary64.isFinite limits.maxFeedrate && 0.0 < limits.maxFeedrate) then
    some (.maxFeedrate axis)
  else if !(Binary64.isFinite limits.acceleration && 0.0 < limits.acceleration) then
    some (.acceleration axis)
  else if limits.range.isNaN then some (.range axis)
  else none

end AxisLimits

namespace Settings

def defaultAxisMapping : String := "XYZEABC"

def defaultHomeOrder : String := "ZXY"

def effectiveAxisMapping (settings : Settings) : String :=
  settings.axisMapping.getD defaultAxisMapping

def effectiveHomeOrder (settings : Settings) : String := settings.homeOrder.getD defaultHomeOrder

end Settings

namespace MachineConfig

def isConfigured (config : MachineConfig) (axis : Axis) : Bool := (config.axes axis).isConfigured

def firstOffence? (config : MachineConfig) : Option ConfigError :=
  if !(Binary64.isFinite config.speedFactor && 0.0 < config.speedFactor) then some .speedFactor
  else if !(Binary64.isFinite config.thresholdAngle && 0.0 ≤ config.thresholdAngle) then
    some .thresholdAngle
  else Axis.all.findSome? fun axis => (config.axes axis).firstOffence? axis

def validate (config : MachineConfig) : Except ConfigError Unit :=
  match config.firstOffence? with
  | some offence => .error offence
  | none => .ok ()

end MachineConfig
end StepMotion
