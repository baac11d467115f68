import StepMotion.Attempt
import StepMotion.Axis
import StepMotion.Binary64
import StepMotion.CommandLine.Options
import StepMotion.CommandLine.Report
import StepMotion.CommandLine.Run
import StepMotion.Config
import StepMotion.Config.Document
import StepMotion.Config.File
import StepMotion.Decimal.Fixed
import StepMotion.Decimal.Layout
import StepMotion.Decimal.Reader
import StepMotion.Decimal.Shortest
import StepMotion.Machine
import StepMotion.Motion.Corner
import StepMotion.Motion.Move
import StepMotion.Motion.Planner
import StepMotion.Motion.Profile
import StepMotion.Motion.StepPosition
import StepMotion.Motion.Window
import StepMotion.Motor.Backend
import StepMotion.Motor.Limited
import StepMotion.Motor.Logged
import StepMotion.Motor.Recorder
import StepMotion.Motor.Simulator
import StepMotion.MoveList
import StepMotion.Register
import StepMotion.Segment
import StepMotion.Session
import StepMotion.Sink
import StepMotion.Steps
import StepMotion.Text.Blank
import StepMotion.Text.Lines
import StepMotion.Text.Pad
import StepMotion.Toml.Document
import StepMotion.Toml.Scalar
import StepMotion.Toml.Table
import StepMotion.Toml.Token
import StepMotion.Toml.Value
import StepMotion.Wiring
import StepMotion.Wiring.Spelling
import StepMotion.Proofs.Attempt
import StepMotion.Proofs.Binary64.Arithmetic
import StepMotion.Proofs.Binary64.Real
import StepMotion.Proofs.Binary64.Rounding
import StepMotion.Proofs.Binary64.Value
import StepMotion.Proofs.Motion.Braking
import StepMotion.Proofs.Motion.Segments
import StepMotion.Proofs.Motor.Traced
import StepMotion.Proofs.Planner.Braking
import StepMotion.Proofs.Planner.Calls
import StepMotion.Proofs.Planner.Changes
import StepMotion.Proofs.Planner.Corners
import StepMotion.Proofs.Planner.Ledger
import StepMotion.Proofs.Planner.Plan
import StepMotion.Proofs.Planner.SpeedContinuity
import StepMotion.Proofs.Planner.StepLedger
import StepMotion.Main
import StepMotion.Proofs.Planner.Handover
import StepMotion.Proofs.Planner.Refusal
import StepMotion.Proofs.Motor.Simulation
import StepMotion.Proofs.Planner.Interruptions
import StepMotion.Proofs.Machine.Operations
import StepMotion.Proofs.Machine.Power
import StepMotion.Proofs.Binary64.Division
import StepMotion.Proofs.Binary64.Integers
import StepMotion.Proofs.Motion.Shares
import StepMotion.Proofs.Motion.Steady
import StepMotion.Proofs.Planner.Range
import StepMotion.Proofs.Machine.Range
import StepMotion.Proofs.Planner.Reported
import StepMotion.Proofs.Planner.Rest
import StepMotion.Proofs.Planner.SharpCorners
import StepMotion.Proofs.Motion.Words
import StepMotion.Proofs.Motion.Queue
import StepMotion.Proofs.Planner.Checked
import StepMotion.Proofs.Planner.Steering
import StepMotion.Proofs.Planner.InactiveAxes
import StepMotion.Proofs.Planner.Rebasing
import StepMotion.Proofs.Planner.Tally
import StepMotion.Proofs.Machine.Standing
import StepMotion.Proofs.Machine.Homing
import StepMotion.Proofs.Machine.Acknowledgement
import StepMotion.Proofs.Motor.Capacity
import StepMotion.Proofs.Motor.Logging
import StepMotion.Proofs.Machine.Logging
import StepMotion.Proofs.Machine.Errors
import StepMotion.Proofs.Machine.Session
import StepMotion.Proofs.Machine.RangeErrors
import StepMotion.Proofs.Machine.Feedrate
import StepMotion.Proofs.Wiring.Motors
import StepMotion.Proofs.MoveList.Language
import StepMotion.Proofs.Binary64.Fractions
import StepMotion.Proofs.Motion.Direction
import StepMotion.Proofs.Planner.Direction
import StepMotion.Proofs.Binary64.Magnitude
import StepMotion.Proofs.Motion.Moving
import StepMotion.Proofs.Motion.Limits
import StepMotion.Proofs.Planner.Moving
import StepMotion.Proofs.Machine.Refusals
import StepMotion.Proofs.Planner.Lookahead
import StepMotion.Proofs.Planner.Ignored
import StepMotion.Proofs.Motion.Pace
import StepMotion.Proofs.Planner.Pace
import StepMotion.Proofs.MoveList.Append
import StepMotion.Proofs.Planner.Replanning
import StepMotion.Proofs.Axis
import StepMotion.Proofs.Config.Tables
import StepMotion.Proofs.Wiring.Language
import StepMotion.Proofs.Wiring.Reading
import StepMotion.Proofs.Wiring.Spelling
import StepMotion.Proofs.Toml.Keys
import StepMotion.Proofs.Config.Document
