import StepMotion.CommandLine.Options
import StepMotion.CommandLine.Report
import StepMotion.Config.Document
import StepMotion.Motor.Logged
import StepMotion.Motor.Recorder
import StepMotion.Session
import StepMotion.Wiring.Spelling

/-! A run of the command line on the bytes of its files: the configuration, the wiring, the move
list, the session, and the report on it. Whatever goes wrong first ends the run with nothing on
the standard output. -/
namespace StepMotion.CommandLine

structure Result where
  code : Nat
  stdout : String := ""
  stderr : String := ""

inductive RunError where
  | config (cause : ConfigError)
  | wiring (cause : WiringError)
  | unreadableMoves
  | moves (cause : MoveListError)
  | machine (cause : MachineError)

def RunError.message : RunError → String
  | .config cause => cause.message
  | .wiring cause => cause.message
  | .unreadableMoves => "move list cannot be read"
  | .moves cause => cause.message
  | .machine cause => cause.message

structure Outcome where
  error : Option MachineError
  messages : String := ""
  log : Array String := #[]
  segments : Array Segment := #[]

def outcomeOf {β : Type} [MotorBackend β] (machine : Except MachineError (Machine β))
    (requests : List MoveRequest) (log : β → Array String) (recorder : β → Recorder) : Outcome :=
  match machine with
  | .error error => { error := some error }
  | .ok machine =>
    let run := machine.session requests
    let backend := run.state.planner.backend
    { error := match run.outcome with
        | .ok () => none
        | .error error => some error
      messages := (run.state.sink.map Sink.text).getD ""
      log := log backend
      segments := (recorder backend).segments }

def perform (config : MachineConfig) (wiring : Wiring) (requests : List MoveRequest) : Outcome :=
  if config.debugPrint then
    let backend : Logged Recorder := { inner := {} }
    outcomeOf (Machine.make config wiring backend (some {})) requests Logged.lines Logged.inner
  else
    outcomeOf (Machine.make config wiring ({} : Recorder) (some {})) requests (fun _ => #[]) id

def report (options : Options) (wiring : Wiring) (segments : List Segment) : List String :=
  (if options.json then segments.map Segment.json else summary segments) ++
    (if options.simulate then simulation (simulate wiring segments) else [])

def unlines (lines : List String) : String := String.join (lines.map (· ++ "\n"))

def failure (error : RunError) : Result := { code := 1, stderr := s!"Error: {error.message}\n" }

def prepare (config moves : Option ByteArray) :
    Except RunError (MachineConfig × Wiring × List MoveRequest) := do
  let config ← (MachineConfig.load config).mapError .config
  let wiring ← (Wiring.ofSettings config.toSettings).mapError .wiring
  match moves.bind String.fromUTF8? with
  | none => .error .unreadableMoves
  | some text => do
    let requests ← (MoveList.parse text).mapError .moves
    return (config, wiring, requests)

/-- A run with the bytes of the configuration file and of the move list, as far as they could be
read. -/
def run (options : Options) (config moves : Option ByteArray) : Result :=
  match prepare config moves with
  | .error error => failure error
  | .ok (config, wiring, requests) =>
    let outcome := perform config wiring requests
    let stderr := unlines outcome.log.toList ++ outcome.messages
    match outcome.error with
    | some error => { code := 1, stderr := stderr ++ (failure (.machine error)).stderr }
    | none =>
      let lines := report options wiring outcome.segments.toList
      { code := 0, stdout := unlines lines, stderr }

def stopped : Stop → Result
  | .help => { code := 0, stdout := Stop.help.message }
  | stop => { code := 2, stderr := stop.message }

end StepMotion.CommandLine
