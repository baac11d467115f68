/-! The options of the command line. A value stands in the next argument, after an equals sign, or
directly after a one-letter name; no option may be given twice, and there are no other arguments. -/
namespace StepMotion.CommandLine

structure Options where
  config : String := "machine.toml"
  moves : Option String := none
  json : Bool := false
  simulate : Bool := false
  deriving DecidableEq, Repr

inductive Stop where
  | help
  | unexpected (argument : String)
  | repeated (name : String)
  | missingValue (name : String)
  deriving DecidableEq, Repr

def usage : String :=
  "Plans a list of straight moves into motor step segments.\n\n" ++
  "Usage: stepmotion [OPTIONS]\n\n" ++
  "Options:\n" ++
  "  -c, --config <CONFIG>  Path to the machine TOML config [default: machine.toml]\n" ++
  "  -m, --moves <MOVES>    Move list to plan; read from stdin when omitted\n" ++
  "      --json             Print one JSON object per segment\n" ++
  "      --simulate         Also run the segments through the simulated machine\n" ++
  "  -h, --help             Print help\n"

def Stop.message : Stop → String
  | .help => usage
  | .unexpected argument => s!"error: unexpected argument '{argument}' found\n"
  | .repeated name => s!"error: the argument '{name}' cannot be used multiple times\n"
  | .missingValue name => s!"error: a value is required for '{name}' but none was supplied\n"

inductive Setting where
  | config | moves | json | simulate
  deriving DecidableEq, Repr

def Setting.name : Setting → String
  | .config => "--config"
  | .moves => "--moves"
  | .json => "--json"
  | .simulate => "--simulate"

def Setting.takesValue : Setting → Bool
  | .config | .moves => true
  | .json | .simulate => false

namespace Options

structure Progress where
  options : Options := {}
  named : List Setting := []

def set (setting : Setting) (value : String) (options : Options) : Options :=
  match setting with
  | .config => { options with config := value }
  | .moves => { options with moves := some value }
  | .json => { options with json := true }
  | .simulate => { options with simulate := true }

def Progress.name (progress : Progress) (setting : Setting) (value : String) :
    Except Stop Progress :=
  if setting.takesValue && value.isEmpty then .error (.missingValue setting.name)
  else if setting ∈ progress.named then .error (.repeated setting.name)
  else .ok ⟨set setting value progress.options, setting :: progress.named⟩

inductive Argument where
  | help
  | setting (setting : Setting) (value : Option String)
  | last
  | other

def longArgument (body : String) : Argument :=
  let name := String.ofList (body.toList.takeWhile (· ≠ '='))
  let value := match body.toList.dropWhile (· ≠ '=') with
    | [] => none
    | _ :: value => some (String.ofList value)
  match name, value with
  | "config", value => .setting .config value
  | "moves", value => .setting .moves value
  | "json", none => .setting .json none
  | "simulate", none => .setting .simulate none
  | "help", none => .help
  | _, _ => .other

def shortArgument (letter : Char) (rest : List Char) : Argument :=
  let value := match rest with
    | [] => none
    | '=' :: value => some (String.ofList value)
    | value => some (String.ofList value)
  match letter with
  | 'c' => .setting .config value
  | 'm' => .setting .moves value
  | 'h' => .help
  | _ => .other

def Argument.ofText (text : String) : Argument :=
  match text.toList with
  | ['-', '-'] => .last
  | '-' :: '-' :: body => longArgument (String.ofList body)
  | '-' :: letter :: rest => shortArgument letter rest
  | _ => .other

def isValue (text : String) : Bool :=
  match text.toList with
  | '-' :: _ :: _ => false
  | _ => true

def takeAll (progress : Progress) : List String → Except Stop Options
  | [] => .ok progress.options
  | text :: rest =>
    match Argument.ofText text with
    | .help => .error .help
    | .other => .error (.unexpected text)
    | .last =>
      match rest with
      | [] => .ok progress.options
      | next :: _ => .error (.unexpected next)
    | .setting setting (some value) => do takeAll (← progress.name setting value) rest
    | .setting setting none =>
      if setting.takesValue then
        match rest with
        | value :: rest =>
          if isValue value then do takeAll (← progress.name setting value) rest
          else .error (.missingValue setting.name)
        | [] => .error (.missingValue setting.name)
      else do takeAll (← progress.name setting "") rest

def parse (arguments : List String) : Except Stop Options := takeAll {} arguments

end Options
end StepMotion.CommandLine
