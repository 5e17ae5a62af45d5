import HotStuff.Engine
import HotStuff.Path

/-!
# The Command Line

What the words of a command line ask for: a configuration file or a development network to run, a
file to write the configuration to instead, when to stop, and what to report.

## Main definitions

* `Options.parse`: the options that words stand for.
* `Report.lines`: events as lines of a report.
-/

namespace HotStuff

/-- How important a line of the report is, the least important first. -/
inductive LogLevel where
  | trace
  | debug
  | info
  | warn
  | error
  deriving DecidableEq, Repr

/-- The name of a level. -/
def LogLevel.name : LogLevel → String
  | trace => "trace"
  | debug => "debug"
  | info => "info"
  | warn => "warn"
  | error => "error"

/-- The rank of a level. -/
def LogLevel.rank : LogLevel → Nat
  | trace => 0
  | debug => 1
  | info => 2
  | warn => 3
  | error => 4

/-- The level with a name. -/
def LogLevel.ofName? (name : String) : Option LogLevel :=
  [trace, debug, info, warn, error].find? fun level => level.name == name

/-- What a command line asks for. -/
structure Options where
  /-- The configuration file to run. -/
  config : Option Path := none
  /-- The number of members of a development network to run. -/
  devnet : Option Nat := none
  /-- The file to write the configuration to, instead of running it. -/
  writeConfig : Option Path := none
  /-- The height to stop at. -/
  rounds : Option UInt64 := none
  logLevel : LogLevel := .info
  jsonLogs : Bool := false
  deriving DecidableEq, Repr

/-- Why a command line is refused. -/
inductive OptionFault where
  | unknown (word : String)
  | missingValue (option : String)
  | badValue (option value : String)
  | configAndDevnet
  | writeWithoutDevnet
  | nothingToRun
  deriving DecidableEq, Repr

/-- The wording of a refusal. -/
def OptionFault.message : OptionFault → String
  | unknown word => "unexpected argument " ++ word
  | missingValue option => "a value is required for " ++ option
  | badValue option value => "invalid value " ++ value ++ " for " ++ option
  | configAndDevnet => "--config cannot be used with --devnet"
  | writeWithoutDevnet => "--write-config requires --devnet"
  | nothingToRun => "either --config or --devnet is required"

namespace Options

/-- An option and its value in one word become two words. -/
def separate (word : String) : List String :=
  match Path.split '=' word.toList with
  | name :: first :: rest =>
    if word.startsWith "--" then
      [String.ofList name, String.ofList (Path.join '=' (first :: rest))]
    else [word]
  | _ => [word]

/-- Takes over the value of an option. -/
def put (o : Options) (option value : String) : Except OptionFault Options :=
  let bad : Except OptionFault Options := .error (.badValue option value)
  match option with
  | "--config" | "-c" => .ok { o with config := some value.toList }
  | "--write-config" => .ok { o with writeConfig := some value.toList }
  | "--devnet" =>
    match value.toNat? with
    | some n => .ok { o with devnet := some n }
    | none => bad
  | "--rounds" =>
    match value.toNat? with
    | some n => if n < Nat.pow 2 64 then .ok { o with rounds := some (UInt64.ofNat n) } else bad
    | none => bad
  | "--log-level" =>
    match LogLevel.ofName? value with
    | some level => .ok { o with logLevel := level }
    | none => bad
  | _ => .error (.unknown option)

/-- Takes over one option after the other. -/
def read (o : Options) : List String → Except OptionFault Options
  | [] => .ok o
  | "--json-logs" :: rest => read { o with jsonLogs := true } rest
  | [option] => .error (.missingValue option)
  | option :: value :: rest =>
    match o.put option value with
    | .ok o => read o rest
    | .error fault => .error fault

/-- Refuses options that do not go together. -/
def check (o : Options) : Except OptionFault Options :=
  if o.config.isSome && o.devnet.isSome then .error .configAndDevnet
  else if o.writeConfig.isSome && o.devnet.isNone then .error .writeWithoutDevnet
  else if o.config.isNone && o.devnet.isNone then .error .nothingToRun
  else .ok o

/-- The options that the words of a command line stand for. -/
def parse (words : List String) : Except OptionFault Options := do
  check (← read {} (words.flatMap separate))

end Options

namespace Report

/-- The importance of an event. -/
def level : Event → LogLevel
  | .timedOut _ => .warn
  | .committed _ _ _ => .info
  | .certified _ _ | .viewChanged _ _ => .debug

/-- An event in the words of the report. -/
def words : Event → String
  | .certified view phase => phase.name ++ " certificate formed in view " ++ toString view
  | .committed view height digest =>
    "height " ++ toString height ++ " committed in view " ++ toString view ++ ": " ++ digest.hex
  | .viewChanged view leader => "view " ++ toString view ++ " entered, led by " ++ leader.short
  | .timedOut view => "view " ++ toString view ++ " timed out"

/-- A line of the report, as words or as a JSON object. -/
def line (json : Bool) (importance : LogLevel) (m : MemberId) (words : String) : String :=
  if json then
    (Json.record [("level", Json.str importance.name), ("member", Json.str m.short),
      ("message", Json.str words)]).text
  else importance.name ++ " " ++ m.short ++ " " ++ words

/-- The lines for the events of a member that are important enough. -/
def lines (options : Options) (m : MemberId) (events : List Event) : List String :=
  (events.filter fun event => options.logLevel.rank ≤ (level event).rank).map fun event =>
    line options.jsonLogs (level event) m (words event)

end Report

end HotStuff
