import TermUnification.Settings
import TermUnification.RecordSet
import TermUnification.Text.Blank

/-! The command line: its options, the report on the demonstration records, and where the report goes. -/
namespace TermUnification

def version : String := "0.9.0"

/-- The value of a numeral for a byte: decimal digits, with a plus sign before them or not. -/
def byte? (text : List Char) : Option UInt8 :=
  let digits :=
    match text with
    | '+' :: rest => rest
    | _ => text
  if digits.isEmpty || !digits.all Char.isDigit then none
  else
    let n := digits.foldl (fun n c => 10 * n + (c.toNat - '0'.toNat)) 0
    if n ≤ 255 then some (UInt8.ofNat n) else none

/-- What a run is asked for. -/
structure Options where
  output : Option String
  config : Option String
  trace : Option UInt8
  occursCheck : Bool
  deriving DecidableEq, Repr

/-- Why arguments are refused. -/
inductive Refusal where
  | missingOutput
  | missingConfig
  | unknown (arg : String)
  deriving DecidableEq, Repr

/-- The wording of a refusal. -/
def Refusal.message : Refusal → String
  | missingOutput => "Missing output file after -o"
  | missingConfig => "Missing config file after -c"
  | unknown arg => "Unknown option: " ++ arg

/-- What the arguments ask for. -/
inductive Request where
  | help
  | version
  | run (options : Options)
  | refused (reason : Refusal)
  deriving DecidableEq, Repr

/-- The words with which an option begins. -/
inductive Flag where
  | help
  | version
  | output
  | config
  | trace
  | occursCheck
  deriving DecidableEq, Repr

def Flag.ofText? (text : String) : Option Flag :=
  if text = "-h" ∨ text = "--help" then some help
  else if text = "-v" ∨ text = "--version" then some version
  else if text = "-o" ∨ text = "--output" then some output
  else if text = "-c" ∨ text = "--config" then some config
  else if text = "--trace" then some trace
  else if text = "--occurs-check" then some occursCheck
  else none

namespace Options

def none : Options := ⟨.none, .none, .none, false⟩

/-- Reads arguments from left to right, on top of what is asked for already. The first one that stops
or cannot be read decides; of repeated options the last one counts. A numeral after the trace option
is its level. -/
def read (o : Options) : List String → Request
  | [] => .run o
  | arg :: rest =>
    match Flag.ofText? arg with
    | .none => .refused (.unknown arg)
    | some .help => .help
    | some .version => .version
    | some .output =>
      match rest with
      | [] => .refused .missingOutput
      | file :: rest => read { o with output := some file } rest
    | some .config =>
      match rest with
      | [] => .refused .missingConfig
      | file :: rest => read { o with config := some file } rest
    | some .trace =>
      match rest with
      | [] => .run { o with trace := some 1 }
      | level :: more =>
        match byte? level.toList with
        | some n => read { o with trace := some n } more
        | .none => read { o with trace := some 1 } (level :: more)
    | some .occursCheck => read { o with occursCheck := true } rest

/-- The level that the trace variable of the surroundings asks for: any text that is no level asks
for the first one. -/
def variableLevel (value : Option String) : Option UInt8 :=
  value.map fun text => (byte? (Text.trim text.toList)).getD 1

/-- The settings of a run: what the options say wins over the trace variable, and that over the
settings from a file. -/
def refine (o : Options) (value : Option String) (s : Settings) : Settings where
  traceLevel := (o.trace.or (variableLevel value)).getD s.traceLevel
  occursCheck := o.occursCheck || s.occursCheck

end Options

/-- The lines that explain the options. -/
def usage : List String := [
  "Unific v" ++ version,
  "",
  "USAGE:",
  "    unific [OPTIONS]",
  "",
  "Runs the demo queries against the built-in people records.",
  "",
  "OPTIONS:",
  "    -h, --help           Print this help message",
  "    -v, --version        Print version information",
  "    -o, --output <FILE>  Write output to FILE (default: stdout)",
  "    -c, --config <FILE>  Read [unify] settings from a TOML file",
  "    --trace [LEVEL]      Log unification steps (default level 1)",
  "    --occurs-check       Reject cyclic bindings",
  "",
  "ENVIRONMENT:",
  "    UNIFIC_TRACE         Same as --trace; a number sets the level"]

namespace Report

/-- A query of the demonstration under its title. -/
structure Question where
  title : String
  fields : List (String × Term)

def questions : List Question := [
  ⟨"People named John:", [("first", .text "John")]⟩,
  ⟨"Forty-year-olds:", [("age", .int 40)]⟩,
  ⟨"Forty-year-old people named John:", [("first", .text "John"), ("age", .int 40)]⟩]

/-- The line for a person found. -/
def foundLine (record : Term) : String :=
  "found: " ++ (record.field? "first").getD "?" ++ " " ++ (record.field? "last").getD "?" ++ "\n"

/-- One question with the people found for it. -/
def answer (u : Unifier) (q : Question) : Attempt String := do
  let found ← RecordSet.people.query u q.fields
  return q.title ++ "\n" ++ String.join (found.map foundLine)

def answers (u : Unifier) : List Question → Attempt (List String)
  | [] => pure []
  | q :: qs => do
    let first ← answer u q
    let rest ← answers u qs
    return first :: rest

/-- The whole report, with an empty line between the answers. -/
def text (u : Unifier) : Attempt String := do
  return "\n".intercalate (← answers u questions)

/-- The lines of a log that a level lets through: starts of calls from the first level on, and
everything from the second. -/
def visible (level : UInt8) (log : List Event) : List String :=
  let shown (e : Event) : Bool :=
    match e.severity with
    | .debug => decide (1 ≤ level)
    | .trace => decide (2 ≤ level)
  (log.filter shown).map (Event.line Names.empty)

end Report

/-- What a run leaves behind beside files: its exit code and what it prints. -/
structure Result where
  code : UInt32
  stdout : String
  stderr : List String
  deriving DecidableEq, Repr

namespace CommandLine

variable {m : Type → Type} [Monad m] [FileAccess m]

/-- A failed run prints its reason after what it printed before. -/
def failed (stderr : List String) (reason : String) : Result :=
  ⟨1, "", stderr ++ ["Error: " ++ reason]⟩

/-- The settings that options ask for, under some reading of settings files. -/
def settings (read : String → Except Settings.Failure Settings) (o : Options)
    (value : Option String) : m (Except Settings.Failure Settings) := do
  match o.config with
  | none => return .ok (o.refine value .default)
  | some path => return (← Settings.loadBy read path).map (o.refine value)

/-- Sends a text to the output file, if there is one, and else prints it. -/
def deliver (output : Option String) (text : String) (stderr : List String) : m Result := do
  match output with
  | none => return ⟨0, text, stderr⟩
  | some path =>
    match ← FileAccess.writeText path text with
    | .ok () => return ⟨0, "", stderr⟩
    | .error cause =>
      return failed stderr
        ("Failed to create output file '" ++ path ++ "': " ++ cause.message)

/-- Makes the report and delivers it. -/
def report (o : Options) (s : Settings) : m Result :=
  let made := Report.text s.unifier
  let stderr := Report.visible s.traceLevel made.log
  match made.outcome with
  | .done text => deliver o.output text stderr
  | .clash cause => return failed stderr (cause.message Names.empty)
  | .endless => return failed stderr "Endless unification"

/-- Runs with the given arguments and value of the trace variable, under some reading of settings
files. -/
def runBy (read : String → Except Settings.Failure Settings) (args : List String)
    (value : Option String) : m Result := do
  match Options.none.read args with
  | .help => return ⟨0, "", usage⟩
  | .version => return ⟨0, "Unific " ++ version ++ "\n", []⟩
  | .refused reason => return ⟨1, "", ["Error: " ++ reason.message, ""] ++ usage⟩
  | .run o =>
    match ← settings read o value with
    | .error failure => return failed [] failure.message
    | .ok s => report o s

/-- Runs with the given arguments and value of the trace variable. -/
def run (args : List String) (value : Option String) : m Result := runBy Settings.ofText args value

end CommandLine

end TermUnification
