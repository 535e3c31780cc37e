import TermUnification.Files
import TermUnification.Toml.Document
import TermUnification.Unifier

/-! Settings of a unifier, as a TOML document gives them. -/
namespace TermUnification

/-- How unification is to be done. The defaults are silence and no occurs-check. -/
structure Settings where
  traceLevel : UInt8
  occursCheck : Bool
  deriving DecidableEq, Repr

namespace Settings

def default : Settings := ⟨0, false⟩

def withTraceLevel (s : Settings) (level : UInt8) : Settings := { s with traceLevel := level }

def withOccursCheck (s : Settings) (on : Bool) : Settings := { s with occursCheck := on }

/-- A trace level is an integer that fits a byte. -/
def readLevel? : Toml.Value → Option UInt8
  | .integer n => if 0 ≤ n ∧ n ≤ 255 then some (UInt8.ofNat n.toNat) else none
  | _ => none

def readFlag? : Toml.Value → Option Bool
  | .boolean b => some b
  | _ => none

/-- A setting that may be missing but not wrong. -/
def readOr? {α : Type} (read? : Toml.Value → Option α) (default : α) :
    Option Toml.Value → Option α
  | none => some default
  | some v => read? v

/-- The settings in a value: a table with the names of the settings, in which other names do not
count, or an array with the settings in order, in which further items do not count. A point in time
counts as a table without any of the names. -/
def ofValue? : Toml.Value → Option Settings
  | .table es => do
    let level ← readOr? readLevel? 0 (Toml.valueAt? es "trace_level")
    let check ← readOr? readFlag? false (Toml.valueAt? es "occurs_check")
    return ⟨level, check⟩
  | .array items => do
    let level ← readOr? readLevel? 0 items[0]?
    let check ← readOr? readFlag? false items[1]?
    return ⟨level, check⟩
  | .dateTime => some default
  | _ => none

/-- The settings in a document, under the name `unify`. -/
def parse? (text : String) : Option Settings := do
  let es ← Toml.parse? text
  readOr? ofValue? default (Toml.valueAt? es "unify")

/-- The unifier with these settings. -/
def unifier (s : Settings) : Unifier := ⟨⟨s.traceLevel⟩, s.occursCheck⟩

/-- Why settings cannot be had. -/
inductive Failure where
  | unreadable (path : String) (cause : FileError)
  | invalid
  deriving DecidableEq

/-- The wording of a failure. What exactly makes a document invalid is not told. -/
def Failure.message : Failure → String
  | unreadable path cause => "Failed to read " ++ path ++ ": " ++ cause.message
  | invalid => "Invalid configuration: "

/-- Settings from a text. -/
def ofText (text : String) : Except Failure Settings :=
  match parse? text with
  | some s => .ok s
  | none => .error .invalid

section Load

variable {m : Type → Type} [Monad m] [FileAccess m]

/-- Settings from a file, under some reading of its text. -/
def loadBy (read : String → Except Failure Settings) (path : String) :
    m (Except Failure Settings) := do
  match ← FileAccess.readText path with
  | .error cause => return .error (.unreadable path cause)
  | .ok text => return read text

/-- Settings from a file. -/
def load (path : String) : m (Except Failure Settings) := loadBy ofText path

end Load

example : parse? "[unify]\ntrace_level = 0x1f # all\n" = some ⟨31, false⟩ := by decide +kernel
example : parse? "unify.trace_level = 256" = none := by decide +kernel
example : parse? "unify = [1, true, \"rest\"]" = some ⟨1, true⟩ := by decide +kernel

end Settings

end TermUnification
