import TermUnification.Clash
import TermUnification.Environment.Rename

/-! Reports on what the library does, as data and in their written form. -/
namespace TermUnification

/-- How important a report is. -/
inductive Severity where
  | debug
  | trace
  deriving DecidableEq, Repr

/-- One report. -/
inductive Event where
  /-- two terms are about to be unified -/
  | unifying (a b : Term)
  /-- they have been unified -/
  | unified (a b : Term) (result : Environment)
  /-- they could not be unified -/
  | failed (cause : Clash)
  /-- a variable has been replaced by a new one -/
  | renamed (old new : Variable)
  /-- a number of records is about to be matched against a pattern -/
  | querying (records : Nat) (pattern : Term)
  deriving DecidableEq

namespace Event

def severity : Event → Severity
  | unifying _ _ | querying _ _ => .debug
  | unified _ _ _ | failed _ | renamed _ _ => .trace

/-- The part of the library that reports. -/
def target : Event → String
  | unifying _ _ | unified _ _ _ | failed _ => "unific::unify"
  | renamed _ _ => "unific::environment::rename"
  | querying _ _ => "unific::query"

def message (names : Names) : Event → String
  | unifying a b => "unifying " ++ a.render names ++ " and " ++ b.render names
  | unified a b result =>
    "unified " ++ a.render names ++ " and " ++ b.render names ++ ": " ++ result.render names
  | failed cause => "failed: " ++ cause.message names
  | renamed _ _ => ""
  | querying records _ => "querying " ++ toString records ++ " records"

/-- What a report says beside its message, by name. -/
def fields (names : Names) : Event → List (String × String)
  | renamed old new => [("from", names.text old), ("to", names.numbered new)]
  | querying _ pattern => [("pattern", pattern.render names)]
  | _ => []

/-- The reports of a renaming. -/
def ofRenaming (r : Renaming) : List Event := r.made.map fun p => renamed p.1 p.2

end Event

namespace Severity

def name : Severity → String
  | debug => "DEBUG"
  | trace => "TRACE"

end Severity

/-- One line with everything a report says. -/
def Event.line (names : Names) (e : Event) : String :=
  let fields := (e.fields names).map fun f => " " ++ f.1 ++ "=" ++ f.2
  e.severity.name ++ " " ++ e.target ++ ": " ++ e.message names ++ String.join fields

end TermUnification
