import TermUnification.Unifier

/-! Records with a fixed order of keys, and queries for the records that match a pattern. -/
namespace TermUnification

/-- Records that share their keys. A record is a map from the keys, as atoms, to values. -/
structure RecordSet where
  keys : List String
  records : List Term
  deriving DecidableEq

namespace RecordSet

/-- A record set without records. -/
def ofKeys (keys : List String) : RecordSet := ⟨keys, []⟩

def size (db : RecordSet) : Nat := db.records.length

def isEmpty (db : RecordSet) : Bool := db.records.isEmpty

/-- The map with one value for each key of the set, in the order of the keys. -/
def layout (db : RecordSet) (value : String → Term) : Term :=
  Term.ofEntries (db.keys.map fun key => (Term.atom key, value key))

/-- The first value that a list of fields gives for a key. -/
def firstValue? (fields : List (String × Term)) (key : String) : Option Term :=
  (fields.find? fun f => f.1 == key).map (·.2)

/-- The record of a list of fields: unknown keys are dropped, missing ones get the empty value. -/
def record (db : RecordSet) (fields : List (String × Term)) : Term :=
  db.layout fun key => (firstValue? fields key).getD .nil

/-- The pattern of a list of fields: missing keys may have any value. -/
def pattern (db : RecordSet) (fields : List (String × Term)) : Term :=
  db.layout fun key => (firstValue? fields key).getD .wildcard

/-- Adds the record of a list of fields. -/
def insert (db : RecordSet) (fields : List (String × Term)) : RecordSet :=
  { db with records := db.records ++ [db.record fields] }

/-- The records that unify with a pattern, each tried on its own. -/
def selecting (u : Unifier) (pattern : Term) : List Term → Attempt (List Term)
  | [] => pure []
  | r :: rs => do
    let found ← (u.unify r pattern .empty).test
    let rest ← selecting u pattern rs
    return if found then r :: rest else rest

/-- The records that match the given fields, in the order of insertion. -/
def query (db : RecordSet) (u : Unifier) (fields : List (String × Term)) :
    Attempt (List Term) := do
  let pattern := db.pattern fields
  Attempt.report (.querying db.size pattern)
  selecting u pattern db.records

end RecordSet

/-- The text under a key of a record, if there is one. -/
def Term.field? (record : Term) (key : String) : Option String :=
  match record.get? (.atom key) with
  | some (.scalar (.text s)) => some s
  | _ => none

namespace RecordSet

/-- The fields of a person. -/
def person (first last : String) (age : Int64) (occupation : String) : List (String × Term) :=
  [("first", .text first), ("last", .text last), ("age", .int age),
    ("occupation", .text occupation)]

/-- A small set of people, for demonstration. -/
def people : RecordSet :=
  [person "John" "Smith" 40 "yak shaver",
    person "Joe" "Bloe" 30 "cat herder",
    person "Jack" "White" 40 "telephone sanitizer",
    person "John" "NotSmith" 90 "inspirational speaker"].foldl insert
    (ofKeys ["first", "last", "age", "occupation"])

end RecordSet

end TermUnification
