import TermUnification.Toml.Value

/-! Tables under construction. A table can be begun by its own header, by a deeper header, or by a dotted
key, and the way it was begun decides what may still be added to it. -/
namespace TermUnification.Toml

/-- How a table came to be. -/
inductive Origin where
  /-- by a header of its own -/
  | header
  /-- on the way to a deeper header -/
  | path
  /-- by a dotted key -/
  | dotted
  deriving DecidableEq

/-- What stands under a key of a table under construction: a value, a table, or the tables that share
an array header. -/
inductive Node where
  | value (v : Value)
  | table (origin : Origin) (entries : List (String × Node))
  | tables (elements : List (List (String × Node)))

/-- The entries of a table under construction. -/
abbrev Entries := List (String × Node)

namespace Node

mutual

/-- The finished value. -/
def toValue : Node → Value
  | value v => v
  | table _ es => .table (entriesToValue es)
  | tables elements => .array (elementsToValue elements)

def entriesToValue : List (String × Node) → List (String × Value)
  | [] => []
  | (key, n) :: es => (key, toValue n) :: entriesToValue es

def elementsToValue : List (List (String × Node)) → List Value
  | [] => []
  | es :: rest => .table (entriesToValue es) :: elementsToValue rest

end

end Node

namespace Entries

/-- The node under a key, if there is one. -/
def node? (es : Entries) (key : String) : Option Node := valueAt? es key

/-- Puts a node under a key, in place of one that is there. -/
def put (key : String) (n : Node) : Entries → Entries
  | [] => [(key, n)]
  | (k, m) :: es => if k = key then (k, n) :: es else (k, m) :: put key n es

/-- Changes the table at the end of a path. Missing tables on the way are begun; an array of tables
stands for its last element. The path of a dotted key must not lead into a table that has a header of
its own. The change sees the origin of its table. -/
def within (dotted : Bool) (change : Origin → Entries → Option Entries) :
    List String → Origin → Entries → Option Entries
  | [], origin, es => change origin es
  | key :: path, _, es =>
    match node? es key with
    | none => do
      let origin := if dotted then Origin.dotted else Origin.path
      return put key (.table origin (← within dotted change path origin [])) es
    | some (.value _) => none
    | some (.tables elements) => do
      let last ← elements.getLast?
      let last ← within dotted change path .header last
      return put key (.tables (elements.dropLast ++ [last])) es
    | some (.table origin sub) =>
      if dotted ∧ origin = .header then none
      else do return put key (.table origin (← within dotted change path origin sub)) es

/-- Gives a new key a node. -/
def addNew (key : String) (n : Node) (es : Entries) : Option Entries :=
  match node? es key with
  | none => some (put key n es)
  | some _ => none

/-- An assignment of a value to a key that may be dotted: `path` holds the parts before the last. -/
structure Assignment where
  path : List String
  key : String
  value : Value

/-- Makes an assignment. A table of dotted keys takes only dotted keys, and any other table only the
plain key itself. -/
def assign (es : Entries) (a : Assignment) : Option Entries :=
  within true (fun origin es =>
    if origin = .dotted ↔ a.path = [] then none else addNew a.key (.value a.value) es)
    a.path .header es

/-- Makes assignments in order. -/
def assignAll (es : Entries) (as : List Assignment) : Option Entries := as.foldlM assign es

/-- Adds a table under a header. Nothing may stand there yet but a table begun on the way to deeper
headers, which keeps what it has. -/
def addTable (path : List String) (key : String) (as : List Assignment) (root : Entries) :
    Option Entries :=
  within false (fun _ es => do
    let begun ←
      match node? es key with
      | none => some []
      | some (.table .path sub) => some sub
      | some _ => none
    return put key (.table .header (← assignAll begun as)) es) path .header root

/-- Adds a table to those that share an array header. -/
def addElement (path : List String) (key : String) (as : List Assignment) (root : Entries) :
    Option Entries :=
  within false (fun _ es => do
    let elements ←
      match node? es key with
      | none => some []
      | some (.tables elements) => some elements
      | some _ => none
    return put key (.tables (elements ++ [← assignAll [] as])) es) path .header root

end Entries

end TermUnification.Toml
