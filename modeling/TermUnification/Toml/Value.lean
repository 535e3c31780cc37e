/-! The values of a TOML document. -/
namespace TermUnification.Toml

/-- A value. Floating point numbers and points in time keep only their kind. -/
inductive Value where
  | text (content : String)
  | integer (n : Int)
  | float
  | boolean (b : Bool)
  | dateTime
  | array (items : List Value)
  | table (entries : List (String × Value))

/-- The value under a key, if there is one. -/
def valueAt? {α : Type} (entries : List (String × α)) (key : String) : Option α :=
  (entries.find? fun e => e.1 == key).map (·.2)

/-- Arrays and tables lie within each other at most this deep. -/
def nestingLimit : Nat := 79

/-- A dotted key has at most this many parts. -/
def keyLimit : Nat := 79

end TermUnification.Toml
