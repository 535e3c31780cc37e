/-! Readers: computations that take a value off the front of a text or fail. -/
namespace TermUnification.Toml

/-- A reader of values from a list of characters. A failing alternative leaves the text as it was. -/
abbrev Reader := StateT (List Char) Option

namespace Reader

/-- One character of a class. -/
def one (p : Char → Bool) : Reader Char
  | [] => none
  | c :: cs => if p c then some (c, cs) else none

/-- One given character. -/
def char (c : Char) : Reader Unit := do let _ ← one (· = c)

/-- Given characters in order. -/
def exactly : List Char → Reader Unit
  | [] => pure ()
  | c :: cs => do
    char c
    exactly cs

/-- As many characters of a class as there are. -/
def span (p : Char → Bool) : Reader (List Char) := fun cs => some (cs.takeWhile p, cs.dropWhile p)

/-- A given number of characters of a class. -/
def times (p : Char → Bool) : Nat → Reader (List Char)
  | 0 => pure []
  | n + 1 => do
    let c ← one p
    let cs ← times p n
    return c :: cs

/-- The next character, which stays in the text. -/
def peek? : Reader (Option Char) := fun cs => some (cs.head?, cs)

/-- Succeeds at the end of the text only. -/
def finish : Reader Unit
  | [] => some ((), [])
  | _ :: _ => none

/-- A value if the reader succeeds. -/
def maybe {α : Type} (r : Reader α) : Reader (Option α) :=
  (do return some (← r)) <|> pure none

/-- Values while the reader succeeds, at most as many as a list is long. -/
def upTo {α β : Type} (r : Reader α) : List β → Reader (List α)
  | [] => pure []
  | _ :: bound => do
    match ← maybe r with
    | none => return []
    | some a => return a :: (← upTo r bound)

/-- Values while the reader succeeds. It must take at least one character each time, so that the
text itself bounds the number of values. -/
def many {α : Type} (r : Reader α) : Reader (List α) := fun cs => upTo r cs cs

/-- One value and then more of them, each after a separator. A separator without a value after it is
left in the text. -/
def separated {α : Type} (r : Reader α) (separator : Reader Unit) : Reader (List α) := do
  let a ← r
  let as ← many do
    separator
    r
  return a :: as

/-- Reads a whole text. -/
def run? {α : Type} (r : Reader α) (text : List Char) : Option α :=
  match r text with
  | some (a, []) => some a
  | _ => none

example : (many (one Char.isDigit)).run? ['1', '2'] = some ['1', '2'] := by decide
example : (separated (one Char.isDigit) (char ',')) ['1', ',', '2', ','] =
    some (['1', '2'], [',']) := by decide

end Reader

end TermUnification.Toml
