import TermUnification.Toml.Reader

/-! Blanks, line ends and comments. -/
namespace TermUnification.Toml

def isBlank (c : Char) : Bool := c == ' ' || c == '\t'

/-- Characters that texts and comments may hold as they are: the tab, and everything that is no
control character. -/
def isPlain (c : Char) : Bool :=
  c == '\t' || (decide (0x20 ≤ c.toNat) && decide (c.toNat ≠ 0x7f))

/-- Blanks, if there are any. -/
def blanks : Reader Unit := do let _ ← Reader.span isBlank

/-- A line feed, alone or after a carriage return. -/
def newline : Reader Unit := Reader.char '\n' <|> Reader.exactly ['\r', '\n']

def lineEnd : Reader Unit := newline <|> Reader.finish

def comment : Reader Unit := do
  Reader.char '#'
  let _ ← Reader.span isPlain

/-- What may follow a statement: blanks, a comment and the end of the line. -/
def trailing : Reader Unit := do
  blanks
  let _ ← Reader.maybe comment
  lineEnd

/-- Blanks, line ends and comments, as they may stand between the values of an array. -/
def gap : Reader Unit := do
  let _ ← Reader.many do
    blanks
    let _ ← Reader.maybe comment
    newline
  blanks

end TermUnification.Toml
