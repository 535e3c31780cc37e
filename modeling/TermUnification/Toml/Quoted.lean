import TermUnification.Toml.Space

/-! Quoted texts: in double quotes with escapes or in single quotes without, on one line or on
several. -/
namespace TermUnification.Toml

open Reader

def isHexDigit (c : Char) : Bool :=
  c.isDigit || ('a' ≤ c && c ≤ 'f') || ('A' ≤ c && c ≤ 'F')

/-- The value of a digit in a base up to sixteen. -/
def digitValue (c : Char) : Nat :=
  if c.isDigit then c.toNat - '0'.toNat
  else if 'a' ≤ c then c.toNat - 'a'.toNat + 10
  else c.toNat - 'A'.toNat + 10

def numeral (base : Nat) (digits : List Char) : Nat :=
  digits.foldl (fun n c => n * base + digitValue c) 0

/-- The character of a code point written in a number of hexadecimal digits. A surrogate is none. -/
def codePoint (digits : Nat) : Reader Char := do
  let n := numeral 16 (← times isHexDigit digits)
  if n.isValidChar then return Char.ofNat n else failure

/-- An escape after its backslash. -/
def escaped : Reader Char := do
  match ← one fun _ => true with
  | 'b' => return '\x08'
  | 't' => return '\t'
  | 'n' => return '\n'
  | 'f' => return '\x0c'
  | 'r' => return '\r'
  | '\x22' => return '\x22'
  | '\\' => return '\\'
  | 'u' => codePoint 4
  | 'U' => codePoint 8
  | _ => failure

def escape : Reader Char := do
  char '\\'
  escaped

/-- A text on one line in double quotes. -/
def basicText : Reader (List Char) := do
  char '\x22'
  let cs ← many (one (fun c => isPlain c && c != '\x22' && c != '\\') <|> escape)
  char '\x22'
  return cs

/-- A text on one line in single quotes. -/
def literalText : Reader (List Char) := do
  char '\x27'
  let cs ← span fun c => isPlain c && c != '\x27'
  char '\x27'
  return cs

/-- A backslash at the end of a line, which joins it to the next text. -/
def joinedLines : Reader (List Char) := do
  char '\\'
  blanks
  newline
  let _ ← many ((do let _ ← one isBlank) <|> newline)
  return []

/-- One or two quotes that do not close a text: no third one follows. -/
def innerQuotes (quote : Char) : Reader (List Char) := do
  let quotes ← span (· = quote)
  if 1 ≤ quotes.length ∧ quotes.length ≤ 2 then return quotes else failure

/-- The three quotes that close a text, after at most two that belong to it. -/
def closing (quote : Char) : Reader (List Char) :=
  let three := exactly [quote, quote, quote]
  (do exactly [quote, quote]; three; return [quote, quote])
    <|> (do char quote; three; return [quote])
    <|> (do three; return [])

/-- A text on several lines: three quotes, a first line end that does not count, pieces, and the
closing quotes. -/
def severalLines (quote : Char) (piece : Reader (List Char)) : Reader (List Char) := do
  exactly [quote, quote, quote]
  let _ ← maybe newline
  let pieces ← many (piece <|> (do newline; return ['\n']) <|> innerQuotes quote)
  let last ← closing quote
  return pieces.flatten ++ last

def basicLines : Reader (List Char) :=
  severalLines '\x22' <|
    (do return [← one fun c => isPlain c && c != '\x22' && c != '\\'])
      <|> joinedLines
      <|> (do return [← escape])

def literalLines : Reader (List Char) :=
  severalLines '\x27' do return [← one fun c => isPlain c && c != '\x27']

/-- A text in any of the four forms. Those on several lines are tried first, since two quotes alone
are an empty text. -/
def quotedText : Reader String := do
  return String.ofList (← basicLines <|> literalLines <|> basicText <|> literalText)

end TermUnification.Toml
