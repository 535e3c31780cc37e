import TermUnification.Toml.Quoted
import TermUnification.Toml.Value

/-! Integers and floating point numbers. -/
namespace TermUnification.Toml

open Reader

/-- Digits of a class, with single underscores between them. -/
def digits (p : Char → Bool) : Reader (List Char) := do
  let c ← one p
  let cs ← many (one p <|> (do char '_'; one p))
  return c :: cs

/-- A plus or minus sign, if there is one: does it negate? -/
def sign : Reader Bool :=
  (do char '-'; return true) <|> (do char '+'; return false) <|> pure false

/-- Decimal digits without a leading zero, but for zero itself. -/
def wholeDigits : Reader (List Char) := do
  match ← peek? with
  | some '0' => do
    char '0'
    return ['0']
  | _ => digits Char.isDigit

/-- The integers that a document may hold. -/
def inRange (n : Int) : Bool :=
  decide (-0x8000000000000000 ≤ n) && decide (n < 0x8000000000000000)

def ranged (n : Int) : Reader Value := if inRange n then return .integer n else failure

/-- A decimal integer with an optional sign. -/
def decimalInteger : Reader Value := do
  let negative ← sign
  let n : Int := numeral 10 (← wholeDigits)
  ranged (if negative then -n else n)

/-- An integer in another base, after zero and a letter. These have no sign. -/
def basedInteger (letter : Char) (base : Nat) (p : Char → Bool) : Reader Value := do
  exactly ['0', letter]
  ranged (numeral base (← digits p))

def integer : Reader Value :=
  basedInteger 'x' 16 isHexDigit
    <|> basedInteger 'o' 8 (fun c => '0' ≤ c && c ≤ '7')
    <|> basedInteger 'b' 2 (fun c => c == '0' || c == '1')
    <|> decimalInteger

/-- The least magnitude that rounds to infinity: half a unit above the largest finite number. -/
def overflowLimit : Nat := Nat.pow 2 1024 - Nat.pow 2 970

/-- Does `digits * 10 ^ exponent` round to infinity? The number of places before the decimal point
decides, unless it is that of the limit. -/
def overflows (digits : List Char) (exponent : Int) : Bool :=
  let n := numeral 10 digits
  let places := ((digits.dropWhile (· = '0')).length : Int) + exponent
  if n = 0 ∨ places < 309 then false
  else if 309 < places then true
  else decide (overflowLimit * Nat.pow 10 (-exponent).toNat ≤ n * Nat.pow 10 exponent.toNat)

/-- The digits after a decimal point. -/
def fractionDigits : Reader (List Char) := do
  char '.'
  digits Char.isDigit

/-- The power of ten after a letter. -/
def exponentPart : Reader Int := do
  char 'e' <|> char 'E'
  let negative ← sign
  let n : Int := numeral 10 (← digits Char.isDigit)
  return if negative then -n else n

/-- A decimal number with a fraction, an exponent or both. A number too large for any finite value is
refused, unless it is negative. -/
def decimalFloat : Reader Value := do
  let negative ← sign
  let whole ← wholeDigits
  let fraction ← maybe fractionDigits
  let exponent ← maybe exponentPart
  if fraction.isNone && exponent.isNone then failure
  let places := fraction.getD []
  if !negative && overflows (whole ++ places) (exponent.getD 0 - places.length) then failure
  return .float

/-- The words for infinity and for what is no number. -/
def specialFloat : Reader Value := do
  let _ ← sign
  exactly ['i', 'n', 'f'] <|> exactly ['n', 'a', 'n']
  return .float

def float : Reader Value := decimalFloat <|> specialFloat

example : overflows ['1'] 308 = false := by decide +kernel
example : overflows ['2'] 308 = true := by decide +kernel
example : overflows ['0', '0'] 400 = false := by decide

end TermUnification.Toml
