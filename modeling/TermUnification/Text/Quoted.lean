import TermUnification.Text.Unprintable
import TermUnification.Text.Extending
import TermUnification.Text.Ignorable

/-! Text between double quotes, with escapes for what would not show. -/
namespace TermUnification.Text

/-- Lower-case hexadecimal digits without padding. -/
def hexDigits (n : Nat) : List Char := Nat.toDigits 16 n

/-- Does a character leave no sign of its own on a page? -/
def isHidden (c : Char) : Bool :=
  extending.contains c || ignorable.contains c || unprintable.contains c

/-- One character of a quoted text. The quote and the backslash are escaped, four controls have
short escapes, and a character that extends its neighbour, need not be shown or has no visible form
is written by its code point. -/
def escape (c : Char) : List Char :=
  if c = '\x00' then ['\\', '0']
  else if c = '\t' then ['\\', 't']
  else if c = '\n' then ['\\', 'n']
  else if c = '\r' then ['\\', 'r']
  else if c = '\\' then ['\\', '\\']
  else if c = '\x22' then ['\\', '\x22']
  else if 0x20 ≤ c.toNat ∧ c.toNat < 0x7f then [c]
  else if isHidden c then
    ['\\', 'u', '\x7b'] ++ hexDigits c.toNat ++ ['\x7d']
  else [c]

/-- A text in double quotes. -/
def quote (s : String) : String :=
  String.ofList ('\x22' :: s.toList.flatMap escape ++ ['\x22'])

example : escape 'a' = ['a'] := by decide
example : escape '\x7f' = ['\\', 'u', '\x7b', '7', 'f', '\x7d'] := by decide +kernel
example : escape '\u00e9' = ['\u00e9'] := by decide +kernel
example : isHidden '\u115f' ∧ ¬ isHidden '\uff9e' := by decide +kernel
example : escape '\u0301' = ['\\', 'u', '\x7b', '3', '0', '1', '\x7d'] := by decide +kernel

end TermUnification.Text
