import TermUnification.Text.CodePoints

/-! White space and trimming. -/
namespace TermUnification.Text

/-- The characters with the property `White_Space`. -/
def blank : CodePoints where
  boundaries := [
    0x9, 0xe, 0x20, 0x21, 0x85, 0x86, 0xa0, 0xa1, 0x1680, 0x1681, 0x2000, 0x200b, 0x2028, 0x202a,
    0x202f, 0x2030, 0x205f, 0x2060, 0x3000, 0x3001]

/-- A text without the white space at its two ends. -/
def trim (s : List Char) : List Char :=
  ((s.dropWhile blank.contains).reverse.dropWhile blank.contains).reverse

example : trim " 2\t".toList = ['2'] := by decide
example : trim ['\u3000', '2', '\u00a0'] = ['2'] := by decide

end TermUnification.Text
