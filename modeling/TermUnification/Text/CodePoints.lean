/-! Sets of characters given by the code points at which membership changes. -/
namespace TermUnification.Text

/-- A set of code points: in it from the first boundary on, out of it from the second, and so on. -/
structure CodePoints where
  boundaries : List Nat

namespace CodePoints

/-- A character is in the set when an odd number of boundaries lie at or below it. -/
def contains (s : CodePoints) (c : Char) : Bool :=
  s.boundaries.countP (· ≤ c.toNat) % 2 == 1

end CodePoints

end TermUnification.Text
