import TermUnification.Number.Binary64

/-! The shortest decimal digits of a floating point number. A decimal reads back as the number when
it lies in the interval of reals that round to it; on the coarsest decimal grid with a point in that
interval, the point nearest to the number is taken. -/
namespace TermUnification

/-- The decimal `digits * 10 ^ exponent`. -/
structure Decimal where
  digits : Nat
  exponent : Int
  deriving DecidableEq, Repr

/-- The reals that round to one number: the number and the two ends, counted in units of
`2 ^ unit`, and whether the ends belong to it. -/
structure RoundingInterval where
  low : Nat
  mid : Nat
  high : Nat
  unit : Int
  closed : Bool
  deriving DecidableEq, Repr

namespace RoundingInterval

/-- A finite number lies halfway between the ends, except that the lower neighbour of a power of
two is only half as far away. Ties in reading go to the even significand, which then owns its
ends. -/
def ofBinary64 (x : Binary64) : RoundingInterval :=
  let m := x.significand
  { low := 4 * m - if x.fraction = 0 ∧ 1 < x.exponentField then 1 else 2
    mid := 4 * m
    high := 4 * m + 2
    unit := x.scale - 2
    closed := decide (m % 2 = 0) }

/-- The factors that bring a step of the decimal grid and a unit of the interval to one measure. -/
def step (i : RoundingInterval) (k : Int) : Nat :=
  Nat.pow 10 k.toNat * Nat.pow 2 (-i.unit).toNat

def measure (i : RoundingInterval) (k : Int) : Nat :=
  Nat.pow 10 (-k).toNat * Nat.pow 2 i.unit.toNat

/-- Is `d * 10 ^ k` in the interval? -/
def contains (i : RoundingInterval) (d : Nat) (k : Int) : Bool :=
  let point := d * i.step k
  let one := i.measure k
  if i.closed then decide (i.low * one ≤ point ∧ point ≤ i.high * one)
  else decide (i.low * one < point ∧ point < i.high * one)

/-- The multiple of `10 ^ k` in the interval that is nearest to its number, the greater one when
two are equally near. Only the two neighbours of the number have to be tried. -/
def nearestOn (i : RoundingInterval) (k : Int) : Option Nat :=
  let below := i.mid * i.measure k / i.step k
  let rest := i.mid * i.measure k % i.step k
  let belowIsNearer := decide (2 * rest < i.step k)
  let near := if belowIsNearer then below else below + 1
  let far := if belowIsNearer then below + 1 else below
  if i.contains near k then some near
  else if i.contains far k then some far
  else none

/-- Goes from the grid of `10 ^ k` to finer ones, at most `n` of them, until one has a point in the
interval. -/
def coarsest (i : RoundingInterval) : Nat → Int → Decimal
  | 0, _ => ⟨0, 0⟩
  | n + 1, k =>
    match i.nearestOn k with
    | some d => ⟨d, k⟩
    | none => i.coarsest n (k - 1)

end RoundingInterval

namespace Decimal

def zeros (n : Nat) : List Char := List.replicate n '0'

/-- All digits written out around the decimal point, never an exponent. -/
def positional (x : Decimal) : List Char :=
  let ds := Nat.toDigits 10 x.digits
  let places := (-x.exponent).toNat
  if 0 ≤ x.exponent then ds ++ zeros x.exponent.toNat
  else if places < ds.length then
    ds.take (ds.length - places) ++ '.' :: ds.drop (ds.length - places)
  else '0' :: '.' :: zeros (places - ds.length) ++ ds

example : positional ⟨12, 2⟩ = ['1', '2', '0', '0'] := by decide
example : positional ⟨125, -2⟩ = ['1', '.', '2', '5'] := by decide
example : positional ⟨5, -3⟩ = ['0', '.', '0', '0', '5'] := by decide

end Decimal

namespace Binary64

/-- The shortest decimal that reads back as the magnitude of a finite number. No number reaches
`10 ^ 309`, and every interval is wider than `10 ^ (-324)`, so the 634 grids between suffice. -/
def shortest (x : Binary64) : Decimal :=
  if x.significand = 0 then ⟨0, 0⟩ else (RoundingInterval.ofBinary64 x).coarsest 634 309

/-- The text of a number: shortest digits in positional form, with a sign also on zero. -/
def text (x : Binary64) : String :=
  if x.isNaN then "NaN"
  else
    let sign := if x.isNegative then ['-'] else []
    let digits := if x.isFinite then x.shortest.positional else ['i', 'n', 'f']
    String.ofList (sign ++ digits)

example : shortest ⟨0x3fb999999999999a⟩ = ⟨1, -1⟩ := by decide +kernel
example : shortest ⟨1⟩ = ⟨5, -324⟩ := by decide +kernel
example : shortest ⟨0x7fefffffffffffff⟩ = ⟨17976931348623157, 292⟩ := by decide +kernel
example : shortest ⟨0x4340000000000001⟩ = ⟨9007199254740994, 0⟩ := by decide +kernel

end Binary64

end TermUnification
