/-! Floating point numbers as 64-bit words: a sign, eleven bits of exponent and fifty-two of
fraction. Comparison and rounding are integer arithmetic on these fields. -/
namespace TermUnification

/-- A floating point number, given by its word. -/
structure Binary64 where
  bits : UInt64
  deriving DecidableEq, Repr

namespace Binary64

/-- The place of the sign, bit 63 of a word. -/
def signBit : Nat := 0x8000000000000000

/-- The place of the lowest bit of the exponent, bit 52 of a word. The fraction lies below it. -/
def exponentBit : Nat := 0x10000000000000

def isNegative (x : Binary64) : Bool := decide (signBit ≤ x.bits.toNat)

def exponentField (x : Binary64) : Nat := x.bits.toNat / exponentBit % 2048

def fraction (x : Binary64) : Nat := x.bits.toNat % exponentBit

/-- The largest exponent field holds the infinities and the values that are no numbers. -/
def isFinite (x : Binary64) : Bool := decide (x.exponentField < 2047)

def isNaN (x : Binary64) : Bool := !x.isFinite && decide (x.fraction ≠ 0)

/-- Both zeros, whatever the sign. -/
def isZero (x : Binary64) : Bool := decide (x.bits.toNat % signBit = 0)

/-- The magnitude of a finite number is `significand * 2 ^ scale`. Subnormal numbers, with
exponent field zero, lack the leading bit. -/
def significand (x : Binary64) : Nat :=
  if x.exponentField = 0 then x.fraction else exponentBit + x.fraction

def scale (x : Binary64) : Int := ((max 1 x.exponentField : Nat) : Int) - 1075

/-- Numerical equality: what is no number differs from everything, itself included, and the two
zeros are equal. -/
protected def beq (x y : Binary64) : Bool :=
  !x.isNaN && !y.isNaN && (decide (x = y) || (x.isZero && y.isZero))

instance : BEq Binary64 := ⟨Binary64.beq⟩

theorem beq_def (x y : Binary64) :
    (x == y) = (!x.isNaN && !y.isNaN && (decide (x = y) || (x.isZero && y.isZero))) := rfl

@[simp] theorem beq_self (x : Binary64) : (x == x) = !x.isNaN := by
  simp [beq_def]

theorem beq_comm (x y : Binary64) : (x == y) = (y == x) := by
  have h : decide (x = y) = decide (y = x) := decide_eq_decide.2 eq_comm
  rw [beq_def, beq_def, h, Bool.and_comm (!x.isNaN), Bool.and_comm x.isZero]

/-- The quotient rounded to the nearest integer, a half going to the even neighbour. -/
def roundDiv (n d : Nat) : Nat :=
  let q := n / d
  let r := n % d
  if 2 * r < d then q else if d < 2 * r then q + 1 else q + q % 2

/-- The word of the number nearest to a natural number. A significand of 53 bits is formed first;
when rounding carries it to 54 bits, the sum below moves the carry into the exponent. Past the
largest finite number the word is that of infinity. -/
def magnitude (n : Nat) : Nat :=
  if n = 0 then 0
  else
    let width := n.log2 + 1
    let digits := if width ≤ 53 then n * Nat.pow 2 (53 - width) else roundDiv n (Nat.pow 2 (width - 53))
    min ((width + 1021) * exponentBit + digits) (2047 * exponentBit)

/-- The floating point number nearest to an integer, a half going to the even significand. -/
def ofInt (n : Int) : Binary64 :=
  ⟨UInt64.ofNat (magnitude n.natAbs + if n < 0 then signBit else 0)⟩

example : ofInt 0 = ⟨0⟩ := by decide
example : ofInt 1 = ⟨0x3ff0000000000000⟩ := by decide
example : ofInt (-42) = ⟨0xc045000000000000⟩ := by decide
example : ofInt (2 ^ 53 + 1) = ofInt (2 ^ 53) := by decide
example : ofInt (2 ^ 63 - 1) = ofInt (2 ^ 63) := by decide

end Binary64

end TermUnification
