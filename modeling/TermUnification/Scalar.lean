import TermUnification.Number.Shortest
import TermUnification.Text.Quoted

/-! Values without parts. -/
namespace TermUnification

/-- A value that is never taken apart. Text counts as one value. -/
inductive Scalar where
  | nil
  | bool (value : Bool)
  | int (value : Int64)
  | float (value : Binary64)
  | atom (name : String)
  | text (content : String)
  deriving DecidableEq, Repr

namespace Scalar

/-- Equality of kind and value. Only floating point numbers bring their own notion, by which what
is no number differs from itself and the two zeros are equal. -/
protected def beq : Scalar → Scalar → Bool
  | nil, nil => true
  | bool a, bool b => decide (a = b)
  | int a, int b => decide (a = b)
  | float a, float b => a == b
  | atom a, atom b => decide (a = b)
  | text a, text b => decide (a = b)
  | _, _ => false

instance : BEq Scalar := ⟨Scalar.beq⟩

/-- Does the scalar hold a value that is no number? -/
def isNaN : Scalar → Bool
  | float x => x.isNaN
  | _ => false

@[simp] theorem beq_self (a : Scalar) : (a == a) = !a.isNaN := by
  cases a <;> simp [BEq.beq, Scalar.beq, isNaN]
  exact Binary64.beq_self _

theorem beq_comm (a b : Scalar) : (a == b) = (b == a) := by
  cases a <;> cases b <;> simp [BEq.beq, Scalar.beq, eq_comm]
  exact Binary64.beq_comm _ _

/-- Do two scalars stand for one value? As equality, except that an integer meets a floating point
number by value, after rounding to the nearest floating point number. -/
def agrees : Scalar → Scalar → Bool
  | int n, float x => Binary64.ofInt n.toInt == x
  | float x, int n => Binary64.ofInt n.toInt == x
  | a, b => a == b

theorem agrees_comm (a b : Scalar) : a.agrees b = b.agrees a := by
  cases a <;> cases b <;> simp [agrees, beq_comm]

theorem agrees_of_beq {a b : Scalar} (h : (a == b) = true) : a.agrees b = true := by
  cases a <;> cases b <;> first | exact h | simp [BEq.beq, Scalar.beq] at h

/-- The written form: text is quoted, an atom has a colon before its name. -/
def render : Scalar → String
  | nil => "nil"
  | bool b => if b then "true" else "false"
  | int n => toString n.toInt
  | float x => x.text
  | atom name => ":" ++ name
  | text s => Text.quote s

example : (int 42).agrees (float ⟨0x4045000000000000⟩) = true := by decide
example : (float ⟨0x7ff8000000000000⟩).agrees (float ⟨0x7ff8000000000000⟩) = false := by decide
example : (float ⟨0⟩ == float ⟨0x8000000000000000⟩) = true := by decide
example : (int (-5)).render = "-5" := by decide

end Scalar

end TermUnification
