import TermUnification.Environment.Basic
import TermUnification.Term.Walk

/-! Instantiation: replacing bound variables by what they stand for, until only fresh ones are left. -/
namespace TermUnification.Environment

/-- What a variable stands for, when every path through bindings ends within `n` of them. -/
def follow? (env : Environment) : Nat → Variable → Option Term
  | 0, v =>
    match env.lookup? v with
    | none => some (.var v)
    | some _ => none
  | n + 1, v =>
    match env.lookup? v with
    | none => some (.var v)
    | some t => t.traverse (env.follow? n)

/-- The term with every bound variable replaced, or nothing when a cycle of bindings can be reached
from it. A path through more bindings than the environment has runs around a cycle, and one through
fewer ends. -/
def instantiate? (env : Environment) (t : Term) : Option Term :=
  t.traverse (env.follow? env.size)

/-- The distinct fresh variables that a term leads to, in the order in which they are met. -/
def freshVars? (env : Environment) (t : Term) : Option (List Variable) :=
  (env.instantiate? t).map Term.vars

@[simp] theorem instantiate?_wildcard (env : Environment) :
    env.instantiate? .wildcard = some .wildcard := by simp [instantiate?, Term.traverse]

@[simp] theorem instantiate?_scalar (env : Environment) (s : Scalar) :
    env.instantiate? (.scalar s) = some (.scalar s) := by simp [instantiate?, Term.traverse]

theorem follow?_of_lookup?_eq_none {env : Environment} {v : Variable}
    (h : env.lookup? v = none) (n : Nat) : env.follow? n v = some (.var v) := by
  cases n <;> simp [follow?, h]

theorem instantiate?_of_lookup?_eq_none {env : Environment} {v : Variable}
    (h : env.lookup? v = none) : env.instantiate? (.var v) = some (.var v) := by
  simp [instantiate?, Term.traverse, follow?_of_lookup?_eq_none h]

example : (ofList [(⟨0⟩, .seq [.var ⟨1⟩]), (⟨1⟩, .int 1)]).instantiate? (.var ⟨0⟩) =
    some (.seq [.int 1]) := by decide
example : (ofList [(⟨0⟩, .var ⟨1⟩), (⟨1⟩, .var ⟨0⟩)]).instantiate? (.var ⟨0⟩) = none := by decide

end TermUnification.Environment
