import TermUnification.Term.Printer

/-! Why two terms cannot be made equal. -/
namespace TermUnification

/-- The reason why a unification fails. -/
inductive Clash where
  /-- different kinds of term, different tags or different values -/
  | mismatch (left right : Term)
  /-- composites of one kind with different numbers of members -/
  | arityMismatch (left right : Nat)
  /-- a variable would be bound to a term that contains it -/
  | occursCheck (v : Variable) (t : Term)
  deriving DecidableEq

/-- The wording of a failure. -/
def Clash.message (names : Names) : Clash → String
  | mismatch left right => "Cannot unify " ++ left.render names ++ " with " ++ right.render names
  | arityMismatch left right => "Arity mismatch: " ++ toString left ++ " vs " ++ toString right
  | occursCheck v t => "Occurs check: " ++ names.text v ++ " occurs in " ++ t.render names

example : (Clash.mismatch (.int 42) (.int 35)).message Names.empty = "Cannot unify 42 with 35" := by
  decide
example : (Clash.occursCheck ⟨0⟩ (.seq [.var ⟨0⟩])).message (Names.ofNames ["x"]) =
    "Occurs check: ?x occurs in [?x]" := by decide

end TermUnification
