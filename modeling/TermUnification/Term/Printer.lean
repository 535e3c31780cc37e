import TermUnification.Term.Basic

/-! The written form of a term. -/
namespace TermUnification.Term

mutual

/-- Sequences stand in brackets, maps in braces with an arrow between key and value, and the arguments
of a composite in parentheses after its tag. -/
def render (names : Names) : Term → String
  | var v => names.text v
  | wildcard => "_"
  | scalar s => s.render
  | seq ts => "[" ++ ", ".intercalate (renderList names ts) ++ "]"
  | map es => "\x7b" ++ ", ".intercalate (renderEntries names es) ++ "\x7d"
  | composite l ts => l.tag ++ "(" ++ ", ".intercalate (renderList names ts) ++ ")"

def renderList (names : Names) : List Term → List String
  | [] => []
  | t :: ts => render names t :: renderList names ts

def renderEntries (names : Names) : List (Term × Term) → List String
  | [] => []
  | (k, x) :: es => (render names k ++ " => " ++ render names x) :: renderEntries names es

end

example : (seq [var ⟨0⟩, wildcard, int 3]).render (Names.ofNames ["x"]) = "[?x, _, 3]" := by decide
example : (map [(atom "k", compound "f" [])]).render Names.empty = "\x7b:k => f()\x7d" := by decide

end TermUnification.Term
