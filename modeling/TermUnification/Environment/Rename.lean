import TermUnification.Environment.Instantiate

/-! Renaming a term apart: new variables for its fresh ones. -/
namespace TermUnification

/-- The state of a renaming: the table of names, the environment, and the pairs of a variable and
its replacement made so far, in order. -/
structure Renaming where
  names : Names
  env : Environment
  made : List (Variable × Variable)
  deriving DecidableEq

namespace Renaming

def start (names : Names) (env : Environment) : Renaming := ⟨names, env, []⟩

/-- The replacement of one occurrence of a variable. A bound variable is instantiated with the
bindings known by now; a fresh one gets a new variable of the same name, and is bound to it, so that
its later occurrences are replaced alike. -/
def replace (v : Variable) : StateT Renaming Option Term := fun r =>
  match r.env.lookup? v with
  | some t => (r.env.instantiate? t).map fun u => (u, r)
  | none =>
    let (w, names) := r.names.renamed v
    some (.var w, ⟨names, r.env.set v (.var w), r.made ++ [(v, w)]⟩)

end Renaming

/-- The renamed term and the state after it, with the bindings to the new variables in its
environment; nothing when a cycle of bindings can be reached. -/
def Environment.rename? (env : Environment) (names : Names) (t : Term) :
    Option (Term × Renaming) :=
  (t.traverse Renaming.replace).run (Renaming.start names env)

example : (Environment.empty.rename? (Names.ofNames ["x"]) (.seq [.var ⟨0⟩, .var ⟨0⟩])).map (·.1) =
    some (.seq [.var ⟨1⟩, .var ⟨1⟩]) := by decide

end TermUnification
