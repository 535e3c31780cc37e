import TermUnification.Attempt
import TermUnification.Trace.Level

/-! Unification. Two terms are instantiated, then either settled at once or taken apart into pairs of
members, which are unified from left to right, each in the environment left by the ones before. -/
namespace TermUnification

/-- What two instantiated terms leave to be done. -/
inductive Step where
  /-- nothing -/
  | settled
  /-- a fresh variable has to be bound -/
  | assign (v : Variable) (t : Term)
  /-- pairs of members have to be unified -/
  | members (pairs : List (Term × Term))
  /-- the terms cannot be made equal -/
  | clash (cause : Clash)
  deriving DecidableEq

namespace Step

/-- The pairs, provided that the two numbers of members are equal. -/
def ofMembers (left right : Nat) (pairs : List (Term × Term)) : Step :=
  if left = right then members pairs else clash (.arityMismatch left right)

/-- Compares two instantiated terms, so that any variable is fresh. The wildcard goes with
everything. Of two variables the left one is bound. Maps pair up their entries by position, not by
key. Composites need one tag and one arity, and pair up as many arguments as both have. -/
def between : Term → Term → Step
  | .wildcard, _ => settled
  | _, .wildcard => settled
  | .var v, .var w => if v = w then settled else assign v (.var w)
  | .var v, b => assign v b
  | a, .var w => assign w a
  | .seq ts, .seq us => ofMembers ts.length us.length (ts.zip us)
  | .map es, .map fs =>
    ofMembers es.length fs.length ((Term.interleave es).zip (Term.interleave fs))
  | .composite l ts, .composite k us =>
    if l.tag = k.tag then ofMembers (l.arity ts.length) (k.arity us.length) (ts.zip us)
    else clash (.mismatch (.composite l ts) (.composite k us))
  | .scalar s, .scalar t =>
    if s.agrees t then settled else clash (.mismatch (.scalar s) (.scalar t))
  | a, b => clash (.mismatch a b)

end Step

/-- How unification is done: how much it reports, and whether it refuses to bind a variable to a term
that contains it. -/
structure Unifier where
  level : TraceLevel
  occursCheck : Bool
  deriving DecidableEq, Repr

namespace Unifier

/-- The silent unifier without occurs-check. -/
def plain : Unifier := ⟨.silent, false⟩

def withOccursCheck (u : Unifier) (on : Bool) : Unifier := { u with occursCheck := on }

def withLevel (u : Unifier) (level : TraceLevel) : Unifier := { u with level }

/-- Sets the level, or raises it by one. -/
def trace (u : Unifier) (level : Option UInt8) : Unifier := { u with level := u.level.trace level }

/-- Makes the unifier silent. -/
def untrace (u : Unifier) : Unifier := { u with level := .silent }

/-- Binds a fresh variable. -/
def assign (u : Unifier) (v : Variable) (t : Term) (env : Environment) : Attempt Environment :=
  if u.occursCheck && t.occurs v then .fail (.occursCheck v t) else pure (env.bind v t)

/-- The report at the end of a unification. -/
def ending (a b : Term) : Outcome Environment → List Event
  | .done env => [.unified a b env]
  | .clash cause => [.failed cause]
  | .endless => []

/-- Surrounds a unification by the reports that the level asks for. -/
def reporting (u : Unifier) (a b : Term) (x : Attempt Environment) : Attempt Environment :=
  let before := if u.level.shows .calls then [.unifying a b] else []
  let after := if u.level.shows .results then ending a b x.outcome else []
  ⟨before ++ x.log ++ after, x.outcome⟩

/-- Unifies two terms on top of an environment, going through at most `n` levels of members. -/
def unifyWithin (u : Unifier) : Nat → Term → Term → Environment → Attempt Environment
  | 0, _, _, _ => .endless
  | n + 1, a, b, env =>
    u.reporting a b <|
      match env.instantiate? a, env.instantiate? b with
      | some a', some b' =>
        match Step.between a' b' with
        | .settled => pure env
        | .assign v t => u.assign v t env
        | .members pairs => pairs.foldlM (fun e p => u.unifyWithin n p.1 p.2 e) env
        | .clash cause => .fail cause
      | _, _ => .endless

/-- A number of levels that every unification of two terms stays within. Only variables of the
instantiated terms get bound, each at most once, and a new binding at most doubles the height of what
the members can be instantiated to. -/
def depthBound (env : Environment) (a b : Term) : Nat :=
  match env.instantiate? a, env.instantiate? b with
  | some a', some b' =>
    (max a'.height b'.height + 1) * Nat.pow 2 ((a'.vars ++ b'.vars).length + 1)
  | _, _ => 1

/-- Unifies two terms on top of an environment. The value is the environment with the bindings of a
most general unifier added. Without the occurs-check a variable can get bound to a term that contains
it; the computation is endless when instantiation runs into such a cycle, and only then. -/
def unify (u : Unifier) (a b : Term) (env : Environment) : Attempt Environment :=
  u.unifyWithin (depthBound env a b) a b env

/-- Unifies pairs of terms in turn, each on top of the result of the one before. -/
def unifyAll (u : Unifier) (pairs : List (Term × Term)) (env : Environment) :
    Attempt Environment :=
  pairs.foldlM (fun e p => u.unify p.1 p.2 e) env

@[simp] theorem unifyAll_nil (u : Unifier) (env : Environment) :
    u.unifyAll [] env = pure env := rfl

@[simp] theorem unifyAll_cons (u : Unifier) (p : Term × Term) (ps : List (Term × Term))
    (env : Environment) :
    u.unifyAll (p :: ps) env = u.unify p.1 p.2 env >>= u.unifyAll ps := rfl

@[simp] theorem reporting_outcome (u : Unifier) (a b : Term) (x : Attempt Environment) :
    (u.reporting a b x).outcome = x.outcome := rfl

example : (plain.unify (.seq [.int 1, .var ⟨0⟩, .int 3]) (.seq [.int 1, .int 2, .int 3])
    .empty).outcome = .done (.ofList [(⟨0⟩, .int 2)]) := by decide
example : (plain.unify (.int 42) (.int 35) .empty).outcome =
    .clash (.mismatch (.int 42) (.int 35)) := by decide
example : ((plain.withOccursCheck true).unify (.var ⟨0⟩) (.seq [.var ⟨0⟩]) .empty).outcome =
    .clash (.occursCheck ⟨0⟩ (.seq [.var ⟨0⟩])) := by decide
example : (plain.unifyAll [(.var ⟨0⟩, .seq [.var ⟨0⟩]), (.var ⟨0⟩, .nil)] .empty).outcome =
    .endless := by decide

end Unifier

end TermUnification
