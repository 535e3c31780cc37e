import TermUnification.Proofs.Calls

/-! Unification with the occurs-check ends: it instantiates in acyclic environments only, and leaves one. -/
namespace TermUnification.Unifier
open Environment Relation

variable {u : Unifier} (hu : u.occursCheck = true)

include hu

theorem acyclic_of_unify {a b : Term} {env e : Environment} (henv : env.Acyclic)
    (h : (u.unify a b env).outcome = .done e) : e.Acyclic :=
  (((resolves_singleton_iff.2 ⟨h, by simp⟩).solves hu henv).acyclic_extends rfl).1

theorem acyclic_of_unifyAll {ps : List (Term × Term)} {env e : Environment}
    (henv : env.Acyclic) (h : (u.unifyAll ps env).outcome = .done e) : e.Acyclic :=
  (((resolves_iff.2 ⟨h, by simp⟩).solves hu henv).acyclic_extends rfl).1

theorem Invokes.acyclic {c d : Call} (h : u.Invokes c d) (hc : c.env.Acyclic) : d.env.Acyclic := by
  cases h with
  | member _ _ _ done => exact acyclic_of_unifyAll hu hc done

theorem acyclic_of_invokes {c d : Call} (h : ReflTransGen u.Invokes c d) (hc : c.env.Acyclic) :
    d.env.Acyclic := by
  induction h with
  | refl => exact hc
  | tail _ h ih => exact h.acyclic hu ih

theorem unify_ne_endless {a b : Term} {env : Environment} (henv : env.Acyclic) :
    (u.unify a b env).outcome ≠ .endless := by
  intro h
  obtain ⟨d, hd, hstuck⟩ := (unify_endless_iff (c := ⟨a, b, env⟩)).1 h
  have hac := acyclic_of_invokes hu hd henv
  exact hstuck ⟨hac.termEnds d.left, hac.termEnds d.right⟩

theorem unifyAll_ne_endless {ps : List (Term × Term)} {env : Environment} (henv : env.Acyclic) :
    (u.unifyAll ps env).outcome ≠ .endless := by
  intro h
  obtain ⟨before, p, after, e, rfl, hdone, hp⟩ := exists_endless_of_unifyAll h
  exact unify_ne_endless hu (acyclic_of_unifyAll hu henv hdone) hp

theorem solves_unify {a b : Term} {env : Environment} (henv : env.Acyclic) :
    Solves [(a, b)] env (u.unify a b env).outcome :=
  (resolves_unify (unify_ne_endless hu henv)).solves hu henv

theorem solves_unifyAll {ps : List (Term × Term)} {env : Environment} (henv : env.Acyclic) :
    Solves ps env (u.unifyAll ps env).outcome :=
  (resolves_unifyAll (unifyAll_ne_endless hu henv)).solves hu henv

end TermUnification.Unifier
