import TermUnification.Proofs.RenamingApart
import TermUnification.Proofs.Termination

/-! The environments that a program comes to. With the occurs-check, unification stops calling itself, and
no environment ever gets a cycle. -/
namespace TermUnification

namespace Environment

/-- The environments that a program comes to by unification with the occurs-check and by renaming, which
makes variables that have not been in use. -/
inductive Reachable : Environment → Prop
  | empty : Reachable empty
  | unify {env e : Environment} {u : Unifier} {a b : Term} (h : Reachable env)
      (hu : u.occursCheck = true) (done : (u.unify a b env).outcome = .done e) : Reachable e
  | unifyAll {env e : Environment} {u : Unifier} {ps : List (Term × Term)} (h : Reachable env)
      (hu : u.occursCheck = true) (done : (u.unifyAll ps env).outcome = .done e) : Reachable e
  | rename {env : Environment} {names : Names} {t r : Term} {s : Renaming} (h : Reachable env)
      (hnames : env.KnownTo names) (ht : ∀ v, t.occurs v = true → names.Known v)
      (done : env.rename? names t = some (r, s)) : Reachable s.env

theorem Reachable.acyclic {env : Environment} (h : Reachable env) : env.Acyclic := by
  induction h with
  | empty => exact acyclic_empty
  | unify _ hu done ih => exact Unifier.acyclic_of_unify hu ih done
  | unifyAll _ hu done ih => exact Unifier.acyclic_of_unifyAll hu ih done
  | rename _ hnames ht done ih => exact ih.rename hnames ht done

end Environment

namespace Unifier
open Environment Relation

/-- Unification with the occurs-check ends, instantiates in acyclic environments only, and leaves one;
so no history of environments comes to a cycle, and instantiation ends throughout. -/
theorem unify_ends_acyclic :
    (∀ (u : Unifier) (env : Environment) (a b : Term), u.occursCheck = true → env.Acyclic →
      (u.unify a b env).outcome ≠ .endless ∧
      (∀ n, depthBound env a b ≤ n → u.unifyWithin n a b env = u.unify a b env) ∧
      (∃ a' b', env.instantiate? a = some a' ∧ env.instantiate? b = some b' ∧
        u.unify a b env = u.reporting a b (u.proceed env (Step.between a' b'))) ∧
      Acc (fun d c => u.Invokes c d) ⟨a, b, env⟩ ∧
      (∀ c, ReflTransGen u.Invokes ⟨a, b, env⟩ c → c.env.Acyclic ∧
        (c.env.instantiate? c.left).isSome ∧ (c.env.instantiate? c.right).isSome) ∧
      ∀ e, (u.unify a b env).outcome = .done e → e.Acyclic) ∧
    ∀ env, Reachable env → env.Acyclic ∧ ∀ t, ∃ i, env.instantiate? t = some i := by
  constructor
  · intro u env a b hu henv
    have hne := unify_ne_endless hu henv (a := a) (b := b)
    have heq := unify_eq u (henv.instantiate?_eq a) (henv.instantiate?_eq b)
    refine ⟨hne, fun n hn => unifyWithin_eq_unify hn, ?_, (wellFounded_invokes u).apply _,
      fun c hc => ?_, fun e he => acyclic_of_unify hu henv he⟩
    · exact ⟨_, _, henv.instantiate?_eq a, henv.instantiate?_eq b, heq⟩
    · have hac := acyclic_of_invokes hu hc henv
      exact ⟨hac, by simp [hac.instantiate?_eq], by simp [hac.instantiate?_eq]⟩
  · intro env h
    exact ⟨h.acyclic, fun t => ⟨_, h.acyclic.instantiate?_eq t⟩⟩

/-- From the empty environment, x is unified with f(y) and then [x, z] is renamed. -/
theorem unify_ends_acyclic_history :
    let x : Variable := ⟨0⟩
    let y : Variable := ⟨1⟩
    let z : Variable := ⟨2⟩
    let u := plain.withOccursCheck true
    let a : Term := .seq [.var x, .var z]
    let b : Term := .seq [.compound "f" [.seq [.var z]], .var y]
    let env := ofList [(x, .compound "f" [.var y])]
    let env' := ofList [(x, .compound "f" [.var y]), (z, .var ⟨3⟩)]
    env.Acyclic ∧ Reachable env' ∧ (u.unify a b env).outcome ≠ .endless ∧
      Acc (fun d c => u.Invokes c d) ⟨a, b, env⟩ ∧
      env'.Acyclic ∧ ∀ t, ∃ i, env'.instantiate? t = some i := by
  intro x y z u a b env env'
  obtain ⟨hends, hreach⟩ := unify_ends_acyclic
  have henv : env.Acyclic := acyclic_single (by decide)
  have hbound : (u.unify (.var x) (.compound "f" [.var y]) .empty).outcome = .done env := by decide
  have h : Reachable env := .unify .empty rfl hbound
  have hrun : env.rename? (Names.ofNames ["x", "y", "z"]) (.seq [.var x, .var z]) =
      some (.seq [.compound "f" [.var y], .var ⟨3⟩],
        ⟨Names.ofNames ["x", "y", "z", "z"], env', [(z, ⟨3⟩)]⟩) := by decide
  have hknown : ∀ v ∈ (Term.seq [.var x, .var z]).occurrences,
      (Names.ofNames ["x", "y", "z"]).Known v := by decide
  have h' := h.rename (knownTo_single (by decide) (by decide))
    (fun v hv => hknown v (Term.mem_occurrences.2 hv)) hrun
  obtain ⟨hne, -, -, hacc, -⟩ := hends u env a b rfl henv
  exact ⟨henv, h', hne, hacc, hreach env' h'⟩

end Unifier

end TermUnification
