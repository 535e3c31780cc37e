import TermUnification.Proofs.Extension
import TermUnification.Proofs.Termination

/-! Unification with and without the occurs-check. The two agree unless the check refuses a binding. Where
it does, unification without it makes the binding, which is a cycle that no later step takes away. -/
namespace TermUnification

/-- Did the occurs-check refuse a binding? -/
def Outcome.Refused {α : Type} (x : Outcome α) : Prop := ∃ v t, x = .clash (.occursCheck v t)

namespace Unifier
open Environment

/-- Without the check, the same rules are followed as far as there is no refusal. -/
theorem Resolves.unchecked {u w : Unifier} (hw : w.occursCheck = false) {ps : List (Term × Term)}
    {env : Environment} {out : Outcome Environment} (h : Resolves u ps env out)
    (hout : ¬ out.Refused) : Resolves w ps env out := by
  induction h with
  | nil => exact .nil
  | settled ha hb step _ ih => exact .settled ha hb step (ih hout)
  | assign ha hb step _ _ ih => exact .assign ha hb step (by simp [hw]) (ih hout)
  | members ha hb step _ ih => exact .members ha hb step (ih hout)
  | occurs => exact absurd ⟨_, _, rfl⟩ hout
  | clash ha hb step => exact .clash ha hb step

theorem not_acyclic_of_occurs {env : Environment} {v : Variable} {t : Term}
    (hv : env.lookup? v = some t) (h : t.occurs v = true) : ¬ env.Acyclic :=
  fun henv => henv v (.single ⟨t, hv, h⟩)

/-- Where one unifier finds a clash, one without the occurs-check gets at most an environment with a
cycle: it has made the binding that the other refused. -/
theorem Resolves.not_acyclic {u w : Unifier} (hw : w.occursCheck = false)
    {ps : List (Term × Term)} {env e : Environment} {out : Outcome Environment}
    {cause : Clash} (h : Resolves u ps env out) (hout : out = .clash cause)
    (h' : (w.unifyAll ps env).outcome = .done e) : ¬ e.Acyclic := by
  induction h with
  | nil => cases hout
  | settled ha hb step _ ih =>
    rw [unifyAll_cons_outcome ha hb, step] at h'
    exact ih hout h'
  | assign ha hb step _ _ ih =>
    rw [unifyAll_cons_outcome ha hb, step] at h'
    exact ih hout (by simpa [proceed, Unifier.assign, hw] using h')
  | members ha hb step _ ih =>
    rw [unifyAll_cons_outcome ha hb, step] at h'
    refine ih hout ?_
    rw [unifyAll_append_outcome]
    exact h'
  | @occurs env a b a' b' v t ps ha hb step check =>
    rw [unifyAll_cons_outcome ha hb, step] at h'
    have hrest : (w.unifyAll ps (env.set v t)).outcome = .done e := by
      simpa [proceed, Unifier.assign, hw, Step.bind_eq_set step] using h'
    have hext := (resolves_of_unifyAll hrest).extends rfl
    simp only [Bool.and_eq_true] at check
    exact not_acyclic_of_occurs (hext v t (by simp)) check.2
  | clash ha hb step =>
    rw [unifyAll_cons_outcome ha hb, step] at h'
    cases h'

/-- Unification without the occurs-check gives what unification with it gives, wherever that is an
environment or a clash of two terms. It gives another environment without cycles nowhere. -/
theorem unify_unchecked (u w : Unifier) (hu : u.occursCheck = true) (hw : w.occursCheck = false)
    (env : Environment) (henv : env.Acyclic) (a b : Term) :
    (∀ out, (u.unify a b env).outcome = out → (∀ v t, out ≠ .clash (.occursCheck v t)) →
      out ≠ .endless ∧ (w.unify a b env).outcome = out) ∧
    (∀ e, (u.unify a b env).outcome = .done e ↔ (w.unify a b env).outcome = .done e ∧ e.Acyclic) ∧
    ∀ v t, (u.unify a b env).outcome = .clash (.occursCheck v t) →
      ∀ e, (w.unify a b env).outcome = .done e → ¬ e.Acyclic := by
  have hends := unify_ne_endless hu henv (a := a) (b := b)
  have hagree : ¬ (u.unify a b env).outcome.Refused →
      (w.unify a b env).outcome = (u.unify a b env).outcome := fun hok =>
    (resolves_singleton_iff.1 ((resolves_unify hends).unchecked hw hok)).1
  have hcycle : ∀ cause, (u.unify a b env).outcome = .clash cause →
      ∀ e, (w.unify a b env).outcome = .done e → ¬ e.Acyclic := by
    intro cause hcause e he
    rw [← unifyAll_singleton_outcome] at he
    exact (resolves_unify hends).not_acyclic hw hcause he
  refine ⟨?_, fun e => ⟨fun he => ?_, fun he => ?_⟩, fun v t => hcycle _⟩
  · rintro out rfl hout
    refine ⟨hends, hagree ?_⟩
    rintro ⟨v, t, hvt⟩
    exact hout v t hvt
  · refine ⟨?_, acyclic_of_unify hu henv he⟩
    rw [hagree (by simp [he, Outcome.Refused]), he]
  · obtain ⟨hdone, hacyclic⟩ := he
    cases hout : (u.unify a b env).outcome with
    | done d =>
      rw [hagree (by simp [hout, Outcome.Refused]), hout] at hdone
      exact hdone
    | clash cause => exact absurd hacyclic (hcycle cause hout e hdone)
    | endless => exact absurd hout hends

/-- The terms [x, y] and [f(y), f(x)]: x is bound to f(y), and then y would have to be f(f(y)). -/
theorem unify_unchecked_loop :
    let x : Variable := ⟨0⟩
    let y : Variable := ⟨1⟩
    let f (t : Term) : Term := .compound "f" [t]
    let checked := plain.withOccursCheck true
    let a : Term := .seq [.var x, .var y]
    let b : Term := .seq [f (.var y), f (.var x)]
    let e := ofList [(x, f (.var y)), (y, f (f (.var y)))]
    empty.Acyclic ∧ (checked.unify a b .empty).outcome = .clash (.occursCheck y (f (f (.var y)))) ∧
      (plain.unify a b .empty).outcome = .done e ∧ ¬ e.Acyclic ∧
      (checked.unify a (.seq [f (.var y)]) .empty).outcome = .clash (.arityMismatch 2 1) ∧
      (plain.unify a (.seq [f (.var y)]) .empty).outcome = .clash (.arityMismatch 2 1) := by
  intro x y f checked a b e
  have hrefused : (checked.unify a b .empty).outcome = .clash (.occursCheck y (f (f (.var y)))) := by
    decide
  have hdone : (plain.unify a b .empty).outcome = .done e := by decide
  have hclash : (checked.unify a (.seq [f (.var y)]) .empty).outcome =
      .clash (.arityMismatch 2 1) := by decide
  obtain ⟨-, -, hcycle⟩ := unify_unchecked checked plain rfl rfl empty acyclic_empty a b
  obtain ⟨hsame, -⟩ :=
    unify_unchecked checked plain rfl rfl empty acyclic_empty a (.seq [f (.var y)])
  exact ⟨acyclic_empty, hrefused, hdone, hcycle y _ hrefused e hdone, hclash,
    (hsame _ hclash (by simp)).2⟩

end Unifier

end TermUnification
