import TermUnification.Environment.Rename
import TermUnification.Proofs.Instantiation

/-! The wildcard is never bound. Every operation on environments leaves out a binding to it or has another
term at hand, so no path of bindings ends at the wildcard: a term is instantiated to it only if it has been
the wildcard all along. Parts of bound terms may well be wildcards. -/
namespace TermUnification

theorem Term.isWildcard_iff {t : Term} : t.isWildcard = true ↔ t = .wildcard := by
  cases t <;> simp [isWildcard]

namespace Step
open Term

@[simp] theorem between_wildcard_right (a : Term) : between a wildcard = settled := by
  cases a <;> rfl

end Step

namespace Environment
open Term

/-- Is no variable bound to the wildcard? -/
def BindsNoWildcard (env : Environment) : Prop := ∀ v, env.lookup? v ≠ some wildcard

theorem bindsNoWildcard_empty : empty.BindsNoWildcard := fun v h => by simp at h

namespace BindsNoWildcard

variable {env : Environment} (henv : env.BindsNoWildcard)

include henv

theorem set {t : Term} (ht : t ≠ wildcard) (v : Variable) : (env.set v t).BindsNoWildcard := by
  intro w
  rw [lookup?_set]
  split
  · exact fun h => ht (Option.some.inj h)
  · exact henv w

theorem bind (v : Variable) (t : Term) : (env.bind v t).BindsNoWildcard := by
  rw [Environment.bind]
  split
  · exact henv
  · next ht =>
    refine henv.set ?_ v
    rintro rfl
    exact ht rfl

theorem extend (bs : List Binding) : (env.extend bs).BindsNoWildcard := by
  induction bs generalizing env with
  | nil => exact henv
  | cons b bs ih => exact ih (henv.bind b.1 b.2)

/-- Chains of bindings never end at the wildcard. -/
theorem unfolds {t i : Term} (h : env.Unfolds t i) : i = wildcard ↔ t = wildcard := by
  induction h with
  | fresh => simp
  | @bound v t i binding _ ih =>
    have ht : t ≠ wildcard := fun he => henv v (he ▸ binding)
    simp [ih, ht]
  | @node t us notVar _ _ _ => cases t <;> simp_all [isVar, withMembers]

theorem instantiate? {t i : Term} (h : env.instantiate? t = some i) :
    i = wildcard ↔ t = wildcard :=
  henv.unfolds (unfolds_iff.2 h)

end BindsNoWildcard

/-- The replacement of a variable binds it to a new variable, if at all. -/
theorem BindsNoWildcard.replace {v : Variable} {r r' : Renaming} {x : Term} (hr : r.env.BindsNoWildcard)
    (h : (Renaming.replace v).run r = some (x, r')) : r'.env.BindsNoWildcard := by
  simp only [Renaming.replace, StateT.run] at h
  split at h
  · obtain ⟨i, -, he⟩ := Option.map_eq_some_iff.1 h
    obtain ⟨-, rfl⟩ := Prod.mk.inj he
    exact hr
  · obtain ⟨-, rfl⟩ := Prod.mk.inj (Option.some.inj h)
    exact hr.set (by simp) v

theorem BindsNoWildcard.rename? {env : Environment} (henv : env.BindsNoWildcard) {names : Names}
    {t r : Term} {s : Renaming} (hr : env.rename? names t = some (r, s)) : s.env.BindsNoWildcard :=
  (replaced_of_traverse (R := fun _ _ => True) (I := fun r => r.env.BindsNoWildcard)
    (fun _ _ _ _ hI hx => ⟨trivial, hI.replace hx⟩) henv hr).2

/-- The environments that any sequence of operations comes to, with any arguments and any unifier. -/
inductive Built : Environment → Prop
  | empty : Built empty
  | ofList (bs : List Binding) : Built (ofList bs)
  | extend {env : Environment} (h : Built env) (bs : List Binding) : Built (env.extend bs)
  | bind {env : Environment} (h : Built env) (v : Variable) (t : Term) : Built (env.bind v t)
  | rename {env : Environment} {names : Names} {t r : Term} {s : Renaming} (h : Built env)
      (done : env.rename? names t = some (r, s)) : Built s.env
  | unify {env e : Environment} {u : Unifier} {a b : Term} (h : Built env)
      (done : (u.unify a b env).outcome = .done e) : Built e
  | unifyAll {env e : Environment} {u : Unifier} {ps : List (Term × Term)} (h : Built env)
      (done : (u.unifyAll ps env).outcome = .done e) : Built e

end Environment

namespace Unifier
open Environment Term

theorem Resolves.bindsNoWildcard {u : Unifier} {ps : List (Term × Term)} {env e : Environment}
    {out : Outcome Environment} (h : Resolves u ps env out) (hout : out = .done e)
    (henv : env.BindsNoWildcard) : e.BindsNoWildcard := by
  induction h with
  | nil =>
    obtain rfl := Outcome.done.inj hout
    exact henv
  | settled _ _ _ _ ih => exact ih hout henv
  | assign _ _ _ _ _ ih => exact ih hout (henv.bind _ _)
  | members _ _ _ _ ih => exact ih hout henv
  | occurs => cases hout
  | clash => cases hout

end Unifier

namespace Environment

theorem Built.bindsNoWildcard {env : Environment} (h : env.Built) : env.BindsNoWildcard := by
  induction h with
  | empty => exact bindsNoWildcard_empty
  | ofList bs => exact bindsNoWildcard_empty.extend bs
  | extend _ bs ih => exact ih.extend bs
  | bind _ v t ih => exact ih.bind v t
  | rename _ done ih => exact ih.rename? done
  | unify _ done ih => exact (Unifier.resolves_singleton_iff.2 ⟨done, by simp⟩).bindsNoWildcard rfl ih
  | unifyAll _ done ih => exact (Unifier.resolves_of_unifyAll done).bindsNoWildcard rfl ih

end Environment

namespace Unifier
open Environment Term

/-- No sequence of operations binds a variable to the wildcard. So a term is instantiated to the wildcard only
if it is the wildcard, and two other terms are never settled on its account. A term that can be instantiated,
a bound variable no less than a fresh one, is unified with the wildcard without any new binding. -/
theorem wildcard_never_bound (env : Environment) (h : env.Built) :
    (∀ v, env.lookup? v ≠ some wildcard) ∧
    (∀ t i, env.instantiate? t = some i → (i = wildcard ↔ t = wildcard)) ∧
    (∀ (u : Unifier) a b a' b', a ≠ wildcard → b ≠ wildcard →
      env.instantiate? a = some a' → env.instantiate? b = some b' →
      u.unify a b env = u.reporting a b (u.proceed env (Step.between a' b')) ∧
      a' ≠ wildcard ∧ b' ≠ wildcard) ∧
    ∀ (u : Unifier) t, (u.unify t wildcard env).outcome =
      if (env.instantiate? t).isSome then .done env else .endless := by
  have henv := h.bindsNoWildcard
  refine ⟨henv, fun t i hi => henv.instantiate? hi, fun u a b a' b' ha hb hai hbi => ?_, fun u t => ?_⟩
  · exact ⟨unify_eq u hai hbi, mt (henv.instantiate? hai).1 ha, mt (henv.instantiate? hbi).1 hb⟩
  · rw [unify_outcome_eq, instantiate?_wildcard]
    cases env.instantiate? t with
    | none => rfl
    | some i => simp [proceed]

/-- From x bound to y, and y to nothing as the wildcard is left out, y gets bound to [?]. Then x is unified
with the wildcard, and with [1], where the wildcard inside goes with 1. -/
theorem wildcard_never_bound_chain :
    let x : Variable := ⟨0⟩
    let y : Variable := ⟨1⟩
    let env := ofList [(x, .var y), (y, .seq [.wildcard])]
    let b : Term := .seq [.int 1]
    let i : Term := .seq [.wildcard]
    ofList [(x, .var y), (y, .wildcard)] = ofList [(x, .var y)] ∧ env.Built ∧
    env.lookup? y ≠ some wildcard ∧ env.instantiate? (.var x) = some i ∧
    (i = wildcard ↔ Term.var x = wildcard) ∧
    plain.unify (.var x) b env = plain.reporting (.var x) b (plain.proceed env (Step.between i b)) ∧
    (plain.unify (.var x) wildcard env).outcome = .done env := by
  intro x y env b i
  have hempty : ofList [(x, .var y), (y, .wildcard)] = ofList [(x, .var y)] := rfl
  have hdone : (plain.unify (.var x) i (ofList [(x, .var y)])).outcome = .done env := by decide
  have hbuilt : env.Built := (Built.ofList _).unify hdone
  have hi : env.instantiate? (.var x) = some i := by decide
  have hb : env.instantiate? b = some b := by decide
  obtain ⟨hnone, hinst, hunify, hwild⟩ := wildcard_never_bound env hbuilt
  refine ⟨hempty, hbuilt, hnone y, hi, hinst _ _ hi, ?_, ?_⟩
  · exact (hunify plain _ _ _ _ (by simp) (by simp [b]) hi hb).1
  · rw [hwild, hi]
    rfl

end Unifier

end TermUnification
