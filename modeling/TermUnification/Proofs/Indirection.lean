import TermUnification.Proofs.Equivariance
import TermUnification.Proofs.Locality
import TermUnification.Proofs.Termination
import TermUnification.Proofs.Wildcard

/-! Two terms can be unified through a fresh variable: it gets bound to the first one and is then unified with
the second. The new binding lies beside everything that the two terms lead to, so the second run is the one
that unifies them directly. -/
namespace TermUnification

/-- On its left side a variable goes with any other term but the wildcard. -/
theorem Step.between_var_left {v : Variable} {t : Term} (ht : t ≠ .wildcard) (hv : t ≠ .var v) :
    between (.var v) t = assign v t := by
  cases t <;> simp_all [between, eq_comm]

namespace Environment
open Term

section Beside

variable {env : Environment} {v : Variable} {t i : Term}

/-- A binding changes nothing for a term that does not lead to its variable. -/
theorem agree_set (h : ¬ env.Reaches t v) (s : Term) : env.Agree (env.set v s) t := by
  intro w hw
  rw [lookup?_set, if_neg]
  rintro rfl
  exact h hw

theorem occurs_eq_false_of_not_reaches (h : ¬ env.Reaches t v) (hi : env.instantiate? t = some i) :
    i.occurs v = false :=
  Bool.eq_false_iff.2 fun hv => h ((occurs_of_instantiate? hi).1 hv).1

/-- What is added both to an environment and beside a new binding leaves the variable of that one fresh. -/
theorem AddsExactly.eq_set {d' e' : Environment} {bs : List Binding} (hv : env.lookup? v = none)
    (left : env.AddsExactly bs d') (right : (env.set v t).AddsExactly bs e') :
    d'.isFresh v = true ∧ e' = d'.set v t := by
  have hother : ∀ b ∈ bs, b.1 ≠ v := by
    rintro ⟨w, s⟩ hb rfl
    simpa using isFresh_iff.1 (right.fresh _ hb)
  have hfresh : d'.lookup? v = none := by
    rw [Option.eq_none_iff_forall_ne_some]
    intro s hs
    rcases (left.lookup v s).1 hs with h | h
    · rw [hv] at h
      cases h
    · exact hother _ h rfl
  refine ⟨isFresh_iff.2 hfresh, ext_lookup? fun w => Option.ext fun s => ?_⟩
  rw [right.lookup, lookup?_set, lookup?_set]
  split
  · next hwv =>
    subst hwv
    exact or_iff_left fun h => hother _ h rfl
  · exact (left.lookup w s).symm

end Beside

end Environment

namespace Unifier
open Environment Term

section Bound

variable {u : Unifier} {env : Environment} {v : Variable} {a b i : Term}

/-- A fresh variable gets bound to the instance of the other term, unless this is the wildcard or holds it. -/
theorem unify_fresh (hv : env.lookup? v = none) (hi : env.instantiate? a = some i)
    (hwild : i ≠ .wildcard) (hoccurs : i.occurs v = false) :
    (u.unify (.var v) a env).outcome = .done (env.set v i) := by
  have hne : i ≠ .var v := by
    rintro rfl
    simp [occurs] at hoccurs
  have step : Step.between (.var v) i = .assign v i := Step.between_var_left hwild hne
  rw [unify_outcome_eq, instantiate?_of_lookup?_eq_none hv, hi]
  simp only [step, proceed, assign, hoccurs, Bool.and_false, Bool.false_eq_true, if_false]
  rw [Step.bind_eq_set step]
  rfl

/-- A variable bound to something with the instance of a term is unified as the term is. -/
theorem unify_bound (hv : env.lookup? v = some i) (hi : env.instantiate? i = env.instantiate? a) :
    (u.unify (.var v) b env).outcome = (u.unify a b env).outcome := by
  rw [unify_outcome_eq, unify_outcome_eq, instantiate?_of_bound hv, hi]

/-- Unification over environments that agree on the operands is endless over both or over none. -/
theorem unify_endless_iff_of_agree {d e : Environment} (ha : d.Agree e a) (hb : d.Agree e b) :
    (u.unify a b d).outcome = .endless ↔ (u.unify a b e).outcome = .endless := by
  constructor
  · intro hd
    by_contra he
    exact (endAlike_unify ha.symm hb.symm he).1 hd
  · intro he
    by_contra hd
    exact (endAlike_unify ha hb hd).1 he

end Bound

/-- Unifying a fresh variable with a term binds it to the instance of the term. Unifying it with another term
afterwards comes to what the two terms come to directly: it is refused for the same reason, or the
environment is the one of the direct unification with the one binding more. With the occurs-check one of
these is the case. -/
theorem unify_through_variable (u : Unifier) (env : Environment) (henv : env.Acyclic)
    (hwild : env.BindsNoWildcard) (v : Variable) (hv : env.isFresh v = true) (a b : Term)
    (ha : a ≠ .wildcard) (hav : ¬ env.Reaches a v) (hbv : ¬ env.Reaches b v) :
    ∃ i, env.instantiate? a = some i ∧ (u.unify (.var v) a env).outcome = .done (env.set v i) ∧
      ((∃ cause, (u.unify a b env).outcome = .clash cause ∧
          (u.unify (.var v) b (env.set v i)).outcome = .clash cause) ∨
        (∃ e, (u.unify a b env).outcome = .done e ∧ e.isFresh v = true ∧
          (u.unify (.var v) b (env.set v i)).outcome = .done (e.set v i)) ∨
        ((u.unify a b env).outcome = .endless ∧
          (u.unify (.var v) b (env.set v i)).outcome = .endless ∧ u.occursCheck = false)) := by
  have hfresh := isFresh_iff.1 hv
  have hi := henv.instantiate?_eq a
  set i := a.subst env.value
  have hoccurs : i.occurs v = false := occurs_eq_false_of_not_reaches hav hi
  have hi_wild : i ≠ .wildcard := fun h => ha ((hwild.instantiate? hi).1 h)
  refine ⟨i, hi, unify_fresh hfresh hi hi_wild hoccurs, ?_⟩
  -- Seen from `a` and `b` the new binding is not there.
  have hagree_a : env.Agree (env.set v i) a := agree_set hav i
  have hagree_b : env.Agree (env.set v i) b := agree_set hbv i
  have hia : (env.set v i).instantiate? i = (env.set v i).instantiate? a := by
    have hagree_i : env.Agree (env.set v i) i := hagree_a.ofInstance hi
    have hii : env.instantiate? i = some i := ((Extends.refl env).instantiate?_instance hi).trans hi
    rw [hagree_i.instantiate? hii, hagree_a.instantiate? hi]
  rw [unify_bound (by simp) hia]
  by_cases hend : (u.unify a b env).outcome = .endless
  · refine .inr (.inr ⟨hend, (unify_endless_iff_of_agree hagree_a hagree_b).1 hend, ?_⟩)
    exact Bool.eq_false_iff.2 fun hu => unify_ne_endless hu henv hend
  · obtain ⟨-, halike⟩ := endAlike_unify hagree_a hagree_b hend
    generalize (u.unify a b env).outcome = x at halike ⊢
    generalize (u.unify a b (env.set v i)).outcome = y at halike ⊢
    cases halike with
    | clash cause => exact .inl ⟨cause, rfl, rfl⟩
    | done left right =>
      obtain ⟨hnew, rfl⟩ := left.eq_set hfresh right
      exact .inr (.inl ⟨_, rfl, hnew, rfl⟩)

/-- The variable x is bound to f(y). Through v it goes with f(z), and not with y. -/
theorem unify_through_variable_chain :
    let x : Variable := ⟨0⟩
    let y : Variable := ⟨1⟩
    let z : Variable := ⟨2⟩
    let v : Variable := ⟨3⟩
    let f (t : Term) : Term := .compound "f" [t]
    let u := plain.withOccursCheck true
    let env := ofList [(x, f (.var y))]
    let e := ofList [(x, f (.var y)), (y, .var z)]
    let refusal : Clash := .occursCheck y (f (.var y))
    env.Acyclic ∧ env.BindsNoWildcard ∧ env.isFresh v = true ∧
      (∀ t ∈ [.var x, .var y, f (.var z)], ¬ env.Reaches t v) ∧
      (u.unify (.var v) (.var x) env).outcome = .done (env.set v (f (.var y))) ∧
      (u.unify (.var x) (f (.var z)) env).outcome = .done e ∧
      (u.unify (.var v) (f (.var z)) (env.set v (f (.var y)))).outcome =
        .done (e.set v (f (.var y))) ∧
      (u.unify (.var x) (.var y) env).outcome = .clash refusal ∧
      (u.unify (.var v) (.var y) (env.set v (f (.var y)))).outcome = .clash refusal := by
  intro x y z v f u env e refusal
  have henv : env.Acyclic := acyclic_single (by decide)
  have hwild : env.BindsNoWildcard := bindsNoWildcard_empty.set (fun h => by cases h) x
  have hreach : ∀ t ∈ [.var x, .var y, f (.var z)], ¬ env.Reaches t v :=
    fun t ht => not_reaches (by revert t; decide) (by decide)
  have hdone : (u.unify (.var x) (f (.var z)) env).outcome = .done e := by decide
  have hclash : (u.unify (.var x) (.var y) env).outcome = .clash refusal := by decide
  obtain ⟨i, hi, hbind, hfirst⟩ := unify_through_variable u env henv hwild v (by decide) (.var x)
    (f (.var z)) (fun h => by cases h) (hreach _ (by simp)) (hreach _ (by simp))
  obtain ⟨j, hj, -, hsecond⟩ := unify_through_variable u env henv hwild v (by decide) (.var x)
    (.var y) (fun h => by cases h) (hreach _ (by simp)) (hreach _ (by simp))
  have hinstance : env.instantiate? (.var x) = some (f (.var y)) := by decide
  obtain rfl := Option.some.inj (hi.symm.trans hinstance)
  obtain rfl := Option.some.inj (hj.symm.trans hinstance)
  refine ⟨henv, hwild, by decide, hreach, hbind, hdone, ?_, hclash, ?_⟩
  · obtain ⟨_, h, -⟩ | ⟨_, h, -, h'⟩ | ⟨h, -⟩ := hfirst
    · cases hdone.symm.trans h
    · obtain rfl := Outcome.done.inj (hdone.symm.trans h)
      exact h'
    · cases hdone.symm.trans h
  · obtain ⟨_, h, h'⟩ | ⟨_, h, -⟩ | ⟨h, -⟩ := hsecond
    · rw [h', ← h, hclash]
    · cases hclash.symm.trans h
    · cases hclash.symm.trans h

end Unifier

end TermUnification
