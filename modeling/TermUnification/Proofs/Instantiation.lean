import TermUnification.Proofs.Replacement
import TermUnification.Proofs.Termination

/-! Instantiation without a bound on its depth. It comes to an end exactly when no path of bindings from the
term comes to a cycle, and then leaves fresh variables only. What an environment has made of a term makes no
difference to a larger environment, whether the term is instantiated there or unified. -/
namespace TermUnification

namespace Term

variable (σ : Variable → Term) {t : Term}

theorem alike_subst (h : t.isComposite = true) : Alike t (t.subst σ) := by
  cases t <;> simp_all [isComposite, Alike]

theorem subst_of_atomic (hvar : t.isVar = false) (h : t.isComposite = false) : t.subst σ = t := by
  cases t <;> simp_all [isVar, isComposite]

end Term

namespace Environment
open Relation Term

/-- Instantiation as a recursion. A bound variable becomes what the term bound to it becomes, and every other
term is put together again from what its members become. -/
inductive Unfolds (env : Environment) : Term → Term → Prop
  | fresh {v : Variable} (unbound : env.lookup? v = none) : Unfolds env (var v) (var v)
  | bound {v : Variable} {t i : Term} (binding : env.lookup? v = some t) (rest : Unfolds env t i) :
      Unfolds env (var v) i
  | node {t : Term} {us : List Term} (notVar : t.isVar = false)
      (length : t.members.length = us.length)
      (members : ∀ p ∈ t.members.zip us, Unfolds env p.1 p.2) : Unfolds env t (t.withMembers us)

section Ends

variable {env : Environment} {v : Variable} {t i : Term}

theorem termEnds_var_iff : env.TermEnds (var v) ↔ env.Ends v := by
  simp [TermEnds]

theorem termEnds_subst_iff {σ : Variable → Term} :
    env.TermEnds (t.subst σ) ↔ ∀ v, t.occurs v = true → env.TermEnds (σ v) := by
  constructor
  · intro h v hv w hw
    exact h w ((occurs_subst σ t w).2 ⟨v, hv, hw⟩)
  · intro h w hw
    obtain ⟨v, hv, hvw⟩ := (occurs_subst σ t w).1 hw
    exact h v hv w hvw

/-- What lies ahead of a bound variable lies ahead of the term bound to it. -/
theorem ends_iff_of_bound (hv : env.lookup? v = some t) : env.Ends v ↔ env.TermEnds t := by
  constructor
  · exact fun h w hw => h.edge ⟨t, hv, hw⟩
  · intro h
    apply ends_of_edges
    rintro w ⟨s, hs, hw⟩
    obtain rfl := Option.some.inj (hv.symm.trans hs)
    exact h w hw

/-- A bound variable is instantiated as the term bound to it, or neither can be. -/
theorem instantiate?_of_bound (hv : env.lookup? v = some t) :
    env.instantiate? (var v) = env.instantiate? t := by
  ext i
  rw [instantiate?_eq_some_iff, instantiate?_eq_some_iff, termEnds_var_iff, ends_iff_of_bound hv]
  refine and_congr_right fun h => ?_
  rw [subst_var, value_of_ends ((ends_iff_of_bound hv).2 h) hv]

theorem instantiate?_node {us : List Term} (ht : t.isVar = false)
    (h : List.Forall₂ (fun m u => env.instantiate? m = some u) t.members us) :
    env.instantiate? t = some (t.withMembers us) := by
  rw [instantiate?, traverse_node _ ht, traverseList_eq_some_iff.2 h]
  rfl

/-- The recursion ends with the instance. -/
theorem Unfolds.instantiate? (h : env.Unfolds t i) : env.instantiate? t = some i := by
  induction h with
  | fresh unbound => exact instantiate?_of_lookup?_eq_none unbound
  | bound binding _ ih => rw [instantiate?_of_bound binding, ih]
  | node notVar length _ ih =>
    exact instantiate?_node notVar (List.forall₂_iff_zip.2 ⟨length, fun hp => ih _ hp⟩)

theorem unfolds_subst {σ : Variable → Term} (h : ∀ v, t.occurs v = true → env.Unfolds (var v) (σ v)) :
    env.Unfolds t (t.subst σ) := by
  induction t using nodeInduction with
  | var v => exact h v (by simp)
  | node t ht ih =>
    have hall : List.Forall₂ env.Unfolds t.members (t.members.map (subst σ)) :=
      List.forall₂_map_right_iff.2 <| List.forall₂_same.2 fun m hm =>
        ih m hm fun v hv => h v (occurs_of_member hm hv)
    rw [subst_node σ ht]
    exact .node ht hall.length_eq fun p hp => List.forall₂_zip hall hp

/-- Where no cycle lies ahead of a variable, the recursion reaches the ends of all paths. -/
theorem Ends.unfolds (h : env.Ends v) : env.Unfolds (var v) (env.value v) := by
  induction h using Ends.induction with
  | step v h ih =>
    cases hv : env.lookup? v with
    | none =>
      rw [value_of_fresh hv]
      exact .fresh hv
    | some t =>
      rw [value_of_ends h hv]
      exact .bound hv (unfolds_subst fun w hw => ih w ⟨t, hv, hw⟩)

theorem unfolds_iff : env.Unfolds t i ↔ env.instantiate? t = some i := by
  refine ⟨Unfolds.instantiate?, fun h => ?_⟩
  obtain ⟨hends, rfl⟩ := instantiate?_eq_some_iff.1 h
  exact unfolds_subst fun v hv => (hends v hv).unfolds

end Ends

/-- Instantiation ends exactly when no path of bindings from the term comes to a cycle. The instance has
fresh variables only, and the shape of the term with the instance of each variable in its place. -/
theorem instantiate?_ends (env : Environment) (t : Term) :
    (∀ i, env.Unfolds t i ↔ env.instantiate? t = some i) ∧
    ((∃ i, env.Unfolds t i) ↔
      ∀ v w, t.occurs v = true → ReflTransGen env.Edge v w → ¬ TransGen env.Edge w w) ∧
    (∀ v s, env.lookup? v = some s → env.instantiate? (var v) = env.instantiate? s) ∧
    ∀ i, env.instantiate? t = some i →
      (∀ w, i.occurs w = true → env.isFresh w = true) ∧
      Replaced (fun v x => env.instantiate? (var v) = some x) t i ∧
      (t.isVar = false → t.isComposite = false → i = t) ∧ (t.isComposite = true → Alike t i) := by
  refine ⟨fun i => unfolds_iff, ?_, fun v s hv => instantiate?_of_bound hv, fun i hi => ⟨?_, ?_⟩⟩
  · simp only [unfolds_iff, ← Option.isSome_iff_exists, isSome_instantiate?_iff]
    exact ⟨fun h v w hv => h v hv w, fun h v hv w => h v w hv⟩
  · exact fun w hw => isFresh_iff.2 ((occurs_of_instantiate? hi).1 hw).2
  · obtain ⟨hends, rfl⟩ := instantiate?_eq_some_iff.1 hi
    have hvar : ∀ v x, t.occurs v = true → x = env.value v → env.instantiate? (var v) = some x :=
      fun v x hv hx => instantiate?_eq_some_iff.2 ⟨termEnds_var_iff.2 (hends v hv), hx⟩
    exact ⟨(replaced_subst env.value t).imp hvar, subst_of_atomic env.value, alike_subst env.value⟩

/-- The variable x is bound to [x], and w to f(y). There is no instance of [w, x], and [w, ?, w] has one. -/
theorem instantiate?_ends_beside_cycle :
    let x : Variable := ⟨0⟩
    let y : Variable := ⟨1⟩
    let w : Variable := ⟨3⟩
    let f (t : Term) : Term := .compound "f" [t]
    let env := ofList [(x, .seq [.var x]), (w, f (.var y))]
    let stuck : Term := .seq [.var w, .var x]
    let t : Term := .seq [.var w, .wildcard, .var w]
    let i : Term := .seq [f (.var y), .wildcard, f (.var y)]
    (stuck.occurs x = true ∧ ReflTransGen env.Edge x x ∧ TransGen env.Edge x x ∧
      ¬ ∃ j, env.Unfolds stuck j) ∧
    env.lookup? w = some (f (.var y)) ∧ env.instantiate? (.var w) = env.instantiate? (f (.var y)) ∧
    env.instantiate? t = some i ∧ env.Unfolds t i ∧ (∀ v, i.occurs v = true → env.isFresh v = true) ∧
    Replaced (fun v u => env.instantiate? (.var v) = some u) t i ∧ Alike t i := by
  intro x y w f env stuck t i
  have hx : env.Edge x x := ⟨.seq [.var x], by decide, by decide⟩
  have hw : env.lookup? w = some (f (.var y)) := by decide
  have hi : env.instantiate? t = some i := by decide
  obtain ⟨-, hreturns, -⟩ := instantiate?_ends env stuck
  obtain ⟨hunfolds, -, hbound, hnormal⟩ := instantiate?_ends env t
  obtain ⟨hfresh, hshape, -, halike⟩ := hnormal i hi
  refine ⟨⟨by decide, .refl, .single hx, fun h => ?_⟩, hw, hbound w _ hw, hi, (hunfolds i).2 hi,
    hfresh, hshape, halike rfl⟩
  exact hreturns.1 h x x (by decide) .refl (.single hx)

section Extends

variable {d e : Environment} (h : e.Extends d) {t i : Term}

include h

/-- A variable leads to a cycle of the larger environment if what it stands for does. -/
theorem Extends.ends_iff {v : Variable} (hv : d.Ends v) : e.Ends v ↔ e.TermEnds (d.value v) := by
  -- The induction is along the older bindings, as `e` may have a cycle ahead of the variable.
  induction hv using Ends.induction with
  | step v hv ih =>
    cases hl : d.lookup? v with
    | none => rw [value_of_fresh hl, termEnds_var_iff]
    | some t =>
      rw [value_of_ends hv hl, ends_iff_of_bound (h v t hl), termEnds_subst_iff]
      exact forall₂_congr fun w hw => ih w ⟨t, hl, hw⟩

theorem Extends.termEnds_iff (ht : d.TermEnds t) :
    e.TermEnds t ↔ e.TermEnds (t.subst d.value) := by
  rw [termEnds_subst_iff]
  exact forall₂_congr fun v hv => h.ends_iff (ht v hv)

/-- The larger environment makes the same of an instance as of the term, or comes to a cycle from both. -/
theorem Extends.instantiate?_instance (hi : d.instantiate? t = some i) :
    e.instantiate? i = e.instantiate? t := by
  obtain ⟨hends, rfl⟩ := instantiate?_eq_some_iff.1 hi
  ext j
  rw [instantiate?_eq_some_iff, instantiate?_eq_some_iff, ← h.termEnds_iff hends]
  refine and_congr_right fun ht => ?_
  rw [h.subst_subst_of_ends ht]

end Extends

end Environment

namespace Unifier
open Environment Term

/-- The outcome of a unification depends on the terms through their instances only. -/
theorem unify_outcome_eq (u : Unifier) (a b : Term) (env : Environment) :
    (u.unify a b env).outcome =
      match env.instantiate? a, env.instantiate? b with
      | some a', some b' => (u.proceed env (Step.between a' b')).outcome
      | _, _ => .endless := by
  split
  · next a' b' ha hb => rw [unify_eq u ha hb, reporting_outcome]
  · next hnone =>
    have hstuck : ¬ (env.TermEnds a ∧ env.TermEnds b) := fun ⟨ha, hb⟩ =>
      hnone _ _ (instantiate?_eq_some_iff.2 ⟨ha, rfl⟩) (instantiate?_eq_some_iff.2 ⟨hb, rfl⟩)
    rw [unify_of_not_ends hstuck]
    rfl

/-- Instantiation in an environment is absorbed by a larger one, where unification comes to the same for
two terms as for their instances. Where the larger one has no cycle, all of this ends. -/
theorem unify_snapshot (d e : Environment) (h : e.Extends d) :
    (∀ t i, d.instantiate? t = some i → e.instantiate? i = e.instantiate? t) ∧
    (∀ t i, e.instantiate? t = some i → e.instantiate? i = some i) ∧
    (∀ (u : Unifier) a b i j, d.instantiate? a = some i → d.instantiate? b = some j →
      (u.unify i j e).outcome = (u.unify a b e).outcome) ∧
    (e.Acyclic → (∀ t, (d.instantiate? t).isSome ∧ (e.instantiate? t).isSome) ∧
      ∀ (u : Unifier) a b, u.occursCheck = true → (u.unify a b e).outcome ≠ .endless) := by
  refine ⟨fun t i => h.instantiate?_instance, fun t i hi => ?_, fun u a b i j hi hj => ?_,
    fun he => ⟨fun t => ?_, fun u a b hu => unify_ne_endless hu he⟩⟩
  · rw [(Extends.refl e).instantiate?_instance hi, hi]
  · rw [unify_outcome_eq, unify_outcome_eq, h.instantiate?_instance hi, h.instantiate?_instance hj]
  · rw [isSome_instantiate?_iff, isSome_instantiate?_iff]
    exact ⟨h.termEnds (he.termEnds t), he.termEnds t⟩

/-- The snapshot has x bound to f(y), and y has been bound to [z] since. The variable x is unified with
f([w]), before and after the older instance f(y) has been taken for it. -/
theorem unify_snapshot_chain :
    let x : Variable := ⟨0⟩
    let y : Variable := ⟨1⟩
    let z : Variable := ⟨2⟩
    let w : Variable := ⟨3⟩
    let f (t : Term) : Term := .compound "f" [t]
    let d := ofList [(x, f (.var y))]
    let e := ofList [(x, f (.var y)), (y, .seq [.var z])]
    let e' := ofList [(x, f (.var y)), (y, .seq [.var z]), (z, .var w)]
    let b := f (.seq [.var w])
    let u := plain.withOccursCheck true
    e.Extends d ∧ e.Acyclic ∧ u.occursCheck = true ∧
    d.instantiate? (.var x) = some (f (.var y)) ∧ d.instantiate? b = some b ∧
    e.instantiate? (f (.var y)) = e.instantiate? (.var x) ∧
    e.instantiate? (.var x) = some (f (.seq [.var z])) ∧
    e.instantiate? (f (.seq [.var z])) = some (f (.seq [.var z])) ∧
    (u.unify (.var x) b e).outcome = .done e' ∧ (u.unify (f (.var y)) b e).outcome = .done e' ∧
    (u.unify (.var x) b e).outcome ≠ .endless := by
  intro x y z w f d e e' b u
  have hlater : (u.unify (.var y) (.seq [.var z]) d).outcome = .done e := by decide
  have hrun := (resolves_singleton_iff.2 ⟨hlater, by simp⟩).solves rfl (acyclic_single (by decide))
  obtain ⟨hac, hext⟩ := hrun.acyclic_extends rfl
  have hi : d.instantiate? (.var x) = some (f (.var y)) := by decide
  have hb : d.instantiate? b = some b := by decide
  have hx : e.instantiate? (.var x) = some (f (.seq [.var z])) := by decide
  have hdone : (u.unify (.var x) b e).outcome = .done e' := by decide
  obtain ⟨habsorb, hidem, hunify, hends⟩ := unify_snapshot d e hext
  exact ⟨hext, hac, rfl, hi, hb, habsorb _ _ hi, hx, hidem _ _ hx, hdone,
    (hunify u _ _ _ _ hi hb).trans hdone, (hends hac).2 u _ _ rfl⟩

end Unifier

end TermUnification
