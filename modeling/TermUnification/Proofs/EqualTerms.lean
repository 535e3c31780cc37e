import TermUnification.Proofs.Settled

/-! What structural equality means for instances and for unification. Terms that are equal to anything are the
ones without a value that is no number. Equal terms have equal instances, and these are settled where composites
state their true arities, although equality compares tags and arguments, and unification stated arities, and
numbers by value. -/
namespace TermUnification

namespace Term

section Same

variable {a b : Term}

/-- Equal terms stay equal when equal terms are put in place of their variables. -/
theorem Same.subst (h : Same a b) {σ τ : Variable → Term}
    (hστ : ∀ v, a.occurs v = true → Same (σ v) (τ v)) : Same (a.subst σ) (b.subst τ) := by
  induction a using memberInduction generalizing b with
  | step a ih =>
    rcases h.cases with ⟨v, rfl, rfl⟩ | ⟨rfl, rfl⟩ | ⟨s, t, rfl, rfl, -⟩ | ⟨halike, hm⟩
    · exact hστ v (by simp)
    · exact h
    · exact h
    · rw [same_iff_of_alike (halike.subst σ τ), members_subst σ halike.isVar_eq_false,
        members_subst τ halike.symm.isVar_eq_false, List.forall₂_map_left_iff,
        List.forall₂_map_right_iff]
      exact forall₂_imp (fun m hmem _ hsame =>
        ih m hmem hsame fun v hv => hστ v (occurs_of_member hmem hv)) hm

/-- Nothing is left to be done about equal terms that state their true arities. -/
theorem Same.settled (h : Same a b) (ha : a.Every hasTrueArity) (hb : b.Every hasTrueArity) :
    Settled a b := by
  induction a using memberInduction generalizing b with
  | step a ih =>
    rcases h.cases with ⟨v, rfl, rfl⟩ | ⟨rfl, rfl⟩ | ⟨s, t, rfl, rfl, hst⟩ | ⟨halike, hm⟩
    · exact .head (by simp [Step.between])
    · exact .head rfl
    · exact .head (by simp [Step.between, Scalar.agrees_of_beq hst])
    · have harity : SameArity a b := (sameArity_iff halike ha.head hb.head).2 hm.length_eq
      refine .members halike harity fun p hp => ?_
      obtain ⟨h1, h2⟩ := List.of_mem_zip hp
      exact ih p.1 h1 (List.forall₂_zip hm hp) (ha.member h1) (hb.member h2)

end Same

end Term

namespace Environment
open Term

/-- Where no bound term holds a value that is no number, every variable stands for a term that equals itself. -/
theorem Every.same_value {env : Environment} (h : env.Every notNaN) (henv : env.Acyclic) (v : Variable) :
    Same (env.value v) (env.value v) :=
  same_self_iff.2 (h.value headTest_notNaN (henv.ends v))

end Environment

namespace Unifier
open Term Environment

/-- Structural equality is symmetric and transitive, and it is reflexive on the terms that hold no value that is
no number. In an environment that holds no such value either, equal terms have equal instances, equal terms
of true arities unify without a new binding, and every term that equals itself unifies so with itself. -/
theorem unify_of_equal :
    (∀ a b : Term, (a == b) = true → (b == a) = true) ∧
    (∀ a b c : Term, (a == b) = true → (b == c) = true → (a == c) = true) ∧
    (∀ t : Term, (t == t) = true ↔ ∀ s ∈ t.parts, s.isNaN = false) ∧
    ∀ env : Environment, env.Acyclic → (∀ s ∈ env.parts, s.isNaN = false) →
      (∀ a b : Term, (a == b) = true → ∃ a' b', env.instantiate? a = some a' ∧
        env.instantiate? b = some b' ∧ (a' == b') = true) ∧
      (∀ (u : Unifier) (a b : Term), (a == b) = true →
        (∀ s ∈ a.parts ++ b.parts ++ env.parts, s.hasTrueArity = true) →
        (u.unify a b env).outcome = .done env) ∧
      ∀ (u : Unifier) (t : Term), (∀ s ∈ t.parts, s.isNaN = false) →
        (u.unify t t env).outcome = .done env := by
  have hself (t : Term) : Same t t ↔ ∀ s ∈ t.parts, s.isNaN = false :=
    same_self_iff.trans every_notNaN_iff
  refine ⟨fun a b => Same.symm, fun a b c => Same.trans, hself, fun env henv hnan => ?_⟩
  have he : env.Every notNaN := fun s hs => by simp [notNaN, hnan s hs]
  have hinstances {a b : Term} (h : Same a b) : Same (a.subst env.value) (b.subst env.value) :=
    h.subst fun v _ => he.same_value henv v
  have hvalue := henv.instantiate?_eq
  refine ⟨fun a b h => ⟨_, _, hvalue a, hvalue b, hinstances h⟩, fun u a b h harity => ?_,
    fun u t ht => ?_⟩
  · have ha : a.Every hasTrueArity := fun s hs => harity s (by simp [hs])
    have hb : b.Every hasTrueArity := fun s hs => harity s (by simp [hs])
    have harities : env.Every hasTrueArity := fun s hs => harity s (by simp [hs])
    exact unify_of_settled (hvalue a) (hvalue b) <| (hinstances h).settled
      (harities.subst_value headTest_hasTrueArity henv ha)
      (harities.subst_value headTest_hasTrueArity henv hb)
  · have hi : Same (t.subst env.value) (t.subst env.value) := hinstances ((hself t).2 ht)
    exact unify_of_settled (hvalue t) (hvalue t) (settled_self (same_self_iff.1 hi))

/-- A foreign composite equals a compound term, and minus zero plus zero, in a map under a bound variable. The
term f(x) in a composite that states a wrong arity unifies with itself all the same. -/
theorem unify_of_equal_foreign :
    let x : Variable := ⟨0⟩
    let y : Variable := ⟨1⟩
    let float (bits : UInt64) : Term := .scalar (.float ⟨bits⟩)
    let env := ofList [(x, .seq [float 0, .var y])]
    let a : Term := .map [(.var x, .compound "f" [.var x, float 0, .wildcard])]
    let b : Term := .map [(.var x,
      .composite (.foreign "f" (some 3) false) [.var x, float 0x8000000000000000, .wildcard])]
    let t : Term := .composite (.foreign "g" (some 7) false) [.compound "f" [.var x]]
    let u := plain.withOccursCheck true
    env.Acyclic ∧ (∀ s ∈ env.parts, s.isNaN = false) ∧ (a == b) = true ∧ a ≠ b ∧
      (∀ s ∈ a.parts ++ b.parts ++ env.parts, s.hasTrueArity = true) ∧
      (∀ s ∈ t.parts, s.isNaN = false) ∧ (b == a) = true ∧ (a == a) = true ∧
      (∃ a' b', env.instantiate? a = some a' ∧ env.instantiate? b = some b' ∧ (a' == b') = true) ∧
      (u.unify a b env).outcome = .done env ∧ (u.unify t t env).outcome = .done env := by
  intro x y float env a b t u
  have henv : env.Acyclic := acyclic_single (by decide)
  have hnan : ∀ s ∈ env.parts, s.isNaN = false := by decide
  have hab : (a == b) = true := by decide
  have harity : ∀ s ∈ a.parts ++ b.parts ++ env.parts, s.hasTrueArity = true := by decide
  have ht : ∀ s ∈ t.parts, s.isNaN = false := by decide
  obtain ⟨hsymm, htrans, -, henvs⟩ := unify_of_equal
  obtain ⟨hinstances, hunify, hself⟩ := henvs env henv hnan
  exact ⟨henv, hnan, hab, by decide, harity, ht, hsymm a b hab, htrans a b a hab (hsymm a b hab),
    hinstances a b hab, hunify u a b hab harity, hself u t ht⟩

end Unifier

end TermUnification
