import TermUnification.Proofs.Settled

/-! Terms without variables. Every environment instantiates such a term in the same way, so unification of
two of them is a comparison, which either finds nothing to be done or clashes. It binds nothing, and it is
the same in every environment and for every unifier. -/
namespace TermUnification

namespace Term

/-- No variable occurs in the term. -/
def Closed (t : Term) : Prop := ∀ v, t.occurs v = false

section Closed

variable {a b t m : Term}

theorem closed_iff_occurrences : t.Closed ↔ t.occurrences.isEmpty = true := by
  rw [List.isEmpty_iff, List.eq_nil_iff_forall_not_mem]
  simp [Closed, mem_occurrences]

instance (t : Term) : Decidable t.Closed := decidable_of_iff _ closed_iff_occurrences.symm

theorem Closed.isVar_eq_false (h : t.Closed) : t.isVar = false := by
  cases t with
  | var v => simpa [occurs] using h v
  | _ => rfl

theorem Closed.member (h : t.Closed) (hm : m ∈ t.members) : m.Closed := fun v =>
  Bool.eq_false_iff.2 fun hv => by simpa [h v] using occurs_of_member hm hv

theorem closed_of_members (ht : t.isVar = false) (h : ∀ m ∈ t.members, m.Closed) : t.Closed := by
  intro v
  rw [Bool.eq_false_iff]
  intro hv
  obtain ⟨m, hm, hmv⟩ := (occurs_node ht v).1 hv
  simp [h m hm v] at hmv

theorem closed_of_isGround (h : t.isGround = true) : t.Closed := by
  induction t using nodeInduction with
  | var v => simp [isGround] at h
  | node t ht ih =>
    refine closed_of_members ht fun m hm => ih m hm ?_
    rw [isGround_of_isComposite (isComposite_of_mem hm), List.all_eq_true] at h
    exact h m hm

theorem Closed.subst (h : t.Closed) (σ : Variable → Term) : (t.subst σ).Closed := by
  intro v
  rw [Bool.eq_false_iff]
  intro hv
  obtain ⟨w, hw, -⟩ := (occurs_subst σ t v).1 hv
  simp [h w] at hw

theorem Closed.instantiate? (h : t.Closed) (env : Environment) :
    env.instantiate? t = some (t.subst .var) :=
  traverse_eq_some fun v hv => by simp [h v] at hv

theorem between_subst_settled_iff (ha : a.isVar = false) (hb : b.isVar = false)
    (σ τ : Variable → Term) :
    Step.between (a.subst σ) (b.subst τ) = .settled ↔ Step.between a b = .settled := by
  cases a <;> cases b <;> simp_all [isVar, Step.between, ite_eq_iff]

theorem alike_subst_iff (ha : a.isVar = false) (hb : b.isVar = false) (σ τ : Variable → Term) :
    Alike (a.subst σ) (b.subst τ) ↔ Alike a b := by
  cases a <;> cases b <;> simp_all [isVar, Alike]

theorem sameArity_subst_iff (ha : a.isVar = false) (hb : b.isVar = false)
    (σ τ : Variable → Term) : SameArity (a.subst σ) (b.subst τ) ↔ SameArity a b := by
  cases a <;> cases b <;> simp_all [isVar, SameArity]

/-- Putting closed terms together anew neither settles nor unsettles them. -/
theorem settled_subst_iff (ha : a.Closed) (hb : b.Closed) (σ τ : Variable → Term) :
    Settled (a.subst σ) (b.subst τ) ↔ Settled a b := by
  induction a using memberInduction generalizing b with
  | step a ih =>
    have hav := ha.isVar_eq_false
    have hbv := hb.isVar_eq_false
    have hmembers : (∀ p ∈ (a.subst σ).members.zip (b.subst τ).members, Settled p.1 p.2) ↔
        ∀ p ∈ a.members.zip b.members, Settled p.1 p.2 := by
      rw [members_subst σ hav, members_subst τ hbv, List.zip_map, List.forall_mem_map]
      refine forall₂_congr fun p hp => ?_
      obtain ⟨h1, h2⟩ := List.of_mem_zip hp
      exact ih p.1 h1 (ha.member h1) (hb.member h2)
    rw [settled_iff, settled_iff (a := a), between_subst_settled_iff hav hbv,
      alike_subst_iff hav hbv, sameArity_subst_iff hav hbv, hmembers]

end Closed

end Term

namespace Unifier
open Term Environment

variable {u : Unifier} {env : Environment} {a b : Term}

/-- Unification has either left the environment as it was or ended in a clash. -/
def Compares (env : Environment) (x : Attempt Environment) : Prop :=
  x.outcome = .done env ∨ ∃ cause, x.outcome = .clash cause

theorem Compares.succeeds_iff {x : Attempt Environment} (h : Compares env x) :
    x.succeeds = true ↔ x.outcome = .done env := by
  rcases h with h | ⟨cause, h⟩ <;> simp [Attempt.succeeds, h]

theorem Compares.test_outcome {x : Attempt Environment} (h : Compares env x) :
    x.test.outcome = .done x.succeeds := by
  rcases h with h | ⟨cause, h⟩ <;> simp [Attempt.test, Attempt.succeeds, h]

theorem compares_unifyAll {ps : List (Term × Term)}
    (h : ∀ p ∈ ps, Compares env (u.unify p.1 p.2 env)) : Compares env (u.unifyAll ps env) := by
  induction ps with
  | nil => exact .inl rfl
  | cons p ps ih =>
    obtain ⟨hp, hps⟩ := List.forall_mem_cons.1 h
    rw [Compares, unifyAll, foldlM_cons_outcome]
    rcases hp with hp | ⟨cause, hp⟩
    · rw [hp]
      exact ih hps
    · exact .inr ⟨cause, by rw [hp]⟩

/-- Where two terms have closed instances, unification compares these. -/
theorem compares_of_instances {a' b' : Term} (ha : env.instantiate? a = some a')
    (hb : env.instantiate? b = some b') (hac : a'.Closed) (hbc : b'.Closed) :
    Compares env (u.unify a b env) := by
  -- On the instance and not on the term: the calls for members are about members of instances, which
  -- stand for themselves in the same environment, since nothing has been bound.
  induction a' using memberInduction generalizing a b b' with
  | step a' ih =>
    rw [Compares, unify_eq u ha hb, reporting_outcome]
    cases step : Step.between a' b' with
    | settled => exact .inl rfl
    | assign v t =>
      obtain ⟨⟨rfl, -⟩ | ⟨-, rfl⟩, -, -⟩ := Step.between_assign step
      · simpa [isVar] using hac.isVar_eq_false
      · simpa [isVar] using hbc.isVar_eq_false
    | members qs =>
      obtain ⟨-, -, rfl⟩ := Step.between_members step
      refine compares_unifyAll fun p hp => ?_
      obtain ⟨h1, h2⟩ := List.of_mem_zip hp
      exact ih p.1 h1 (instantiate?_member ha h1) (instantiate?_member hb h2) (hac.member h1)
        (hbc.member h2)
    | clash cause => exact .inr ⟨cause, rfl⟩

section ClosedTerms

variable (u : Unifier) (env : Environment) (ha : a.Closed) (hb : b.Closed)

include ha hb

theorem compares_of_closed : Compares env (u.unify a b env) :=
  compares_of_instances (ha.instantiate? env) (hb.instantiate? env) (ha.subst _) (hb.subst _)

/-- Closed terms unify when they are settled. -/
theorem succeeds_iff_settled : (u.unify a b env).succeeds = true ↔ Settled a b := by
  rw [(compares_of_closed u env ha hb).succeeds_iff,
    unify_unchanged_iff (ha.instantiate? env) (hb.instantiate? env), settled_subst_iff ha hb]

end ClosedTerms

end Unifier

end TermUnification
