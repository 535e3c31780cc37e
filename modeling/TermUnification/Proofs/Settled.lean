import Mathlib.Data.List.Zip
import TermUnification.Proofs.Extension
import TermUnification.Proofs.Matching

/-! Pairs of terms about which nothing is left to be done. For these, and for no others, unification
returns the environment that it was given. Two terms that match are settled unless they hold values that
are no numbers, so an equation that has been solved is settled from then on. -/
namespace TermUnification

namespace Term

/-- Nothing is left to be done about the two terms, neither at their heads nor inside. -/
inductive Settled : Term → Term → Prop
  | head {a b : Term} (step : Step.between a b = .settled) : Settled a b
  | members {a b : Term} (alike : Alike a b) (arity : SameArity a b)
      (all : ∀ p ∈ a.members.zip b.members, Settled p.1 p.2) : Settled a b

section Settled

variable {a b : Term}

/-- Two terms are settled at their heads, or they are alike and their members are settled. -/
theorem settled_iff : Settled a b ↔ Step.between a b = .settled ∨
    (Alike a b ∧ SameArity a b ∧ ∀ p ∈ a.members.zip b.members, Settled p.1 p.2) := by
  constructor
  · intro h
    cases h with
    | head step => exact .inl step
    | members alike arity all => exact .inr ⟨alike, arity, all⟩
  · rintro (step | ⟨alike, arity, all⟩)
    · exact .head step
    · exact .members alike arity all

theorem settled_scalars_iff {s t : Scalar} :
    Settled (scalar s) (scalar t) ↔ s.agrees t = true := by
  rw [settled_iff]
  simp [Alike, Step.between]

theorem SameArity.symm (h : SameArity a b) : SameArity b a := by
  cases a <;> cases b <;> simp_all [SameArity]

theorem Settled.symm (h : Settled a b) : Settled b a := by
  induction h with
  | @head a b step =>
    refine .head ?_
    rcases Step.between_settled step with rfl | rfl | ⟨v, rfl, rfl⟩ | ⟨s, t, rfl, rfl, hst⟩
    · cases b <;> simp [Step.between]
    · simp [Step.between]
    · simp [Step.between]
    · simp [Step.between, Scalar.agrees_comm t s, hst]
  | @members a b alike arity _ ih =>
    refine .members alike.symm arity.symm fun p hp => ih p.swap ?_
    rw [← List.zip_swap] at hp
    obtain ⟨q, hq, rfl⟩ := List.mem_map.1 hp
    exact hq

end Settled

end Term

namespace Step
open Term

theorem between_of_alike {a b : Term} (h : Alike a b) (harity : SameArity a b) :
    between a b = members (a.members.zip b.members) := by
  cases a <;> cases b <;> simp_all [Alike, SameArity, between]

end Step

namespace Term

theorem sameArity_self {t : Term} (h : t.isComposite = true) : SameArity t t := by
  cases t <;> simp_all [SameArity, isComposite]

theorem between_self {t : Term} (hc : t.isComposite = false) (ht : t.notNaN = true) :
    Step.between t t = .settled := by
  cases t <;> simp_all [isComposite, Step.between, notNaN, isNaN]
  exact Scalar.agrees_of_beq (by simp [ht])

/-- A term that holds no value that is no number goes with itself. -/
theorem settled_self {t : Term} (h : t.Every notNaN) : Settled t t := by
  induction t using memberInduction with
  | step t ih =>
    cases hc : t.isComposite with
    | true =>
      have hall : List.Forall₂ Settled t.members t.members :=
        List.forall₂_same.2 fun m hm => ih m hm (h.member hm)
      exact .members (alike_self hc) (sameArity_self hc) fun p hp => List.forall₂_zip hall hp
    | false => exact .head (between_self hc h.head)

theorem settled_of_members {a b : Term} (ha : a.Every notNaN) (hb : b.Every notNaN)
    (halike : Alike a b) (harity : SameArity a b)
    (h : ∀ p ∈ a.members.zip b.members, p.1.Every notNaN → p.2.Every notNaN →
      Settled p.1 p.2) : Settled a b := by
  refine .members halike harity fun p hp => ?_
  obtain ⟨h1, h2⟩ := List.of_mem_zip hp
  exact h p hp (ha.member h1) (hb.member h2)

/-- Where no value is no number, matching leaves nothing to be done. -/
theorem Matches.settled {a b : Term} (h : Matches a b) (ha : a.Every notNaN)
    (hb : b.Every notNaN) : Settled a b := by
  induction h with
  | wildcardLeft t => exact .head (by simp [Step.between])
  | wildcardRight t => exact .head (by cases t <;> simp [Step.between])
  | refl t => exact settled_self ha
  | scalars agree => exact .head (by simp [Step.between, agree])
  | seq size _ ih => exact settled_of_members (a := .seq _) (b := .seq _) ha hb trivial size ih
  | map size _ ih => exact settled_of_members (a := .map _) (b := .map _) ha hb trivial size ih
  | composite tag arity _ ih =>
    exact settled_of_members (a := .composite _ _) (b := .composite _ _) ha hb tag arity ih

end Term

namespace Unifier
open Term Environment

section Unchanged

variable {u : Unifier} {env : Environment} {a b a' b' : Term} {ps : List (Term × Term)}

theorem unifyAll_unchanged (h : ∀ p ∈ ps, (u.unify p.1 p.2 env).outcome = .done env) :
    (u.unifyAll ps env).outcome = .done env := by
  induction ps with
  | nil => rfl
  | cons p ps ih =>
    obtain ⟨hp, hps⟩ := List.forall_mem_cons.1 h
    rw [unifyAll, foldlM_cons_outcome, hp]
    exact ih hps

theorem unify_of_settled (ha : env.instantiate? a = some a') (hb : env.instantiate? b = some b')
    (h : Settled a' b') : (u.unify a b env).outcome = .done env := by
  induction h generalizing a b with
  | head step =>
    rw [unify_eq u ha hb, reporting_outcome, step]
    rfl
  | @members a' b' alike arity _ ih =>
    have hall : (u.unifyAll (a'.members.zip b'.members) env).outcome = .done env := by
      refine unifyAll_unchanged fun p hp => ?_
      obtain ⟨h1, h2⟩ := List.of_mem_zip hp
      exact ih p hp (instantiate?_member ha h1) (instantiate?_member hb h2)
    rw [unify_eq u ha hb, reporting_outcome, Step.between_of_alike alike arity]
    exact hall

/-- A run that ends where it began has bound nothing, so there was nothing to be done. -/
theorem Resolves.settled_of_unchanged {e : Environment} {out : Outcome Environment}
    (h : Resolves u ps env out) (hout : out = .done e) (he : e = env) :
    ∀ p ∈ ps, ∀ a' b', env.instantiate? p.1 = some a' → env.instantiate? p.2 = some b' →
      Settled a' b' := by
  -- A binding would be there at the end, but its variable was fresh at the beginning.
  induction h with
  | nil => simp
  | settled ha hb step _ ih =>
    refine List.forall_mem_cons.2 ⟨fun x y hx hy => ?_, ih hout he⟩
    obtain rfl := Option.some.inj (ha.symm.trans hx)
    obtain rfl := Option.some.inj (hb.symm.trans hy)
    exact .head step
  | @assign env a b a' b' v t ps out ha hb step check rest ih =>
    rw [Step.bind_eq_set step] at rest
    have hv := rest.extends hout v t (by simp)
    rw [he, (new_of_assign ha hb step).1] at hv
    cases hv
  | @members env a b a' b' qs ps out ha hb step _ ih =>
    obtain ⟨halike, harity, rfl⟩ := Step.between_members step
    obtain ⟨hqs, hps⟩ := List.forall_mem_append.1 (ih hout he)
    refine List.forall_mem_cons.2 ⟨fun x y hx hy => ?_, hps⟩
    obtain rfl := Option.some.inj (ha.symm.trans hx)
    obtain rfl := Option.some.inj (hb.symm.trans hy)
    refine .members halike harity fun p hp => ?_
    obtain ⟨h1, h2⟩ := List.of_mem_zip hp
    exact hqs p hp _ _ (instantiate?_member ha h1) (instantiate?_member hb h2)
  | occurs => cases hout
  | clash => cases hout

/-- Unification returns the environment that it was given exactly when the two instances are settled. -/
theorem unify_unchanged_iff (ha : env.instantiate? a = some a')
    (hb : env.instantiate? b = some b') :
    (u.unify a b env).outcome = .done env ↔ Settled a' b' := by
  constructor
  · intro h
    have hrun : Resolves u [(a, b)] env (.done env) := resolves_singleton_iff.2 ⟨h, by simp⟩
    exact hrun.settled_of_unchanged rfl rfl (a, b) (by simp) a' b' ha hb
  · exact unify_of_settled ha hb

end Unchanged

/-- What has been unified once is unified in every later environment, without a further binding. -/
theorem Solves.stays_settled {ps : List (Term × Term)} {env e d : Environment}
    (h : Solves ps env (.done e)) (hd : d.Acyclic) (hext : d.Extends e) (hnan : d.Every notNaN)
    (hps : ∀ p ∈ ps, p.1.Every notNaN ∧ p.2.Every notNaN) :
    ∀ p ∈ ps, Settled (p.1.subst d.value) (p.2.subst d.value) := by
  intro p hp
  obtain ⟨h1, h2⟩ := hps p hp
  have hmatch := (h.matches rfl p hp).subst d.value
  rw [hext.subst_subst hd, hext.subst_subst hd] at hmatch
  exact hmatch.settled (hnan.subst_value headTest_notNaN hd h1)
    (hnan.subst_value headTest_notNaN hd h2)

/-- A solved equation stays solved, in the resulting environment and in all later ones, and so do the
instances of its sides without any environment. -/
theorem unify_stays_solved (u : Unifier) (hu : u.occursCheck = true) (env : Environment)
    (henv : env.Acyclic) (a b : Term)
    (hnan : ∀ t ∈ a.parts ++ b.parts ++ env.parts, t.isNaN = false) (env' : Environment)
    (h : (u.unify a b env).outcome = .done env') :
    (u.unify a b env').outcome = .done env' ∧
    (∀ d : Environment, d.Acyclic → d.Extends env' → (∀ t ∈ d.parts, t.isNaN = false) →
      (u.unify a b d).outcome = .done d) ∧
    ∃ a' b', env'.instantiate? a = some a' ∧ env'.instantiate? b = some b' ∧
      (u.unify a' b' .empty).outcome = .done .empty := by
  have hsolves := solves_unify hu henv (a := a) (b := b)
  have ha : a.Every notNaN := fun s hs => by simp [notNaN, hnan s (by simp [hs])]
  have hb : b.Every notNaN := fun s hs => by simp [notNaN, hnan s (by simp [hs])]
  have he : env.Every notNaN := fun s hs => by simp [notNaN, hnan s (by simp [hs])]
  have he' : env'.Every notNaN := hsolves.every headTest_notNaN h he (by simp [ha, hb])
  rw [h] at hsolves
  have henv' := (hsolves.acyclic_extends rfl).1
  have hsettled : ∀ d : Environment, d.Acyclic → d.Extends env' → d.Every notNaN →
      Settled (a.subst d.value) (b.subst d.value) := fun d hd hext hdn =>
    hsolves.stays_settled hd hext hdn (by simp [ha, hb]) (a, b) (by simp)
  have hlater : ∀ d : Environment, d.Acyclic → d.Extends env' → d.Every notNaN →
      (u.unify a b d).outcome = .done d := fun d hd hext hdn =>
    unify_of_settled (hd.instantiate?_eq a) (hd.instantiate?_eq b) (hsettled d hd hext hdn)
  refine ⟨hlater env' henv' (.refl env') he', fun d hd hext hdn => ?_, _, _,
    henv'.instantiate?_eq a, henv'.instantiate?_eq b, ?_⟩
  · exact hlater d hd hext fun s hs => by simp [notNaN, hdn s hs]
  · have hempty : ∀ t : Term, empty.instantiate? (t.subst env'.value) = some (t.subst env'.value) :=
      fun t => instantiate?_of_fresh (henv'.subst_var_subst t) fun _ _ => rfl
    exact unify_of_settled (hempty a) (hempty b) (hsettled env' henv' (.refl env') he')

/-- The variable x is bound to f(y), and [x, _, 1] has been unified with [f(z), w, 1.0]. Later z gets bound
to [w]. -/
theorem unify_stays_solved_later :
    let x : Variable := ⟨0⟩
    let y : Variable := ⟨1⟩
    let z : Variable := ⟨2⟩
    let w : Variable := ⟨3⟩
    let f (t : Term) : Term := .compound "f" [t]
    let u := plain.withOccursCheck true
    let env := ofList [(x, f (.var y))]
    let a : Term := .seq [.var x, .wildcard, .int 1]
    let b : Term := .seq [f (.var z), .var w, .scalar (.float ⟨0x3ff0000000000000⟩)]
    let env' := ofList [(x, f (.var y)), (y, .var z)]
    let d := env'.set z (.seq [.var w])
    env.Acyclic ∧ (∀ t ∈ a.parts ++ b.parts ++ env.parts, t.isNaN = false) ∧
      (u.unify a b env).outcome = .done env' ∧ (u.unify a b env').outcome = .done env' ∧
      (d.Acyclic ∧ d.Extends env' ∧ (∀ t ∈ d.parts, t.isNaN = false) ∧
        (u.unify a b d).outcome = .done d) ∧
      ∃ a' b', env'.instantiate? a = some a' ∧ env'.instantiate? b = some b' ∧
        (u.unify a' b' .empty).outcome = .done .empty := by
  intro x y z w f u env a b env' d
  have henv : env.Acyclic := acyclic_single (by decide)
  have hnan : ∀ t ∈ a.parts ++ b.parts ++ env.parts, t.isNaN = false := by decide
  have hout : (u.unify a b env).outcome = .done env' := by decide
  have hnew : env'.Assignable z (.seq [.var w]) := by
    refine ⟨by decide, fun v hv => ?_, by decide⟩
    obtain rfl : w = v := by simpa [occurs, occursList] using hv
    exact ⟨by decide, by decide⟩
  obtain ⟨hagain, hlater, hinstances⟩ := unify_stays_solved u rfl env henv a b hnan env' hout
  have hd : d.Acyclic := hnew.acyclic (acyclic_of_unify rfl henv hout)
  have hdnan : ∀ t ∈ d.parts, t.isNaN = false := by decide
  exact ⟨henv, hnan, hout, hagain,
    ⟨hd, hnew.set_extends, hdnan, hlater d hd hnew.set_extends hdnan⟩, hinstances⟩

end Unifier

end TermUnification
