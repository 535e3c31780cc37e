import TermUnification.Proofs.Parts
import TermUnification.Proofs.Termination

/-! Completeness and generality: unification fails only when no substitution makes the terms equal, and
every substitution that does respects all the bindings it makes. -/
namespace TermUnification
open Term

/-- The substitution makes each bound variable equal to the term it is bound to. -/
def Environment.Solution (env : Environment) (σ : Variable → Term) : Prop :=
  ∀ v t, env.lookup? v = some t → Same (σ v) (t.subst σ)

namespace Environment.Solution

variable {env : Environment} {σ : Variable → Term} (h : env.Solution σ)

include h

theorem value (henv : env.Acyclic) {v : Variable} (hv : Same (σ v) (σ v)) :
    Same (σ v) ((env.value v).subst σ) := by
  induction v using henv.induction with
  | step v ih =>
    cases hl : env.lookup? v with
    | none => simpa [hl] using hv
    | some t =>
      rw [henv.value_of_bound hl, subst_subst]
      have hbound : Same (σ v) (t.subst σ) := h v t hl
      have hvalues : Same (t.subst σ) (t.subst fun w => (env.value w).subst σ) := by
        apply same_subst_of_forall hbound.right
        intro w hw hself
        exact ih w ⟨t, hl, hw⟩ hself
      exact hbound.trans hvalues

/-- A solution does not tell a term from its instance. -/
theorem subst_value (henv : env.Acyclic) {t : Term} (ht : Same (t.subst σ) (t.subst σ)) :
    Same (t.subst σ) ((t.subst env.value).subst σ) := by
  rw [subst_subst]
  apply same_subst_of_forall ht
  intro v _ hv
  exact h.value henv hv

theorem instances (henv : env.Acyclic) {a b : Term} (hab : Same (a.subst σ) (b.subst σ)) :
    Same ((a.subst env.value).subst σ) ((b.subst env.value).subst σ) := by
  have ha := h.subst_value henv hab.left
  have hb := h.subst_value henv hab.right
  exact (ha.symm.trans hab).trans hb

theorem set {v : Variable} {t : Term} (hv : Same (σ v) (t.subst σ)) :
    (env.set v t).Solution σ := by
  intro w u hw
  rcases lookup?_set_cases hw with ⟨rfl, rfl⟩ | hold
  · exact hv
  · exact h w u hold

end Environment.Solution

namespace Step

theorem same_of_between_assign {a b t : Term} {v : Variable} {σ : Variable → Term}
    (h : between a b = assign v t) (hab : Same (a.subst σ) (b.subst σ)) :
    Same (σ v) (t.subst σ) := by
  obtain ⟨⟨rfl, rfl⟩ | ⟨rfl, rfl⟩, -, -⟩ := between_assign h
  · exact hab
  · exact hab.symm

/-- No substitution makes a variable equal to a larger term that holds it. -/
theorem not_same_of_occurs {a b t : Term} {v : Variable} {σ : Variable → Term}
    (h : between a b = assign v t) (hv : t.occurs v = true) :
    ¬ Same (a.subst σ) (b.subst σ) := by
  intro hab
  have ht : t.isVar = false := by
    have hne := (between_assign h).2.2
    cases t <;> simp_all [isVar]
  exact not_same_subst_of_occurs ht hv σ (same_of_between_assign h hab)

theorem same_of_between_members {a b : Term} {qs : List (Term × Term)} {σ : Variable → Term}
    (h : between a b = members qs) (hab : Same (a.subst σ) (b.subst σ)) :
    ∀ q ∈ qs, Same (q.1.subst σ) (q.2.subst σ) := by
  obtain ⟨halike, -, rfl⟩ := between_members h
  rw [same_iff_of_alike (halike.subst σ σ), members_subst σ halike.isVar_eq_false,
    members_subst σ halike.symm.isVar_eq_false, List.forall₂_map_left_iff,
    List.forall₂_map_right_iff] at hab
  exact fun q hq => List.forall₂_zip hab hq

/-- Terms that some substitution makes equal do not clash at their heads. -/
theorem between_ne_clash {a b : Term} {σ : Variable → Term} (ha : a.hasTrueArity = true)
    (hb : b.hasTrueArity = true) (hab : Same (a.subst σ) (b.subst σ)) (cause : Clash) :
    between a b ≠ clash cause := by
  intro hc
  rcases between_clash hc with ⟨halike, harity⟩ | ⟨s, t, rfl, rfl, hst⟩ | ⟨hva, hvb, hne, hmem⟩
  · have hlen : a.members.length = b.members.length := by
      rw [same_iff_of_alike (halike.subst σ σ), members_subst σ halike.isVar_eq_false,
        members_subst σ halike.symm.isVar_eq_false] at hab
      simpa using hab.length_eq
    exact harity ((sameArity_iff halike ha hb).2 hlen)
  · have hagree := Scalar.agrees_of_beq (by simpa [Same] using hab)
    simp [hst] at hagree
  · cases a <;> cases b <;>
      simp_all [isVar, isComposite, Alike, Same, beq_eq, Term.beq]

end Step

namespace Unifier
open Term Environment

/-- A substitution that solves the pairs on top of the environment keeps solving them step by step, so
no step clashes and no binding excludes the substitution. -/
theorem Solves.complete {σ : Variable → Term} {ps : List (Term × Term)} {env : Environment}
    {out : Outcome Environment} (h : Solves ps env out) (harity : env.Every hasTrueArity)
    (hps : ∀ q ∈ ps, q.1.Every hasTrueArity ∧ q.2.Every hasTrueArity) (hσ : env.Solution σ)
    (hsame : ∀ q ∈ ps, Same (q.1.subst σ) (q.2.subst σ)) :
    ∃ e, out = .done e ∧ e.Solution σ := by
  induction h with
  | nil => exact ⟨_, rfl, hσ⟩
  | settled _ _ _ ih =>
    exact ih harity (List.forall_mem_cons.1 hps).2 hσ (List.forall_mem_cons.1 hsame).2
  | assign henv step _ _ ih =>
    obtain ⟨⟨ha, hb⟩, hrest⟩ := List.forall_mem_cons.1 hps
    obtain ⟨hab, hsame⟩ := List.forall_mem_cons.1 hsame
    have hvt := Step.same_of_between_assign step (hσ.instances henv hab)
    have ha' := harity.subst_value headTest_hasTrueArity henv ha
    have hb' := harity.subst_value headTest_hasTrueArity henv hb
    have ht := ha'.assigned hb' step
    exact ih (harity.set ht) hrest (hσ.set hvt) hsame
  | members henv step _ ih =>
    obtain ⟨⟨ha, hb⟩, hrest⟩ := List.forall_mem_cons.1 hps
    obtain ⟨hab, hsame⟩ := List.forall_mem_cons.1 hsame
    have hqs := Step.same_of_between_members step (hσ.instances henv hab)
    have ha' := harity.subst_value headTest_hasTrueArity henv ha
    have hb' := harity.subst_value headTest_hasTrueArity henv hb
    have hmembers := ha'.pairs hb' step
    exact ih harity (List.forall_mem_append.2 ⟨hmembers, hrest⟩) hσ
      (List.forall_mem_append.2 ⟨hqs, hsame⟩)
  | occurs henv step check =>
    have hab := hsame _ List.mem_cons_self
    exact absurd (hσ.instances henv hab) (Step.not_same_of_occurs step check)
  | clash henv step =>
    obtain ⟨ha, hb⟩ := hps _ List.mem_cons_self
    have hab := hsame _ List.mem_cons_self
    exact absurd step (Step.between_ne_clash
      (harity.subst_value headTest_hasTrueArity henv ha).head
      (harity.subst_value headTest_hasTrueArity henv hb).head (hσ.instances henv hab) _)

/-- Completeness and generality. When some substitution respects the environment and makes two terms
equal, unification succeeds, and the substitution respects the resulting environment as well: it is
that environment followed by the substitution itself. -/
theorem unify_mostGeneral (u : Unifier) (hu : u.occursCheck = true) (env : Environment)
    (henv : env.Acyclic) (a b : Term)
    (harity : ∀ t ∈ a.parts ++ b.parts ++ env.parts, t.hasTrueArity = true)
    (σ : Variable → Term) (hσ : ∀ v t, env.lookup? v = some t → (σ v == t.subst σ) = true)
    (hab : (a.subst σ == b.subst σ) = true) :
    ∃ env', (u.unify a b env).outcome = .done env' ∧
      (∀ v t, env'.lookup? v = some t → (σ v == t.subst σ) = true) ∧
      ∀ t t', env'.instantiate? t = some t' → (t.subst σ == t.subst σ) = true →
        (t.subst σ == t'.subst σ) = true := by
  have hsolves := solves_unify hu henv (a := a) (b := b)
  have ha : a.Every hasTrueArity := fun s hs => harity s (by simp [hs])
  have hb : b.Every hasTrueArity := fun s hs => harity s (by simp [hs])
  have he : env.Every hasTrueArity := fun s hs => harity s (by simp [hs])
  obtain ⟨env', hout, hσ'⟩ :=
    hsolves.complete he (by simp [ha, hb]) hσ (List.forall_mem_singleton.2 hab)
  refine ⟨env', hout, hσ', fun t t' ht' hself => ?_⟩
  have henv' := (hsolves.acyclic_extends hout).1
  obtain rfl := henv'.eq_of_instantiate? ht'
  exact hσ'.subst_value henv' hself

/-- The variable x is bound to f(y), and f(y) is unified with f([z]). The binding of y leaves z free, though the
substitution has 7 for it. -/
theorem unify_mostGeneral_chain :
    let x : Variable := ⟨0⟩
    let y : Variable := ⟨1⟩
    let z : Variable := ⟨2⟩
    let env := ofList [(x, .compound "f" [.var y])]
    let b : Term := .compound "f" [.seq [.var z]]
    let e := ofList [(x, .compound "f" [.var y]), (y, .seq [.var z])]
    let σ : Variable → Term := fun v =>
      if v = x then .compound "f" [.seq [.int 7]] else
      if v = y then .seq [.int 7] else if v = z then .int 7 else .var v
    env.Acyclic ∧ (∀ v t, env.lookup? v = some t → (σ v == t.subst σ) = true) ∧
      ((plain.withOccursCheck true).unify (.var x) b env).outcome = .done e ∧
      (∀ v t, e.lookup? v = some t → (σ v == t.subst σ) = true) ∧
      ∀ t t', e.instantiate? t = some t' → (t.subst σ == t.subst σ) = true →
        (t.subst σ == t'.subst σ) = true := by
  intro x y z env b e σ
  have henv : env.Acyclic := acyclic_single (by decide)
  have hσ : ∀ v t, env.lookup? v = some t → (σ v == t.subst σ) = true := by
    intro v t hv
    rw [lookup?_single rfl] at hv
    split at hv
    · next hvx =>
      subst hvx
      obtain rfl := Option.some.inj hv
      decide
    · simp at hv
  have he : ((plain.withOccursCheck true).unify (.var x) b env).outcome = .done e := by decide
  obtain ⟨e', he', hrespects⟩ :=
    unify_mostGeneral (plain.withOccursCheck true) rfl env henv (.var x) b (by decide) σ hσ (by decide)
  obtain rfl := Outcome.done.inj (he'.symm.trans he)
  exact ⟨henv, hσ, he, hrespects⟩

end Unifier

end TermUnification
