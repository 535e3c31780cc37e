import TermUnification.Proofs.Run

/-! Unification as elimination of variables. The equations are instantiated once, and each new binding is
substituted in the ones that remain. No environment takes part in this, so what unification adds to an
environment depends only on the instances of the equations. -/
namespace TermUnification

namespace Term

/-- The substitution of a term for one variable. -/
def single (v : Variable) (t : Term) (w : Variable) : Term := if w = v then t else var w

@[simp] theorem single_self (v : Variable) (t : Term) : single v t v = t := by simp [single]

theorem single_of_ne {v w : Variable} (h : w ≠ v) (t : Term) : single v t w = var w := by
  simp [single, h]

/-- The substitutions of a list of bindings in turn. -/
def elimination : List Binding → Variable → Term
  | [], v => var v
  | (w, t) :: bs, v => (single w t v).subst (elimination bs)

@[simp] theorem elimination_nil : elimination [] = var := rfl

theorem subst_elimination_cons (w : Variable) (t : Term) (bs : List Binding) (s : Term) :
    s.subst (elimination ((w, t) :: bs)) = (s.subst (single w t)).subst (elimination bs) := by
  rw [subst_subst]
  rfl

/-- Both sides of each pair under a substitution. -/
def substPairs (σ : Variable → Term) (ps : List (Term × Term)) : List (Term × Term) :=
  ps.map fun p => (p.1.subst σ, p.2.subst σ)

@[simp] theorem substPairs_nil (σ : Variable → Term) : substPairs σ [] = [] := rfl

@[simp] theorem substPairs_cons (σ : Variable → Term) (p : Term × Term) (ps : List (Term × Term)) :
    substPairs σ (p :: ps) = (p.1.subst σ, p.2.subst σ) :: substPairs σ ps := rfl

@[simp] theorem substPairs_append (σ : Variable → Term) (ps qs : List (Term × Term)) :
    substPairs σ (ps ++ qs) = substPairs σ ps ++ substPairs σ qs := List.map_append

end Term

/-- A new binding is substituted in what terms have stood for. -/
theorem Environment.Assignable.subst_single {env : Environment} {v : Variable} {t : Term}
    (h : env.Assignable v t) (henv : env.Acyclic) (s : Term) :
    (s.subst env.value).subst (Term.single v t) = s.subst (env.set v t).value := by
  rw [← h.set_extends.subst_subst (h.acyclic henv)]
  apply Term.subst_congr
  intro w hw
  by_cases hwv : w = v
  · rw [hwv, Term.single_self, h.value_set henv]
  · rw [Term.single_of_ne hwv, value_of_fresh (by simp [hwv, henv.fresh_of_occurs hw])]

namespace Unifier
open Environment Term

/-- Instantiated equations are solved by elimination, with the bindings made, in order, and the clash
that has ended it, if any. -/
inductive Eliminates : List (Term × Term) → List Binding → Option Clash → Prop
  | nil : Eliminates [] [] none
  | settled {a b ps bs c} (step : Step.between a b = .settled) (rest : Eliminates ps bs c) :
      Eliminates ((a, b) :: ps) bs c
  | assign {a b v t ps bs c} (step : Step.between a b = .assign v t) (check : t.occurs v = false)
      (rest : Eliminates (substPairs (single v t) ps) bs c) :
      Eliminates ((a, b) :: ps) ((v, t) :: bs) c
  | members {a b qs ps bs c} (step : Step.between a b = .members qs)
      (rest : Eliminates (qs ++ ps) bs c) : Eliminates ((a, b) :: ps) bs c
  | occurs {a b v t ps} (step : Step.between a b = .assign v t) (check : t.occurs v = true) :
      Eliminates ((a, b) :: ps) [] (some (.occursCheck v t))
  | clash {a b cause ps} (step : Step.between a b = .clash cause) :
      Eliminates ((a, b) :: ps) [] (some cause)

/-- Elimination goes one way only. -/
theorem Eliminates.unique {ps : List (Term × Term)} {bs cs : List Binding} {c d : Option Clash}
    (h : Eliminates ps bs c) (h' : Eliminates ps cs d) : bs = cs ∧ c = d := by
  induction h generalizing cs d with
  | nil =>
    cases h'
    exact ⟨rfl, rfl⟩
  | settled step _ ih =>
    cases h' with
    | settled _ rest => exact ih rest
    | _ => simp_all
  | assign step check _ ih =>
    cases h' with
    | assign step' _ rest =>
      obtain ⟨rfl, rfl⟩ := Step.assign.inj (step.symm.trans step')
      obtain ⟨rfl, rfl⟩ := ih rest
      exact ⟨rfl, rfl⟩
    | _ => simp_all
  | members step _ ih =>
    cases h' with
    | members step' rest =>
      obtain rfl := Step.members.inj (step.symm.trans step')
      exact ih rest
    | _ => simp_all
  | occurs step check =>
    cases h' <;> simp_all
  | clash step =>
    cases h' <;> simp_all

/-- The outcome of a unification that has made some bindings. -/
def conclude (env : Environment) (bs : List Binding) : Option Clash → Outcome Environment
  | none => .done (env.extend bs)
  | some cause => .clash cause

/-- The members of instances are instantiated already. -/
theorem substPairs_members {env : Environment} (henv : env.Acyclic) {a b : Term}
    {qs : List (Term × Term)}
    (h : Step.between (a.subst env.value) (b.subst env.value) = .members qs) :
    substPairs env.value qs = qs := by
  obtain ⟨-, -, rfl⟩ := Step.between_members h
  have habsorb := (Extends.refl env).subst_subst henv
  refine (List.map_congr_left fun q hq => ?_).trans (List.map_id _)
  obtain ⟨h1, h2⟩ := List.of_mem_zip hq
  rw [subst_eq_self_of_mem (habsorb a) h1, subst_eq_self_of_mem (habsorb b) h2]
  rfl

theorem substPairs_single {env : Environment} (henv : env.Acyclic) {v : Variable} {t : Term}
    (h : env.Assignable v t) (ps : List (Term × Term)) :
    substPairs (single v t) (substPairs env.value ps) = substPairs (env.set v t).value ps := by
  rw [substPairs, substPairs, List.map_map]
  apply List.map_congr_left
  intro p _
  simp only [Function.comp_apply, h.subst_single henv]

/-- What the bindings that unification adds do to the values of terms. -/
structure Elaborates (env : Environment) (bs : List Binding) (e : Environment) : Prop where
  value : ∀ t : Term, t.subst e.value = (t.subst env.value).subst (elimination bs)
  unbound : ∀ v, e.lookup? v = none → v ∉ bs.map Prod.fst

theorem elaborates_nil {env : Environment} (henv : env.Acyclic) : Elaborates env [] env :=
  ⟨fun t => (henv.subst_var_subst t).symm, by simp⟩

theorem Elaborates.cons {env e : Environment} {v : Variable} {t : Term} {bs : List Binding}
    (henv : env.Acyclic) (hnew : env.Assignable v t) (hext : e.Extends (env.set v t))
    (h : Elaborates (env.set v t) bs e) : Elaborates env ((v, t) :: bs) e := by
  constructor
  · intro s
    rw [h.value, ← hnew.subst_single henv, subst_elimination_cons]
  · intro w hw
    have hv : e.lookup? v = some t := hext v t (by simp)
    have hne : w ≠ v := by
      rintro rfl
      simp [hw] at hv
    simpa [hne] using h.unbound w hw

/-- Unification on top of an environment eliminates variables from the instances of the equations, and
adds the bindings made. -/
theorem Solves.eliminates {ps : List (Term × Term)} {env : Environment}
    {out : Outcome Environment} (h : Solves ps env out) :
    ∃ bs c, Eliminates (substPairs env.value ps) bs c ∧ out = conclude env bs c ∧
      ∀ e, out = .done e → Elaborates env bs e := by
  induction h with
  | nil henv =>
    refine ⟨[], none, .nil, rfl, fun e he => ?_⟩
    obtain rfl := Outcome.done.inj he
    exact elaborates_nil henv
  | settled _ step _ ih =>
    obtain ⟨bs, c, helim, hout⟩ := ih
    exact ⟨bs, c, .settled step helim, hout⟩
  | @assign env a b v t ps out henv step new rest ih =>
    obtain ⟨bs, c, helim, rfl, hbs⟩ := ih
    have hcheck : t.occurs v = false := Bool.eq_false_iff.2 fun hv => (new.others v hv).1 rfl
    rw [← substPairs_single henv new] at helim
    refine ⟨(v, t) :: bs, c, .assign step hcheck helim, ?_, fun e he => ?_⟩
    · cases c with
      | none => rw [conclude, conclude, extend_cons, Step.bind_eq_set step]
      | some cause => rfl
    · exact (hbs e he).cons henv new (rest.acyclic_extends he).2
  | members henv step _ ih =>
    obtain ⟨bs, c, helim, hout⟩ := ih
    rw [substPairs_append, substPairs_members henv step] at helim
    exact ⟨bs, c, .members step helim, hout⟩
  | occurs _ step check => exact ⟨[], _, .occurs step check, rfl, by simp⟩
  | clash _ step => exact ⟨[], _, .clash step, rfl, by simp⟩

end Unifier

end TermUnification
