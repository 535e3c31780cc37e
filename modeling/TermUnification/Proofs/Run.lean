import TermUnification.Proofs.Acyclic
import TermUnification.Proofs.StructuralEquality
import TermUnification.Unifier

/-! Unification by rules. A list of pairs is worked off from the left, and the members of a pair are put
in front of the rest. Every run of the unifier that ends follows these rules. -/
namespace TermUnification

namespace Term

/-- Do two terms that are taken apart in the same way state the same number of members? -/
def SameArity : Term → Term → Prop
  | seq ts, seq us => ts.length = us.length
  | map es, map fs => es.length = fs.length
  | composite l ts, composite k us => l.arity ts.length = k.arity us.length
  | _, _ => False

end Term

namespace Step
open Term

@[simp] theorem ofMembers_ne_settled (m n : Nat) (ps : List (Term × Term)) :
    ofMembers m n ps ≠ settled := by
  unfold ofMembers
  split <;> simp

@[simp] theorem ofMembers_ne_assign (m n : Nat) (ps : List (Term × Term)) (v : Variable)
    (t : Term) : ofMembers m n ps ≠ assign v t := by
  unfold ofMembers
  split <;> simp

@[simp] theorem ofMembers_eq_members {m n : Nat} {ps qs : List (Term × Term)} :
    ofMembers m n ps = members qs ↔ m = n ∧ ps = qs := by
  unfold ofMembers
  split <;> simp_all

@[simp] theorem ofMembers_eq_clash {m n : Nat} {ps : List (Term × Term)} {cause : Clash} :
    ofMembers m n ps = clash cause ↔ m ≠ n ∧ Clash.arityMismatch m n = cause := by
  unfold ofMembers
  split <;> simp_all

theorem between_settled {a b : Term} (h : between a b = settled) :
    a = wildcard ∨ b = wildcard ∨ (∃ v, a = var v ∧ b = var v) ∨
    ∃ s t, a = scalar s ∧ b = scalar t ∧ s.agrees t = true := by
  cases a <;> cases b <;> simp_all [between, ite_eq_iff]

theorem between_assign {a b t : Term} {v : Variable} (h : between a b = assign v t) :
    ((a = var v ∧ b = t) ∨ (a = t ∧ b = var v)) ∧ t.isWildcard = false ∧ t ≠ var v := by
  cases a <;> cases b <;> simp [between, ite_eq_iff] at h <;> grind [isWildcard]

theorem between_members {a b : Term} {ps : List (Term × Term)} (h : between a b = members ps) :
    Alike a b ∧ SameArity a b ∧ ps = a.members.zip b.members := by
  cases a <;> cases b <;> simp [between, ite_eq_iff] at h <;>
    simp_all [Alike, SameArity]

theorem between_clash {a b : Term} {cause : Clash} (h : between a b = clash cause) :
    (Alike a b ∧ ¬ SameArity a b) ∨
    (∃ s t, a = scalar s ∧ b = scalar t ∧ s.agrees t = false) ∨
    (a.isVar = false ∧ b.isVar = false ∧ ¬ Alike a b ∧
      (a.isComposite = true ∨ b.isComposite = true)) := by
  cases a <;> cases b <;> simp [between, ite_eq_iff] at h <;>
    simp_all [Alike, SameArity, isVar, isComposite]
  grind

/-- Comparison refuses no binding. -/
theorem between_ne_occursCheck (a b : Term) (v : Variable) (t : Term) :
    between a b ≠ clash (.occursCheck v t) := by
  cases a <;> cases b <;> simp [between, ite_eq_iff]

end Step

namespace Unifier

/-- The outcome of working off a list of pairs in an environment. -/
inductive Resolves (u : Unifier) :
    List (Term × Term) → Environment → Outcome Environment → Prop
  | nil {env} : Resolves u [] env (.done env)
  | settled {env a b a' b' ps out} (ha : env.instantiate? a = some a')
      (hb : env.instantiate? b = some b') (step : Step.between a' b' = .settled)
      (rest : Resolves u ps env out) : Resolves u ((a, b) :: ps) env out
  | assign {env a b a' b' v t ps out} (ha : env.instantiate? a = some a')
      (hb : env.instantiate? b = some b') (step : Step.between a' b' = .assign v t)
      (check : (u.occursCheck && t.occurs v) = false)
      (rest : Resolves u ps (env.bind v t) out) : Resolves u ((a, b) :: ps) env out
  | members {env a b a' b' qs ps out} (ha : env.instantiate? a = some a')
      (hb : env.instantiate? b = some b') (step : Step.between a' b' = .members qs)
      (rest : Resolves u (qs ++ ps) env out) : Resolves u ((a, b) :: ps) env out
  | occurs {env a b a' b' v t ps} (ha : env.instantiate? a = some a')
      (hb : env.instantiate? b = some b') (step : Step.between a' b' = .assign v t)
      (check : (u.occursCheck && t.occurs v) = true) :
      Resolves u ((a, b) :: ps) env (.clash (.occursCheck v t))
  | clash {env a b a' b' cause ps} (ha : env.instantiate? a = some a')
      (hb : env.instantiate? b = some b') (step : Step.between a' b' = .clash cause) :
      Resolves u ((a, b) :: ps) env (.clash cause)

/-- What an outcome leads to when more pairs remain: a clash stands, a value goes on. -/
def Continues (u : Unifier) (ps : List (Term × Term)) (x out : Outcome Environment) : Prop :=
  match x with
  | .done env => Resolves u ps env out
  | .clash cause => out = .clash cause
  | .endless => False

theorem foldlM_cons_outcome (f : Environment → Term × Term → Attempt Environment)
    (p : Term × Term) (ps : List (Term × Term)) (env : Environment) :
    ((p :: ps).foldlM f env).outcome =
      match (f env p).outcome with
      | .done e => (ps.foldlM f e).outcome
      | .clash cause => .clash cause
      | .endless => .endless := by
  rw [List.foldlM_cons, Attempt.bind_def, Attempt.bind]
  cases (f env p).outcome <;> rfl

theorem foldlM_append_outcome (f : Environment → Term × Term → Attempt Environment)
    (ps qs : List (Term × Term)) (env : Environment) :
    ((ps ++ qs).foldlM f env).outcome =
      match (ps.foldlM f env).outcome with
      | .done e => (qs.foldlM f e).outcome
      | .clash cause => .clash cause
      | .endless => .endless := by
  rw [List.foldlM_append, Attempt.bind_def, Attempt.bind]
  cases (ps.foldlM f env).outcome <;> rfl

/-- A step for each pair in turn follows the rules when each step does. -/
theorem resolves_of_foldlM {u : Unifier} {f : Environment → Term × Term → Attempt Environment}
    (hf : ∀ env p ps out, Continues u ps (f env p).outcome out → Resolves u (p :: ps) env out)
    {qs ps : List (Term × Term)} {env : Environment} {out : Outcome Environment}
    (h : Continues u ps (qs.foldlM f env).outcome out) : Resolves u (qs ++ ps) env out := by
  induction qs generalizing env with
  | nil => exact h
  | cons q qs ih =>
    apply hf
    rw [foldlM_cons_outcome] at h
    cases hq : (f env q).outcome with
    | done e => exact ih (by rwa [hq] at h)
    | clash cause => simpa [hq, Continues] using h
    | endless => simp [hq, Continues] at h

theorem resolves_of_unifyWithin {u : Unifier} {n : Nat} {env : Environment} {p : Term × Term}
    {ps : List (Term × Term)} {out : Outcome Environment}
    (h : Continues u ps (u.unifyWithin n p.1 p.2 env).outcome out) :
    Resolves u (p :: ps) env out := by
  induction n generalizing env p ps out with
  | zero => simp [unifyWithin, Attempt.endless, Continues] at h
  | succ n ih =>
    rw [unifyWithin, reporting_outcome] at h
    cases ha : env.instantiate? p.1 with
    | none => simp [ha, Attempt.endless, Continues] at h
    | some a =>
      cases hb : env.instantiate? p.2 with
      | none => simp [ha, hb, Attempt.endless, Continues] at h
      | some b =>
        simp only [ha, hb] at h
        cases hs : Step.between a b with
        | settled =>
          rw [hs] at h
          exact .settled ha hb hs h
        | assign v t =>
          rw [hs] at h
          simp only [Unifier.assign] at h
          split at h
          · next hc =>
            obtain rfl : out = .clash (.occursCheck v t) := h
            exact .occurs ha hb hs hc
          · next hc => exact .assign ha hb hs (Bool.eq_false_of_not_eq_true hc) h
        | members qs =>
          rw [hs] at h
          exact .members ha hb hs (resolves_of_foldlM (fun _ _ _ _ hp => ih hp) h)
        | clash cause =>
          rw [hs] at h
          obtain rfl : out = .clash cause := h
          exact .clash ha hb hs

theorem continues_nil {u : Unifier} {x : Outcome Environment} (h : x ≠ .endless) :
    Continues u [] x x := by
  cases x with
  | done env => exact .nil
  | clash cause => rfl
  | endless => exact h rfl

theorem resolves_unify {u : Unifier} {a b : Term} {env : Environment}
    (h : (u.unify a b env).outcome ≠ .endless) :
    Resolves u [(a, b)] env (u.unify a b env).outcome :=
  resolves_of_unifyWithin (continues_nil h)

theorem resolves_foldlM {u : Unifier} {n : Environment → Term × Term → Nat}
    {ps : List (Term × Term)} {env : Environment}
    (h : (ps.foldlM (fun e p => u.unifyWithin (n e p) p.1 p.2 e) env).outcome ≠ .endless) :
    Resolves u ps env (ps.foldlM (fun e p => u.unifyWithin (n e p) p.1 p.2 e) env).outcome := by
  have hps := resolves_of_foldlM (u := u) (f := fun e p => u.unifyWithin (n e p) p.1 p.2 e)
    (fun _ _ _ _ hp => resolves_of_unifyWithin hp) (continues_nil h)
  rwa [List.append_nil] at hps

theorem resolves_unifyAll {u : Unifier} {ps : List (Term × Term)} {env : Environment}
    (h : (u.unifyAll ps env).outcome ≠ .endless) :
    Resolves u ps env (u.unifyAll ps env).outcome :=
  resolves_foldlM (n := fun e p => depthBound e p.1 p.2) h

/-- Both terms have just been instantiated, so it is a fresh variable that gets bound, to a term over fresh
variables. -/
theorem new_of_assign {env : Environment} {a b a' b' t : Term} {v : Variable}
    (ha : env.instantiate? a = some a') (hb : env.instantiate? b = some b')
    (step : Step.between a' b' = .assign v t) :
    env.lookup? v = none ∧ (∀ w, t.occurs w = true → env.lookup? w = none) ∧ t.subst .var = t := by
  have hfresh : ∀ {s i : Term}, env.instantiate? s = some i → ∀ w, i.occurs w = true →
      env.lookup? w = none := fun hi w hw => ((Environment.occurs_of_instantiate? hi).1 hw).2
  obtain ⟨⟨rfl, rfl⟩ | ⟨rfl, rfl⟩, -, -⟩ := Step.between_assign step
  · exact ⟨hfresh ha v (by simp), hfresh hb, Environment.subst_var_of_instantiate? hb⟩
  · exact ⟨hfresh hb v (by simp), hfresh ha, Environment.subst_var_of_instantiate? ha⟩

end Unifier

/-- What gets bound is assignable unless it holds its variable. -/
theorem Environment.Acyclic.assignable {env : Environment} (henv : env.Acyclic) {a b t : Term}
    {v : Variable} (h : Step.between (a.subst env.value) (b.subst env.value) = .assign v t)
    (hv : t.occurs v = false) : env.Assignable v t := by
  obtain ⟨hfresh, hothers, hanew⟩ :=
    Unifier.new_of_assign (henv.instantiate?_eq a) (henv.instantiate?_eq b) h
  refine ⟨hfresh, fun w hw => ⟨?_, hothers w hw⟩, hanew⟩
  rintro rfl
  simp [hv] at hw

/-- What gets bound is not the wildcard. -/
theorem Step.bind_eq_set {a b t : Term} {v : Variable} (h : between a b = assign v t)
    (env : Environment) : env.bind v t = env.set v t := by
  simp [Environment.bind, (between_assign h).2.1]

namespace Unifier

/-- The rules for unification with the occurs-check, on an acyclic environment. -/
inductive Solves : List (Term × Term) → Environment → Outcome Environment → Prop
  | nil {env} (henv : env.Acyclic) : Solves [] env (.done env)
  | settled {env a b ps out} (henv : env.Acyclic)
      (step : Step.between (a.subst env.value) (b.subst env.value) = .settled)
      (rest : Solves ps env out) : Solves ((a, b) :: ps) env out
  | assign {env a b v t ps out} (henv : env.Acyclic)
      (step : Step.between (a.subst env.value) (b.subst env.value) = .assign v t)
      (new : env.Assignable v t) (rest : Solves ps (env.set v t) out) :
      Solves ((a, b) :: ps) env out
  | members {env a b qs ps out} (henv : env.Acyclic)
      (step : Step.between (a.subst env.value) (b.subst env.value) = .members qs)
      (rest : Solves (qs ++ ps) env out) : Solves ((a, b) :: ps) env out
  | occurs {env a b v t ps} (henv : env.Acyclic)
      (step : Step.between (a.subst env.value) (b.subst env.value) = .assign v t)
      (check : t.occurs v = true) : Solves ((a, b) :: ps) env (.clash (.occursCheck v t))
  | clash {env a b cause ps} (henv : env.Acyclic)
      (step : Step.between (a.subst env.value) (b.subst env.value) = .clash cause) :
      Solves ((a, b) :: ps) env (.clash cause)

theorem Resolves.solves {u : Unifier} (hu : u.occursCheck = true) {ps : List (Term × Term)}
    {env : Environment} {out : Outcome Environment} (h : Resolves u ps env out)
    (henv : env.Acyclic) : Solves ps env out := by
  induction h with
  | nil => exact .nil henv
  | settled ha hb step _ ih =>
    obtain rfl := henv.eq_of_instantiate? ha
    obtain rfl := henv.eq_of_instantiate? hb
    exact .settled henv step (ih henv)
  | @assign env a b a' b' v t ps out ha hb step check _ ih =>
    obtain rfl := henv.eq_of_instantiate? ha
    obtain rfl := henv.eq_of_instantiate? hb
    rw [hu, Bool.true_and] at check
    have hnew := henv.assignable step check
    rw [Step.bind_eq_set step] at ih
    exact .assign henv step hnew (ih (hnew.acyclic henv))
  | members ha hb step _ ih =>
    obtain rfl := henv.eq_of_instantiate? ha
    obtain rfl := henv.eq_of_instantiate? hb
    exact .members henv step (ih henv)
  | occurs ha hb step check =>
    obtain rfl := henv.eq_of_instantiate? ha
    obtain rfl := henv.eq_of_instantiate? hb
    rw [hu, Bool.true_and] at check
    exact .occurs henv step check
  | clash ha hb step =>
    obtain rfl := henv.eq_of_instantiate? ha
    obtain rfl := henv.eq_of_instantiate? hb
    exact .clash henv step

theorem Solves.resolves {ps : List (Term × Term)} {env : Environment} {out : Outcome Environment}
    (h : Solves ps env out) : Resolves (plain.withOccursCheck true) ps env out := by
  induction h with
  | nil => exact .nil
  | settled henv step _ ih =>
    exact .settled (henv.instantiate?_eq _) (henv.instantiate?_eq _) step ih
  | @assign env a b v t ps out henv step new _ ih =>
    have hcheck : t.occurs v = false := Bool.eq_false_iff.2 fun hv => (new.others v hv).1 rfl
    rw [← Step.bind_eq_set step] at ih
    exact .assign (henv.instantiate?_eq _) (henv.instantiate?_eq _) step hcheck ih
  | members henv step _ ih =>
    exact .members (henv.instantiate?_eq _) (henv.instantiate?_eq _) step ih
  | occurs henv step check =>
    exact .occurs (henv.instantiate?_eq _) (henv.instantiate?_eq _) step check
  | clash henv step => exact .clash (henv.instantiate?_eq _) (henv.instantiate?_eq _) step

/-- Successful unification keeps the environment acyclic and all its bindings. -/
theorem Solves.acyclic_extends {ps : List (Term × Term)} {env e : Environment}
    {out : Outcome Environment} (h : Solves ps env out) (hout : out = .done e) :
    e.Acyclic ∧ e.Extends env := by
  induction h with
  | nil henv =>
    obtain rfl := Outcome.done.inj hout
    exact ⟨henv, .refl _⟩
  | settled _ _ _ ih => exact ih hout
  | assign _ _ new _ ih => exact ⟨(ih hout).1, (ih hout).2.trans new.set_extends⟩
  | members _ _ _ ih => exact ih hout
  | occurs => cases hout
  | clash => cases hout

end Unifier

end TermUnification
