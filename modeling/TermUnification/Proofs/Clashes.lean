import TermUnification.Proofs.Instantiation

/-! What a refusal says stands. Two terms that do not match are named by their instances, whose heads are no
variables, so that no binding brings them together, in this environment or another. A variable that would be
bound to a term that holds it is fresh from the start, and whatever is put for it, the term is larger. -/
namespace TermUnification
open Term

namespace Step

section Compared

variable {a b : Term}

/-- The terms that do not match are the two that have been compared. -/
theorem between_mismatch {l r : Term} (h : between a b = clash (.mismatch l r)) : a = l ∧ b = r := by
  cases a <;> cases b <;> simp [between, ite_eq_iff] at h <;>
    simp [h]

/-- Variables and the wildcard go with anything. -/
theorem heads_of_mismatch (h : between a b = clash (.mismatch a b)) :
    (a.isVar = false ∧ a.isWildcard = false) ∧ b.isVar = false ∧ b.isWildcard = false := by
  cases a <;> cases b <;> simp [between, ite_eq_iff] at h <;>
    simp [isVar, isWildcard]

/-- Terms that do not match are told apart by their heads, which substitution keeps. -/
theorem between_mismatch_subst (h : between a b = clash (.mismatch a b)) (σ τ : Variable → Term) :
    between (a.subst σ) (b.subst τ) = clash (.mismatch (a.subst σ) (b.subst τ)) := by
  cases a <;> cases b <;> simp [between, ite_eq_iff] at h <;>
    simp [between, h]

theorem ne_of_arityMismatch {m n : Nat} (h : between a b = clash (.arityMismatch m n)) : m ≠ n := by
  cases a <;> cases b <;> simp [between, ite_eq_iff] at h <;>
    omega

/-- What a variable would be bound to is a composite if it holds the variable. -/
theorem isComposite_of_occurs {v : Variable} {t : Term} (h : between a b = assign v t)
    (hv : t.occurs v = true) : t.isComposite = true := by
  have hne := (between_assign h).2.2
  cases t <;> simp_all [isComposite]

end Compared

end Step

namespace Clash

/-- Is the refusal by this unifier, on top of this environment, justified for good? -/
def Genuine (u : Unifier) (env : Environment) : Clash → Prop
  | mismatch a b =>
    ((a.isVar = false ∧ a.isWildcard = false) ∧ b.isVar = false ∧ b.isWildcard = false) ∧
      ∀ (w : Unifier) (d : Environment), d.Acyclic → ∃ i j, d.instantiate? a = some i ∧
        d.instantiate? b = some j ∧ (w.unify a b d).outcome = .clash (mismatch i j)
  | arityMismatch m n => m ≠ n
  | occursCheck v t =>
    u.occursCheck = true ∧ env.isFresh v = true ∧ t.isComposite = true ∧ t.occurs v = true ∧
      ∀ σ : Variable → Term, ¬ Same (σ v) (t.subst σ)

/-- Only the freshness of a variable depends on the environment. -/
theorem Genuine.mono {u : Unifier} {d e : Environment} {cause : Clash} (h : cause.Genuine u e)
    (hde : e.Extends d) : cause.Genuine u d := by
  cases cause with
  | mismatch a b => exact h
  | arityMismatch m n => exact h
  | occursCheck v t =>
    obtain ⟨hu, hfresh, hrest⟩ := h
    exact ⟨hu, hde.isFresh hfresh, hrest⟩

/-- Two instances that do not match cannot be unified in any environment. -/
theorem genuine_of_between {u : Unifier} {env : Environment} {a b : Term} {cause : Clash}
    (h : Step.between a b = .clash cause) : cause.Genuine u env := by
  cases cause with
  | mismatch l r =>
    obtain ⟨rfl, rfl⟩ := Step.between_mismatch h
    refine ⟨Step.heads_of_mismatch h, fun w d hd =>
      ⟨_, _, hd.instantiate?_eq a, hd.instantiate?_eq b, ?_⟩⟩
    rw [Unifier.unify_outcome_eq, hd.instantiate?_eq, hd.instantiate?_eq]
    simp only [Step.between_mismatch_subst h]
    rfl
  | arityMismatch m n => exact Step.ne_of_arityMismatch h
  | occursCheck v t => exact absurd h (Step.between_ne_occursCheck a b v t)

end Clash

namespace Unifier
open Environment

section Genuine

variable {u : Unifier} {env : Environment}

/-- A binding is refused for a fresh variable and a composite that holds it. -/
theorem genuine_of_assign {a b a' b' t : Term} {v : Variable} (ha : env.instantiate? a = some a')
    (hb : env.instantiate? b = some b') (step : Step.between a' b' = .assign v t)
    (check : (u.occursCheck && t.occurs v) = true) : (Clash.occursCheck v t).Genuine u env := by
  obtain ⟨hu, hv⟩ := Bool.and_eq_true_iff.1 check
  have hfresh := (new_of_assign ha hb step).1
  have hc := Step.isComposite_of_occurs step hv
  exact ⟨hu, isFresh_iff.2 hfresh, hc, hv,
    not_same_subst_of_occurs (alike_self hc).isVar_eq_false hv⟩

theorem Resolves.genuine {ps : List (Term × Term)} {out : Outcome Environment} {cause : Clash}
    (h : Resolves u ps env out) (hout : out = .clash cause) : cause.Genuine u env := by
  induction h with
  | nil => cases hout
  | settled _ _ _ _ ih => exact ih hout
  | @assign env a b a' b' v t ps out ha hb step _ _ ih =>
    have hgenuine := ih hout
    rw [Step.bind_eq_set step] at hgenuine
    exact hgenuine.mono (extends_set (new_of_assign ha hb step).1 t)
  | members _ _ _ _ ih => exact ih hout
  | occurs ha hb step check =>
    obtain rfl := Outcome.clash.inj hout
    exact genuine_of_assign ha hb step check
  | clash _ _ step =>
    obtain rfl := Outcome.clash.inj hout
    exact Clash.genuine_of_between step

end Genuine

/-- Whatever a unification is refused for cannot be put right. Terms that do not match have other heads than
variables and the wildcard, and do not match in any acyclic environment; numbers of members differ; and a
variable that must not be bound is fresh, and equal to the term under no substitution. -/
theorem clash_genuine (u : Unifier) (env : Environment) (cause : Clash) :
    (∀ a b, (u.unify a b env).outcome = .clash cause → cause.Genuine u env) ∧
    (∀ ps, (u.unifyAll ps env).outcome = .clash cause → cause.Genuine u env) := by
  have hall : ∀ ps, (u.unifyAll ps env).outcome = .clash cause → cause.Genuine u env :=
    fun ps h => (resolves_iff.2 ⟨h, by simp⟩).genuine rfl
  refine ⟨fun a b h => hall [(a, b)] ?_, hall⟩
  rw [unifyAll_singleton_outcome, h]

/-- The variable x is bound to f(y), and y gets bound to z by the first members. Then 1 is compared with f(z),
no member with one, and z with [z]. -/
theorem clash_genuine_kinds :
    let x : Variable := ⟨0⟩
    let y : Variable := ⟨1⟩
    let z : Variable := ⟨2⟩
    let f (t : Term) : Term := .compound "f" [t]
    let u := plain.withOccursCheck true
    let env := ofList [(x, f (.var y))]
    let mismatch : Clash := .mismatch (.int 1) (f (.var z))
    let arities : Clash := .arityMismatch 0 1
    let occurs : Clash := .occursCheck z (.seq [.var z])
    (u.unify (.seq [.var x, .int 1]) (.seq [f (.var z), .var x]) env).outcome = .clash mismatch ∧
      mismatch.Genuine u env ∧
    (u.unifyAll [(.var x, f (.var z)), (.seq [], .seq [.var y])] env).outcome = .clash arities ∧
      arities.Genuine u env ∧
    (u.unifyAll [(.var x, f (.var z)), (.var z, .seq [.var y])] env).outcome = .clash occurs ∧
      occurs.Genuine u env := by
  intro x y z f u env mismatch arities occurs
  have hmismatch : (u.unify (.seq [.var x, .int 1]) (.seq [f (.var z), .var x]) env).outcome =
      .clash mismatch := by decide
  have harities : (u.unifyAll [(.var x, f (.var z)), (.seq [], .seq [.var y])] env).outcome =
      .clash arities := by decide
  have hoccurs : (u.unifyAll [(.var x, f (.var z)), (.var z, .seq [.var y])] env).outcome =
      .clash occurs := by decide
  exact ⟨hmismatch, (clash_genuine u env mismatch).1 _ _ hmismatch,
    harities, (clash_genuine u env arities).2 _ harities,
    hoccurs, (clash_genuine u env occurs).2 _ hoccurs⟩

end Unifier

end TermUnification
