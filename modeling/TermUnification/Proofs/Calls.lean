import TermUnification.Proofs.Levels

/-! The calls that a unification makes of itself. They never go on without end, so unification is endless
only where it comes to terms that cannot be instantiated. -/
namespace TermUnification.Unifier
open Environment Relation

/-- A call of the unifier. -/
structure Call where
  left : Term
  right : Term
  env : Environment

/-- The call made for a pair of members, in the environment that the pairs before it have led to. -/
inductive Invokes (u : Unifier) : Call → Call → Prop
  | member {c : Call} {a b : Term} {before after : List (Term × Term)} {p : Term × Term}
      {e : Environment} (ha : c.env.instantiate? c.left = some a)
      (hb : c.env.instantiate? c.right = some b)
      (step : Step.between a b = .members (before ++ p :: after))
      (done : (u.unifyAll before c.env).outcome = .done e) : Invokes u c ⟨p.1, p.2, e⟩

variable {u : Unifier} {c d : Call}

theorem Invokes.suffices {n : Nat} (h : u.Invokes c d)
    (hn : Suffices (n + 1) c.left c.right c.env) : Suffices n d.left d.right d.env := by
  cases h with
  | member ha hb step done =>
    exact hn.member ha hb step (resolves_of_unifyAll done)

/-- Calls do not go on without end. -/
theorem acc_invokes {n : Nat} (hn : Suffices n c.left c.right c.env) :
    Acc (fun d c => u.Invokes c d) c := by
  induction n generalizing c with
  | zero => exact absurd hn.1 (Nat.lt_irrefl 0)
  | succ n ih => exact Acc.intro c fun d hd => ih (hd.suffices hn)

theorem wellFounded_invokes (u : Unifier) : WellFounded fun d c => u.Invokes c d :=
  ⟨fun _ => acc_invokes (suffices_of_depthBound_le le_rfl)⟩

/-- Unification of a list is endless when it comes to a pair for which it is. -/
theorem exists_endless_of_unifyAll {ps : List (Term × Term)} {env : Environment}
    (h : (u.unifyAll ps env).outcome = .endless) :
    ∃ before p after e, ps = before ++ p :: after ∧ (u.unifyAll before env).outcome = .done e ∧
      (u.unify p.1 p.2 e).outcome = .endless := by
  induction ps generalizing env with
  | nil => simp at h
  | cons p ps ih =>
    rw [unifyAll, foldlM_cons_outcome] at h
    cases hp : (u.unify p.1 p.2 env).outcome with
    | done e =>
      obtain ⟨before, q, after, e', rfl, hdone, hq⟩ := ih (by rwa [hp] at h)
      refine ⟨p :: before, q, after, e', rfl, ?_, hq⟩
      rw [unifyAll, foldlM_cons_outcome, hp]
      exact hdone
    | clash cause => simp [hp] at h
    | endless => exact ⟨[], p, ps, env, rfl, rfl, hp⟩

theorem unifyAll_endless {before after : List (Term × Term)} {p : Term × Term}
    {env e : Environment} (hdone : (u.unifyAll before env).outcome = .done e)
    (hp : (u.unify p.1 p.2 e).outcome = .endless) :
    (u.unifyAll (before ++ p :: after) env).outcome = .endless := by
  rw [unifyAll_append_outcome, hdone]
  dsimp only
  rw [unifyAll, foldlM_cons_outcome, hp]

/-- A call that invokes an endless one is endless. -/
theorem Invokes.endless (h : u.Invokes c d)
    (hd : (u.unify d.left d.right d.env).outcome = .endless) :
    (u.unify c.left c.right c.env).outcome = .endless := by
  cases h with
  | member ha hb step hdone =>
    rw [unify_eq u ha hb, reporting_outcome, step]
    exact unifyAll_endless hdone hd

/-- Where both terms can be instantiated, an endless call invokes an endless one. -/
theorem exists_invokes_endless (ha : c.env.TermEnds c.left) (hb : c.env.TermEnds c.right)
    (h : (u.unify c.left c.right c.env).outcome = .endless) :
    ∃ d, u.Invokes c d ∧ (u.unify d.left d.right d.env).outcome = .endless := by
  have ha := instantiate?_eq_some_iff.2 ⟨ha, rfl⟩
  have hb := instantiate?_eq_some_iff.2 ⟨hb, rfl⟩
  rw [unify_eq u ha hb, reporting_outcome] at h
  cases step : Step.between (c.left.subst c.env.value) (c.right.subst c.env.value) with
  | settled => simp [step, proceed] at h
  | assign v t =>
    simp only [step, proceed, assign] at h
    split at h <;> cases h
  | clash cause => cases step ▸ h
  | members qs =>
    rw [step] at h
    obtain ⟨before, p, after, e, rfl, hdone, hp⟩ := exists_endless_of_unifyAll h
    exact ⟨⟨p.1, p.2, e⟩, .member ha hb step hdone, hp⟩

/-- Unification is endless exactly when it makes a call on terms that lead to a cycle. -/
theorem unify_endless_iff :
    (u.unify c.left c.right c.env).outcome = .endless ↔
      ∃ d, ReflTransGen u.Invokes c d ∧ ¬ (d.env.TermEnds d.left ∧ d.env.TermEnds d.right) := by
  constructor
  · intro h
    induction c using (wellFounded_invokes u).induction with
    | _ c ih =>
      by_cases hends : c.env.TermEnds c.left ∧ c.env.TermEnds c.right
      · obtain ⟨d, hcd, hd⟩ := exists_invokes_endless hends.1 hends.2 h
        obtain ⟨x, hdx, hstuck⟩ := ih d hcd hd
        exact ⟨x, .head hcd hdx, hstuck⟩
      · exact ⟨c, .refl, hends⟩
  · rintro ⟨d, hcd, hstuck⟩
    induction hcd using ReflTransGen.head_induction_on with
    | refl =>
      rw [unify_of_not_ends hstuck, reporting_outcome]
      rfl
    | head hcall _ ih => exact hcall.endless ih

end TermUnification.Unifier
