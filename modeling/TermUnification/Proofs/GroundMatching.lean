import TermUnification.Proofs.OccursCheck
import TermUnification.Proofs.Queries

/-! Matching against ground data. Where one side of each pair is ground and variables are bound to ground
terms only, a variable never meets a term with variables, so there is nothing for the occurs-check to find.
All unifiers follow the same rules then, and the variables that they bind get ground terms. -/
namespace TermUnification

namespace Term

variable {a b t m : Term}

theorem isGround_member (h : t.isGround = true) (hm : m ∈ t.members) : m.isGround = true := by
  rw [isGround_of_isComposite (isComposite_of_mem hm), List.all_eq_true] at h
  exact h m hm

theorem isGround_subst (h : t.isGround = true) (σ : Variable → Term) :
    (t.subst σ).isGround = true := by
  induction t using nodeInduction with
  | var v => simp [isGround] at h
  | node t ht ih =>
    cases hc : t.isComposite with
    | false => cases t <;> simp_all [isVar, isComposite, isGround]
    | true =>
      rw [isGround_of_isComposite ((isComposite_subst σ ht).trans hc), members_subst σ ht,
        List.all_map, List.all_eq_true]
      exact fun m hm => ih m hm (isGround_member h hm)

/-- Is one of the two terms ground? -/
def GroundSide (a b : Term) : Prop := a.isGround = true ∨ b.isGround = true

namespace GroundSide

variable (h : GroundSide a b)

include h

theorem member {p : Term × Term} (hp : p ∈ a.members.zip b.members) : GroundSide p.1 p.2 := by
  obtain ⟨h1, h2⟩ := List.of_mem_zip hp
  exact h.imp (isGround_member · h1) (isGround_member · h2)

/-- What a variable gets bound to is the ground side. -/
theorem assigned {v : Variable} (step : Step.between a b = .assign v t) : t.isGround = true := by
  obtain ⟨⟨rfl, rfl⟩ | ⟨rfl, rfl⟩, -, -⟩ := Step.between_assign step
  · exact h.resolve_left (by simp [isGround])
  · exact h.resolve_right (by simp [isGround])

end GroundSide

theorem closed_of_pairs {ts us : List Term} (hlen : ts.length = us.length)
    (h : ∀ p ∈ ts.zip us, p.1.Closed ∧ p.2.Closed) :
    (∀ t ∈ ts, t.Closed) ∧ ∀ u ∈ us, u.Closed := by
  have hall : List.Forall₂ (fun t u => t.Closed ∧ u.Closed) ts us :=
    List.forall₂_iff_zip.2 ⟨hlen, fun hp => h _ hp⟩
  constructor
  · intro t ht
    obtain ⟨u, -, hu⟩ := exists_of_forall₂ hall.flip ht
    exact hu.1
  · intro u hu
    obtain ⟨t, -, ht⟩ := exists_of_forall₂ hall hu
    exact ht.2

theorem closed_of_members_zip (ha : a.hasTrueArity = true) (hb : b.hasTrueArity = true)
    (halike : Alike a b) (harity : SameArity a b)
    (h : ∀ p ∈ a.members.zip b.members, p.1.Closed ∧ p.2.Closed) : a.Closed ∧ b.Closed := by
  obtain ⟨h1, h2⟩ := closed_of_pairs ((sameArity_iff halike ha hb).1 harity) h
  exact ⟨closed_of_members halike.isVar_eq_false h1, closed_of_members halike.symm.isVar_eq_false h2⟩

/-- No variable of a term is left over when the term matches ground data. -/
theorem Matches.closed (h : Matches a b) (hground : GroundSide a b) (ha : a.Every hasTrueArity)
    (hb : b.Every hasTrueArity) : a.Closed ∧ b.Closed := by
  have pairs {a b : Term} (hground : GroundSide a b) (ha : a.Every hasTrueArity)
      (hb : b.Every hasTrueArity) (halike : Alike a b) (harity : SameArity a b)
      (ih : ∀ p ∈ a.members.zip b.members, GroundSide p.1 p.2 → p.1.Every hasTrueArity →
        p.2.Every hasTrueArity → p.1.Closed ∧ p.2.Closed) : a.Closed ∧ b.Closed := by
    refine closed_of_members_zip ha.head hb.head halike harity fun p hp => ?_
    obtain ⟨h1, h2⟩ := List.of_mem_zip hp
    exact ih p hp (hground.member hp) (ha.member h1) (hb.member h2)
  induction h with
  | wildcardLeft t =>
    exact ⟨fun _ => rfl, closed_of_isGround (hground.resolve_left (by simp [isGround]))⟩
  | wildcardRight t =>
    exact ⟨closed_of_isGround (hground.resolve_right (by simp [isGround])), fun _ => rfl⟩
  | refl t => exact and_self_iff.2 (hground.elim closed_of_isGround closed_of_isGround)
  | scalars _ => exact ⟨fun _ => rfl, fun _ => rfl⟩
  | seq size _ ih => exact pairs (a := .seq _) (b := .seq _) hground ha hb trivial size ih
  | map size _ ih => exact pairs (a := .map _) (b := .map _) hground ha hb trivial size ih
  | composite tag arity _ ih =>
    exact pairs (a := .composite _ _) (b := .composite _ _) hground ha hb tag arity ih

end Term

namespace Environment
open Term

/-- Are variables bound to ground terms only? -/
def GroundValued (env : Environment) : Prop :=
  ∀ v t, env.lookup? v = some t → t.isGround = true

instance (env : Environment) : Decidable env.GroundValued :=
  decidable_of_iff (env.bindings.all fun b => b.2.isGround)
    (by simp [GroundValued, lookup?_eq_some_iff])

theorem groundValued_empty : empty.GroundValued := fun v t h => by simp at h

namespace GroundValued

variable {env : Environment} (henv : env.GroundValued)

include henv

/-- Ground bindings lead nowhere. -/
theorem acyclic : env.Acyclic := by
  intro v hv
  obtain ⟨w, ⟨t, ht, hw⟩, -⟩ := Relation.TransGen.head'_iff.1 hv
  simp [closed_of_isGround (henv v t ht) w] at hw

theorem set {v : Variable} {t : Term} (ht : t.isGround = true) : (env.set v t).GroundValued := by
  intro w s hw
  rcases lookup?_set_cases hw with ⟨-, rfl⟩ | hold
  · exact ht
  · exact henv w s hold

end GroundValued

theorem isGround_of_instantiate? {env : Environment} {t i : Term} (ht : t.isGround = true)
    (hi : env.instantiate? t = some i) : i.isGround = true := by
  obtain ⟨-, rfl⟩ := instantiate?_eq_some_iff.1 hi
  exact isGround_subst ht _

theorem groundSide_of_instantiate? {env : Environment} {a b a' b' : Term} (h : GroundSide a b)
    (ha : env.instantiate? a = some a') (hb : env.instantiate? b = some b') : GroundSide a' b' :=
  h.imp (isGround_of_instantiate? · ha) (isGround_of_instantiate? · hb)

/-- A variable that does not occur in an instance of a term in which it occurs has been bound. -/
theorem exists_lookup?_of_closed {env : Environment} {t i : Term} {v : Variable}
    (hi : env.instantiate? t = some i) (hclosed : i.Closed) (hv : t.occurs v = true) :
    ∃ s, env.lookup? v = some s := by
  cases hl : env.lookup? v with
  | some s => exact ⟨s, rfl⟩
  | none =>
    have hvi : i.occurs v = true := (occurs_of_instantiate? hi).2 ⟨⟨v, hv, .refl⟩, hl⟩
    simp [hclosed v] at hvi

end Environment

theorem Attempt.test_outcome {α : Type} {x : Attempt α} (h : x.outcome ≠ .endless) :
    x.test.outcome = .done x.succeeds := by
  cases hx : x.outcome <;> simp_all [Attempt.test, Attempt.succeeds]

namespace Unifier
open Environment Term

/-- Against ground data, the rules are the same for all unifiers, none refuses a binding, and all new
bindings are to ground terms. -/
theorem Resolves.ground {u w : Unifier} {ps : List (Term × Term)} {env : Environment}
    {out : Outcome Environment} (h : Resolves u ps env out) (henv : env.GroundValued)
    (hps : ∀ p ∈ ps, GroundSide p.1 p.2) :
    Resolves w ps env out ∧ ¬ out.Refused ∧ ∀ e, out = .done e → e.GroundValued := by
  induction h with
  | nil => exact ⟨.nil, by simp [Outcome.Refused], fun e he => Outcome.done.inj he ▸ henv⟩
  | settled ha hb step _ ih =>
    obtain ⟨hrun, hrest⟩ := ih henv (List.forall_mem_cons.1 hps).2
    exact ⟨.settled ha hb step hrun, hrest⟩
  | @assign env a b a' b' v t ps out ha hb step _ _ ih =>
    obtain ⟨hp, hps⟩ := List.forall_mem_cons.1 hps
    have ht := (groundSide_of_instantiate? hp ha hb).assigned step
    rw [Step.bind_eq_set step] at ih
    obtain ⟨hrun, hrest⟩ := ih (henv.set ht) hps
    rw [← Step.bind_eq_set step] at hrun
    exact ⟨.assign ha hb step (by simp [closed_of_isGround ht v]) hrun, hrest⟩
  | members ha hb step _ ih =>
    obtain ⟨hp, hps⟩ := List.forall_mem_cons.1 hps
    obtain ⟨-, -, rfl⟩ := Step.between_members step
    have hqs := fun q hq => (groundSide_of_instantiate? hp ha hb).member (p := q) hq
    obtain ⟨hrun, hrest⟩ := ih henv (List.forall_mem_append.2 ⟨hqs, hps⟩)
    exact ⟨.members ha hb step hrun, hrest⟩
  | @occurs env a b a' b' v t ps ha hb step check =>
    have hp := (List.forall_mem_cons.1 hps).1
    have ht := (groundSide_of_instantiate? hp ha hb).assigned step
    simp [closed_of_isGround ht v] at check
  | @clash env a b a' b' cause ps ha hb step =>
    refine ⟨.clash ha hb step, ?_, by simp⟩
    rintro ⟨v, t, he⟩
    exact Step.between_ne_occursCheck a' b' v t (Outcome.clash.inj he ▸ step)

section Ground

variable {ps : List (Term × Term)} {env : Environment} (henv : env.GroundValued)
  (hps : ∀ p ∈ ps, GroundSide p.1 p.2)

include henv hps

/-- There is one run for all unifiers. -/
theorem exists_resolves_ground : ∃ out, (∀ u : Unifier, Resolves u ps env out) ∧ ¬ out.Refused ∧
    ∀ e, out = .done e → e.GroundValued := by
  have hrun : Resolves (plain.withOccursCheck true) ps env _ :=
    resolves_unifyAll (unifyAll_ne_endless rfl henv.acyclic)
  have hground (u : Unifier) := hrun.ground (w := u) henv hps
  exact ⟨_, fun u => (hground u).1, (hground plain).2⟩

/-- When all composites state their true arities, every variable of the pairs gets bound. -/
theorem Resolves.exists_lookup?_of_ground {u : Unifier} {e : Environment}
    (h : Resolves u ps env (.done e)) (harity : env.Every hasTrueArity)
    (harities : ∀ p ∈ ps, p.1.Every hasTrueArity ∧ p.2.Every hasTrueArity) :
    ∀ p ∈ ps, ∀ v, p.1.occurs v = true ∨ p.2.occurs v = true → ∃ s, e.lookup? v = some s := by
  -- The two sides match in the end, one of them being ground, so no variable is left over in either.
  obtain ⟨hrun, -, he⟩ := h.ground (w := plain.withOccursCheck true) henv hps
  have hsolves := hrun.solves rfl henv.acyclic
  have heac := (he e rfl).acyclic
  have hearity := hsolves.every headTest_hasTrueArity rfl harity harities
  intro p hp v hv
  obtain ⟨h1, h2⟩ := harities p hp
  have hside := groundSide_of_instantiate? (hps p hp) (heac.instantiate?_eq _)
    (heac.instantiate?_eq _)
  obtain ⟨hc1, hc2⟩ := (hsolves.matches rfl p hp).closed hside
    (hearity.subst_value headTest_hasTrueArity heac h1)
    (hearity.subst_value headTest_hasTrueArity heac h2)
  exact hv.elim (exists_lookup?_of_closed (heac.instantiate?_eq _) hc1)
    (exists_lookup?_of_closed (heac.instantiate?_eq _) hc2)

end Ground

/-- All unifiers find the same ground records, whatever is asked for. -/
theorem exists_query_ground {db : RecordSet} (hrecords : ∀ r ∈ db.records, r.isGround = true)
    (fields : List (String × Term)) :
    ∃ found, ∀ u : Unifier, (db.query u fields).outcome = .done found := by
  refine ⟨db.records.filter fun r => (plain.unify r (db.pattern fields) .empty).succeeds,
    fun u => ?_⟩
  rw [RecordSet.query_outcome]
  refine RecordSet.selecting_eq_filter fun r hr => ?_
  have hside : ∀ p ∈ [(r, db.pattern fields)], GroundSide p.1 p.2 :=
    List.forall_mem_singleton.2 (.inl (hrecords r hr))
  obtain ⟨out, hrun, -, -⟩ := exists_resolves_ground groundValued_empty hside
  have hout (u : Unifier) := resolves_singleton_iff.1 (hrun u)
  rw [Attempt.test_outcome ((hout u).1 ▸ (hout u).2), Attempt.succeeds, (hout u).1,
    Attempt.succeeds, (hout plain).1]

/-- Matching against ground data ends, in the same way for all unifiers, and no binding is ever refused.
Where it succeeds, variables are bound to ground terms only, and none of the pattern is left over. So all
unifiers find the same records among ground ones, whatever variables the fields share. -/
theorem unify_ground :
    (∀ (env : Environment) (p t : Term), env.GroundValued → t.isGround = true →
      ∀ q ∈ [(p, t), (t, p)], ∃ out, (∀ u : Unifier, (u.unify q.1 q.2 env).outcome = out) ∧
        out ≠ .endless ∧ (∀ v s, out ≠ .clash (.occursCheck v s)) ∧
        ∀ e, out = .done e → e.GroundValued ∧
          ((∀ s ∈ p.parts ++ t.parts ++ env.parts, s.hasTrueArity = true) →
            ∀ v, p.occurs v = true → ∃ s, e.lookup? v = some s)) ∧
    ∀ (db : RecordSet) (fields : List (String × Term)), (∀ r ∈ db.records, r.isGround = true) →
      ∃ found, ∀ u : Unifier, (db.query u fields).outcome = .done found := by
  refine ⟨?_, fun db fields hrecords => exists_query_ground hrecords fields⟩
  intro env p t henv ht q hq
  have hside : ∀ p ∈ [q], GroundSide p.1 p.2 := by
    rw [List.forall_mem_singleton]
    rcases List.mem_pair.1 hq with rfl | rfl
    · exact .inr ht
    · exact .inl ht
  obtain ⟨out, hrun, hrefused, hground⟩ := exists_resolves_ground henv hside
  have hout (u : Unifier) := resolves_singleton_iff.1 (hrun u)
  refine ⟨out, fun u => (hout u).1, (hout plain).2, fun v s he => hrefused ⟨v, s, he⟩, ?_⟩
  rintro e rfl
  refine ⟨hground e rfl, fun harity v hv => ?_⟩
  have hp : p.Every hasTrueArity := fun s hs => harity s (by simp [hs])
  have ht : t.Every hasTrueArity := fun s hs => harity s (by simp [hs])
  have he : env.Every hasTrueArity := fun s hs => harity s (by simp [hs])
  have hbound := (hrun plain).exists_lookup?_of_ground henv hside he
  rcases List.mem_pair.1 hq with rfl | rfl
  · exact hbound (by simp [hp, ht]) (p, t) (by simp) v (.inl hv)
  · exact hbound (by simp [hp, ht]) (t, p) (by simp) v (.inr hv)

/-- With z bound to [3], the terms [x, {y => f(x, _)}, z] and [1, {:k => f(1.0, nil)}, [3]]. Among the records
{:a => 1, :b => 1} and {:a => 1, :b => 2}, one variable is asked for under both keys. -/
theorem unify_ground_shared :
    let x : Variable := ⟨0⟩
    let y : Variable := ⟨1⟩
    let z : Variable := ⟨2⟩
    let f (s t : Term) : Term := .compound "f" [s, t]
    let env := ofList [(z, .seq [.int 3])]
    let p : Term := .seq [.var x, .map [(.var y, f (.var x) .wildcard)], .var z]
    let t : Term :=
      .seq [.int 1, .map [(.atom "k", f (.scalar (.float ⟨0x3ff0000000000000⟩)) .nil)], .seq [.int 3]]
    let e := ofList [(z, .seq [.int 3]), (x, .int 1), (y, .atom "k")]
    let db := [[("a", .int 1), ("b", .int 1)], [("a", .int 1), ("b", .int 2)]].foldl
      RecordSet.insert (RecordSet.ofKeys ["a", "b"])
    let fields : List (String × Term) := [("a", .var x), ("b", .var x)]
    let found : List Term := [.map [(.atom "a", .int 1), (.atom "b", .int 1)]]
    env.GroundValued ∧ t.isGround = true ∧
      (∀ s ∈ p.parts ++ t.parts ++ env.parts, s.hasTrueArity = true) ∧
      (∀ u : Unifier, (u.unify p t env).outcome = .done e) ∧ e.GroundValued ∧
      (∀ v, p.occurs v = true → ∃ s, e.lookup? v = some s) ∧
      (∃ out, (∀ u : Unifier, (u.unify t p env).outcome = out) ∧ out ≠ .endless) ∧
      (∀ r ∈ db.records, r.isGround = true) ∧
      ∀ u : Unifier, (db.query u fields).outcome = .done found := by
  intro x y z f env p t e db fields found
  obtain ⟨hunify, hquery⟩ := unify_ground
  have henv : env.GroundValued := by decide
  have ht : t.isGround = true := by decide
  have harity : ∀ s ∈ p.parts ++ t.parts ++ env.parts, s.hasTrueArity = true := by decide
  have hdone : (plain.unify p t env).outcome = .done e := by decide
  have hrecords : ∀ r ∈ db.records, r.isGround = true := by decide +kernel
  have hfound : (db.query plain fields).outcome = .done found := by decide +kernel
  obtain ⟨out, hall, -, -, hbinds⟩ := hunify env p t henv ht (p, t) (by simp)
  obtain ⟨out', hall', hends, -⟩ := hunify env p t henv ht (t, p) (by simp)
  obtain ⟨found', hsame⟩ := hquery db fields hrecords
  obtain rfl : out = .done e := (hall plain).symm.trans hdone
  obtain rfl : found' = found := Outcome.done.inj ((hsame plain).symm.trans hfound)
  obtain ⟨hground, hbound⟩ := hbinds e rfl
  exact ⟨henv, ht, harity, hall, hground, hbound harity, ⟨out', hall', hends⟩, hrecords, hsame⟩

end Unifier

end TermUnification
