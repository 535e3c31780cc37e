import TermUnification.Proofs.Paths
import TermUnification.Proofs.Run

/-! What unification adds to an environment. Old bindings are kept, and only variables that the operands
lead to get bound, to terms over such variables. This holds in environments with cycles too: every
variable that comes up for binding has been instantiated just before, so it is fresh. -/
namespace TermUnification

namespace Environment
open Relation

/-- Are all fresh variables that the term leads to of one kind? -/
def LeadsInto (env : Environment) (X : Variable → Prop) (t : Term) : Prop :=
  ∀ w, env.Reaches t w → env.lookup? w = none → X w

/-- The second environment is the first with more bindings, of variables of one kind and to terms over
such variables. -/
structure Adds (d : Environment) (X : Variable → Prop) (e : Environment) : Prop where
  kept : e.Extends d
  new : ∀ v t, d.lookup? v = none → e.lookup? v = some t → X v ∧ ∀ w, t.occurs w = true → X w

theorem Adds.refl (d : Environment) (X : Variable → Prop) : d.Adds X d :=
  ⟨.refl d, fun v t hv ht => by simp [hv] at ht⟩

theorem Adds.trans {d e f : Environment} {X : Variable → Prop} (h : d.Adds X e)
    (h' : e.Adds X f) : d.Adds X f := by
  refine ⟨h'.kept.trans h.kept, fun v t hv ht => ?_⟩
  cases hev : e.lookup? v with
  | none => exact h'.new v t hev ht
  | some u =>
    obtain rfl : u = t := Option.some.inj ((h'.kept v u hev).symm.trans ht)
    exact h.new v u hv hev

section New

variable {env : Environment} {X : Variable → Prop} {v : Variable} {t : Term}

theorem adds_set (hv : env.lookup? v = none) (hXv : X v) (hXt : ∀ w, t.occurs w = true → X w) :
    env.Adds X (env.set v t) := by
  refine ⟨extends_set hv t, fun w u hw hu => ?_⟩
  rcases lookup?_set_cases hu with ⟨rfl, rfl⟩ | hold
  · exact ⟨hXv, hXt⟩
  · simp [hw] at hold

/-- A path through a new binding to a term over fresh variables ends at one of these, or goes around
the new binding. -/
theorem path_set (hXt : ∀ w, t.occurs w = true → env.lookup? w = none ∧ X w) {x y : Variable}
    (h : ReflTransGen (env.set v t).Edge x y) : ReflTransGen env.Edge x y ∨ X y := by
  induction h using ReflTransGen.head_induction_on with
  | refl => exact .inl .refl
  | @head x z hxz _ ih =>
    obtain ⟨u, hu, hz⟩ := hxz
    rcases lookup?_set_cases hu with ⟨-, rfl⟩ | hold
    · obtain ⟨hfresh, hXz⟩ := hXt z hz
      refine .inr (ih.elim (fun hzy => ?_) id)
      rwa [eq_of_path_of_fresh hfresh hzy]
    · exact ih.imp_left (.head ⟨u, hold, hz⟩)

theorem LeadsInto.set {s : Term} (h : env.LeadsInto X s)
    (hXt : ∀ w, t.occurs w = true → env.lookup? w = none ∧ X w) :
    (env.set v t).LeadsInto X s := by
  rintro y ⟨x, hx, hxy⟩ hy
  rcases path_set hXt hxy with hpath | hXy
  · refine h y ⟨x, hx, hpath⟩ ?_
    rw [lookup?_set] at hy
    split at hy
    · cases hy
    · exact hy
  · exact hXy

theorem LeadsInto.of_occurs {u : Term} (h : env.LeadsInto X t) (hu : env.instantiate? t = some u)
    {w : Variable} (hw : u.occurs w = true) : env.lookup? w = none ∧ X w := by
  obtain ⟨hreach, hfresh⟩ := (occurs_of_instantiate? hu).1 hw
  exact ⟨hfresh, h w hreach hfresh⟩

/-- The members of an instance lead no further. -/
theorem LeadsInto.member {u m : Term} (h : env.LeadsInto X t) (hu : env.instantiate? t = some u)
    (hm : m ∈ u.members) : env.LeadsInto X m := by
  rintro y ⟨x, hx, hxy⟩ -
  obtain ⟨hfresh, hX⟩ := h.of_occurs hu (Term.occurs_of_member hm hx)
  rwa [eq_of_path_of_fresh hfresh hxy]

end New

/-- Does the variable occur in an instance of one of the terms? -/
def HeldIn (env : Environment) (ts : List Term) (w : Variable) : Prop :=
  ∃ t ∈ ts, ∃ i, env.instantiate? t = some i ∧ i.occurs w = true

theorem leadsInto_heldIn {env : Environment} {ts : List Term} {t : Term} (ht : t ∈ ts)
    (h : (env.instantiate? t).isSome) : env.LeadsInto (env.HeldIn ts) t := by
  obtain ⟨i, hi⟩ := Option.isSome_iff_exists.1 h
  exact fun w hw hfresh => ⟨t, ht, i, hi, (occurs_of_instantiate? hi).2 ⟨hw, hfresh⟩⟩

end Environment

namespace Unifier
open Environment Term

section Resolves

variable {u : Unifier} {env e : Environment} {ps : List (Term × Term)} {out : Outcome Environment}

/-- What gets bound has just been instantiated, so it is fresh, and the term is over fresh variables. -/
theorem leadsInto_of_assign {X : Variable → Prop} {a b a' b' t : Term} {v : Variable}
    (hXa : env.LeadsInto X a) (hXb : env.LeadsInto X b) (ha : env.instantiate? a = some a')
    (hb : env.instantiate? b = some b') (step : Step.between a' b' = .assign v t) :
    (env.lookup? v = none ∧ X v) ∧ ∀ w, t.occurs w = true → env.lookup? w = none ∧ X w := by
  obtain ⟨⟨rfl, rfl⟩ | ⟨rfl, rfl⟩, -, -⟩ := Step.between_assign step
  · exact ⟨hXa.of_occurs ha (by simp), fun w hw => hXb.of_occurs hb hw⟩
  · exact ⟨hXb.of_occurs hb (by simp), fun w hw => hXa.of_occurs ha hw⟩

theorem Resolves.adds {X : Variable → Prop} (h : Resolves u ps env out) (hout : out = .done e)
    (hps : ∀ p ∈ ps, env.LeadsInto X p.1 ∧ env.LeadsInto X p.2) : env.Adds X e := by
  induction h with
  | nil =>
    obtain rfl := Outcome.done.inj hout
    exact .refl _ X
  | settled _ _ _ _ ih => exact ih hout (List.forall_mem_cons.1 hps).2
  | assign ha hb step _ _ ih =>
    obtain ⟨⟨hXa, hXb⟩, hrest⟩ := List.forall_mem_cons.1 hps
    obtain ⟨⟨hv, hXv⟩, hXt⟩ := leadsInto_of_assign hXa hXb ha hb step
    rw [Step.bind_eq_set step] at ih
    have hadd := adds_set hv hXv fun w hw => (hXt w hw).2
    refine hadd.trans (ih hout fun p hp => ?_)
    obtain ⟨h1, h2⟩ := hrest p hp
    exact ⟨h1.set hXt, h2.set hXt⟩
  | members ha hb step _ ih =>
    obtain ⟨⟨hXa, hXb⟩, hrest⟩ := List.forall_mem_cons.1 hps
    obtain ⟨-, -, rfl⟩ := Step.between_members step
    refine ih hout (List.forall_mem_append.2 ⟨fun q hq => ?_, hrest⟩)
    obtain ⟨h1, h2⟩ := List.of_mem_zip hq
    exact ⟨hXa.member ha h1, hXb.member hb h2⟩
  | occurs => cases hout
  | clash => cases hout

/-- No binding is ever lost. -/
theorem Resolves.extends (h : Resolves u ps env out) (hout : out = .done e) : e.Extends env :=
  (h.adds (X := fun _ => True) hout fun _ _ => ⟨fun _ _ _ => trivial, fun _ _ _ => trivial⟩).kept

/-- Unification that succeeds comes to no cycle, so there was none ahead of the terms before it. -/
theorem Resolves.isSome_instantiate? (h : Resolves u ps env out) (hout : out = .done e) :
    ∀ p ∈ ps, (env.instantiate? p.1).isSome ∧ (env.instantiate? p.2).isSome := by
  induction h with
  | nil => simp
  | settled ha hb _ _ ih => exact List.forall_mem_cons.2 ⟨by simp [ha, hb], ih hout⟩
  | @assign env a b a' b' v t ps out ha hb step _ _ ih =>
    have hext := extends_set (new_of_assign ha hb step).1 t
    rw [Step.bind_eq_set step] at ih
    refine List.forall_mem_cons.2 ⟨by simp [ha, hb], fun p hp => ?_⟩
    obtain ⟨h1, h2⟩ := ih hout p hp
    rw [isSome_instantiate?_iff] at h1 h2 ⊢
    exact ⟨hext.termEnds h1, isSome_instantiate?_iff.2 (hext.termEnds h2)⟩
  | members ha hb _ _ ih =>
    exact List.forall_mem_cons.2 ⟨by simp [ha, hb], (List.forall_mem_append.1 (ih hout)).2⟩
  | occurs => cases hout
  | clash => cases hout

theorem Resolves.adds_heldIn (h : Resolves u ps env out) (hout : out = .done e) :
    (∀ t ∈ interleave ps, (env.instantiate? t).isSome) ∧ env.Adds (env.HeldIn (interleave ps)) e := by
  have hsome := h.isSome_instantiate? hout
  constructor
  · intro t ht
    obtain ⟨p, hp, ht⟩ := List.mem_flatMap.1 ht
    obtain ⟨h1, h2⟩ := hsome p hp
    rcases List.mem_pair.1 ht with rfl | rfl
    · exact h1
    · exact h2
  · refine h.adds hout fun p hp => ?_
    obtain ⟨h1, h2⟩ := hsome p hp
    exact ⟨leadsInto_heldIn (List.mem_flatMap.2 ⟨p, hp, by simp⟩) h1,
      leadsInto_heldIn (List.mem_flatMap.2 ⟨p, hp, by simp⟩) h2⟩

end Resolves

/-- Unification only ever adds bindings: of variables that occur in the instances of the operands, to
terms over such variables. -/
theorem unify_adds (u : Unifier) (env : Environment) :
    (∀ a b env', (u.unify a b env).outcome = .done env' →
      (∀ t ∈ [a, b], (env.instantiate? t).isSome) ∧ env.Adds (env.HeldIn [a, b]) env') ∧
    ∀ ps env', (u.unifyAll ps env).outcome = .done env' →
      (∀ t ∈ interleave ps, (env.instantiate? t).isSome) ∧
        env.Adds (env.HeldIn (interleave ps)) env' := by
  constructor
  · intro a b env' h
    have hrun : Resolves u [(a, b)] env (u.unify a b env).outcome := resolves_unify (by simp [h])
    exact hrun.adds_heldIn h
  · intro ps env' h
    have hrun : Resolves u ps env (u.unifyAll ps env).outcome := resolves_unifyAll (by simp [h])
    exact hrun.adds_heldIn h

/-- The variable x is bound to [x], and w to f(y). Without the occurs-check, w is unified with f([z]),
alone and before z with [z], which makes another cycle. -/
theorem unify_adds_beside_cycle :
    let x : Variable := ⟨0⟩
    let y : Variable := ⟨1⟩
    let z : Variable := ⟨2⟩
    let w : Variable := ⟨3⟩
    let f (t : Term) : Term := .compound "f" [t]
    let env := ofList [(x, .seq [.var x]), (w, f (.var y))]
    let b := f (.seq [.var z])
    let one := ofList [(x, .seq [.var x]), (w, f (.var y)), (y, .seq [.var z])]
    let both := ofList [(x, .seq [.var x]), (w, f (.var y)), (y, .seq [.var z]), (z, .seq [.var z])]
    let ps : List (Term × Term) := [(.var w, b), (.var z, .seq [.var z])]
    ((plain.unify (.var w) b env).outcome = .done one ∧
      (∀ t ∈ [.var w, b], (env.instantiate? t).isSome) ∧ env.Adds (env.HeldIn [.var w, b]) one) ∧
    (plain.unifyAll ps env).outcome = .done both ∧
      (∀ t ∈ interleave ps, (env.instantiate? t).isSome) ∧
      env.Adds (env.HeldIn (interleave ps)) both := by
  intro x y z w f env b one both ps
  obtain ⟨hunify, hall⟩ := unify_adds plain env
  have hone : (plain.unify (.var w) b env).outcome = .done one := by decide
  have hboth : (plain.unifyAll ps env).outcome = .done both := by decide
  exact ⟨⟨hone, hunify _ _ one hone⟩, hboth, hall ps both hboth⟩

end Unifier

end TermUnification
