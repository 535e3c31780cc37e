import TermUnification.Proofs.Extension
import TermUnification.Proofs.Instantiation

/-! Unification sees of an environment the bindings that its operands lead to, and no others. Two
environments that have these in common are treated alike: a run over one is followed step by step over the
other, and what is bound on the way is reached in both. -/
namespace TermUnification

namespace Environment
open Relation Term

/-- Do the environments have the same bindings for the variables that the term leads to? The paths are
those of the first one. -/
def Agree (d e : Environment) (t : Term) : Prop := ∀ v, d.Reaches t v → d.lookup? v = e.lookup? v

theorem Reaches.of_occurs {env : Environment} {t : Term} {v : Variable} (hv : t.occurs v = true) :
    env.Reaches t v :=
  ⟨v, hv, .refl⟩

/-- Paths lead from a term to its own variables and to those of bound terms only. -/
theorem not_reaches {env : Environment} {t : Term} {v : Variable} (ht : t.occurs v = false)
    (hbound : ∀ b ∈ env.bindings, b.2.occurs v = false) : ¬ env.Reaches t v := by
  rintro ⟨x, hx, hxv⟩
  rcases ReflTransGen.cases_tail hxv with rfl | ⟨y, -, s, hs, hv⟩
  · simp [ht] at hx
  · simp [hbound _ (lookup?_eq_some_iff.1 hs)] at hv

namespace Agree

variable {d e : Environment} {t u i : Term} {v w : Variable}

theorem mono (h : d.Agree e t) (hu : ∀ v, d.Reaches u v → d.Reaches t v) : d.Agree e u :=
  fun v hv => h v (hu v hv)

/-- What a bound variable stands for leads where the variable does. -/
theorem bound (h : d.Agree e (var v)) (hv : d.lookup? v = some t) : d.Agree e t := by
  refine h.mono ?_
  rintro w ⟨x, hx, hxw⟩
  exact ⟨v, by simp, .head ⟨t, hv, hx⟩ hxw⟩

theorem of_mem_members (h : d.Agree e t) (hu : u ∈ t.members) : d.Agree e u := by
  refine h.mono ?_
  rintro w ⟨x, hx, hxw⟩
  exact ⟨x, occurs_of_member hu hx, hxw⟩

/-- The paths of the other environment lead no further. -/
theorem reaches (h : d.Agree e t) (hw : e.Reaches t w) : d.Reaches t w := by
  obtain ⟨v, hv, hpath⟩ := hw
  refine ⟨v, hv, ?_⟩
  induction hpath with
  | refl => exact .refl
  | @tail x y _ hxy ih =>
    obtain ⟨s, hs, hy⟩ := hxy
    exact ih.tail ⟨s, (h x ⟨v, hv, ih⟩).trans hs, hy⟩

theorem symm (h : d.Agree e t) : e.Agree d t := fun v hv => (h v (h.reaches hv)).symm

theorem unfolds (h : d.Agree e t) (hi : d.Unfolds t i) : e.Unfolds t i := by
  induction hi with
  | @fresh v unbound => exact .fresh ((h v (.of_occurs (by simp))).symm.trans unbound)
  | @bound v s i binding _ ih =>
    exact .bound ((h v (.of_occurs (by simp))).symm.trans binding) (ih (h.bound binding))
  | node notVar length _ ih =>
    exact .node notVar length fun p hp => ih p hp (h.of_mem_members (List.of_mem_zip hp).1)

/-- The term has the same instance. -/
theorem instantiate? (h : d.Agree e t) (hi : d.instantiate? t = some i) : e.instantiate? t = some i :=
  unfolds_iff.1 (h.unfolds (unfolds_iff.2 hi))

/-- The variables of the instance are fresh in both. -/
theorem fresh (h : d.Agree e t) (hi : d.instantiate? t = some i) (hw : i.occurs w = true) :
    d.lookup? w = none ∧ e.lookup? w = none := by
  obtain ⟨hreach, hfresh⟩ := (occurs_of_instantiate? hi).1 hw
  exact ⟨hfresh, (h w hreach).symm.trans hfresh⟩

/-- The instance leads no further than to its own variables. -/
theorem ofInstance (h : d.Agree e t) (hi : d.instantiate? t = some i) : d.Agree e i := by
  rintro y ⟨x, hx, hxy⟩
  obtain ⟨hd, he⟩ := h.fresh hi hx
  obtain rfl := eq_of_path_of_fresh hd hxy
  rw [hd, he]

/-- A new binding to a term over variables that are fresh in both leads nowhere else. -/
theorem set (h : d.Agree e t) (hu : ∀ w, u.occurs w = true → d.lookup? w = none ∧ e.lookup? w = none) :
    (d.set v u).Agree (e.set v u) t := by
  rintro y ⟨x, hx, hxy⟩
  have hold : d.lookup? y = e.lookup? y := by
    rcases path_set (X := fun w => d.lookup? w = none ∧ e.lookup? w = none)
      (fun w hw => ⟨(hu w hw).1, hu w hw⟩) hxy with hpath | ⟨hd, he⟩
    · exact h y ⟨x, hx, hpath⟩
    · rw [hd, he]
  rw [lookup?_set, lookup?_set, hold]

end Agree

/-- The second environment is the first with exactly these bindings more, all of fresh variables. -/
structure AddsExactly (d : Environment) (bs : List Binding) (e : Environment) : Prop where
  fresh : ∀ b ∈ bs, d.isFresh b.1 = true
  lookup : ∀ v t, e.lookup? v = some t ↔ d.lookup? v = some t ∨ (v, t) ∈ bs

theorem addsExactly_nil (d : Environment) : d.AddsExactly [] d :=
  ⟨by simp, by simp⟩

theorem AddsExactly.cons {d e : Environment} {v : Variable} {t : Term} {bs : List Binding}
    (hv : d.lookup? v = none) (h : (d.set v t).AddsExactly bs e) : d.AddsExactly ((v, t) :: bs) e := by
  constructor
  · refine List.forall_mem_cons.2 ⟨isFresh_iff.2 hv, fun b hb => ?_⟩
    exact (extends_set hv t).isFresh (h.fresh b hb)
  · intro w s
    rw [h.lookup, lookup?_set, List.mem_cons, Prod.mk.injEq]
    split
    · next hwv => simp [hwv, hv, eq_comm]
    · next hwv => simp [hwv]

/-- Two runs over different environments end alike: refused for one reason, or with the same bindings
added. -/
inductive EndAlike (d e : Environment) : Outcome Environment → Outcome Environment → Prop
  | clash (cause : Clash) : EndAlike d e (.clash cause) (.clash cause)
  | done {bs : List Binding} {d' e' : Environment} (left : d.AddsExactly bs d')
      (right : e.AddsExactly bs e') : EndAlike d e (.done d') (.done e')

theorem EndAlike.cons {d e : Environment} {v : Variable} {t : Term} {x y : Outcome Environment}
    (hd : d.lookup? v = none) (he : e.lookup? v = none) (h : EndAlike (d.set v t) (e.set v t) x y) :
    EndAlike d e x y := by
  cases h with
  | clash cause => exact .clash cause
  | done left right => exact .done (left.cons hd) (right.cons he)

end Environment

namespace Unifier
open Environment Term

section Resolves

variable {u : Unifier} {d e : Environment} {ps : List (Term × Term)} {out : Outcome Environment}

/-- A run is followed over every environment that agrees on what is left to do. -/
theorem Resolves.follow (h : Resolves u ps d out)
    (hps : ∀ p ∈ ps, d.Agree e p.1 ∧ d.Agree e p.2) :
    ∃ out', Resolves u ps e out' ∧ EndAlike d e out out' := by
  induction h generalizing e with
  | @nil d => exact ⟨_, .nil, .done (addsExactly_nil d) (addsExactly_nil e)⟩
  | settled ha hb step _ ih =>
    obtain ⟨⟨hda, hdb⟩, hrest⟩ := List.forall_mem_cons.1 hps
    obtain ⟨out', hrun, halike⟩ := ih hrest
    exact ⟨out', .settled (hda.instantiate? ha) (hdb.instantiate? hb) step hrun, halike⟩
  | @assign d a b a' b' v t ps out ha hb step check _ ih =>
    obtain ⟨⟨hda, hdb⟩, hrest⟩ := List.forall_mem_cons.1 hps
    have hea : e.instantiate? a = some a' := hda.instantiate? ha
    have heb : e.instantiate? b = some b' := hdb.instantiate? hb
    -- Both instances are the same over `e`, so the new binding is over fresh variables there too.
    obtain ⟨hdv, hdt, -⟩ := new_of_assign ha hb step
    obtain ⟨hev, het, -⟩ := new_of_assign hea heb step
    rw [Step.bind_eq_set step] at ih
    obtain ⟨out', hrun, halike⟩ := ih fun p hp => by
      obtain ⟨h1, h2⟩ := hrest p hp
      have ht : ∀ w, t.occurs w = true → d.lookup? w = none ∧ e.lookup? w = none :=
        fun w hw => ⟨hdt w hw, het w hw⟩
      exact ⟨h1.set ht, h2.set ht⟩
    rw [← Step.bind_eq_set step] at hrun
    exact ⟨out', .assign hea heb step check hrun, halike.cons hdv hev⟩
  | members ha hb step _ ih =>
    obtain ⟨⟨hda, hdb⟩, hrest⟩ := List.forall_mem_cons.1 hps
    obtain ⟨-, -, rfl⟩ := Step.between_members step
    obtain ⟨out', hrun, halike⟩ := ih <| List.forall_mem_append.2 ⟨fun q hq => by
      obtain ⟨h1, h2⟩ := List.of_mem_zip hq
      exact ⟨(hda.ofInstance ha).of_mem_members h1, (hdb.ofInstance hb).of_mem_members h2⟩, hrest⟩
    exact ⟨out', .members (hda.instantiate? ha) (hdb.instantiate? hb) step hrun, halike⟩
  | occurs ha hb step check =>
    obtain ⟨hda, hdb⟩ := hps _ List.mem_cons_self
    exact ⟨_, .occurs (hda.instantiate? ha) (hdb.instantiate? hb) step check, .clash _⟩
  | clash ha hb step =>
    obtain ⟨hda, hdb⟩ := hps _ List.mem_cons_self
    exact ⟨_, .clash (hda.instantiate? ha) (hdb.instantiate? hb) step, .clash _⟩

end Resolves

/-- Where unification ends over one environment, it ends alike over one that agrees on the operands. -/
theorem endAlike_unify {u : Unifier} {a b : Term} {d e : Environment} (ha : d.Agree e a)
    (hb : d.Agree e b) (h : (u.unify a b d).outcome ≠ .endless) :
    (u.unify a b e).outcome ≠ .endless ∧
      EndAlike d e (u.unify a b d).outcome (u.unify a b e).outcome := by
  obtain ⟨out, hrun, halike⟩ :=
    (resolves_singleton_iff.2 ⟨rfl, h⟩).follow (List.forall_mem_singleton.2 ⟨ha, hb⟩)
  obtain ⟨rfl, hne⟩ := resolves_singleton_iff.1 hrun
  exact ⟨hne, halike⟩

/-- Unification over two environments with the same bindings for all variables that the operands lead to
is refused for one reason, or adds the same bindings to both, or comes to a cycle over both. The last is
not so with the occurs-check when one of them is acyclic. -/
theorem unify_local (u : Unifier) (a b : Term) (d e : Environment)
    (h : ∀ v, d.Reaches a v ∨ d.Reaches b v → d.lookup? v = e.lookup? v) :
    (∃ cause, (u.unify a b d).outcome = .clash cause ∧ (u.unify a b e).outcome = .clash cause) ∨
    (∃ d' e' bs, (u.unify a b d).outcome = .done d' ∧ (u.unify a b e).outcome = .done e' ∧
      d.AddsExactly bs d' ∧ e.AddsExactly bs e') ∨
    ((u.unify a b d).outcome = .endless ∧ (u.unify a b e).outcome = .endless ∧
      ¬ (u.occursCheck = true ∧ (d.Acyclic ∨ e.Acyclic))) := by
  have ha : d.Agree e a := fun v hv => h v (.inl hv)
  have hb : d.Agree e b := fun v hv => h v (.inr hv)
  by_cases hd : (u.unify a b d).outcome = .endless
  · -- A run that ended over `e` could be followed back over `d`.
    have he : (u.unify a b e).outcome = .endless := by
      by_contra he
      exact (endAlike_unify ha.symm hb.symm he).1 hd
    refine .inr (.inr ⟨hd, he, ?_⟩)
    rintro ⟨hu, hac | hac⟩
    · exact unify_ne_endless hu hac hd
    · exact unify_ne_endless hu hac he
  · obtain ⟨-, halike⟩ := endAlike_unify ha hb hd
    generalize (u.unify a b d).outcome = x at halike ⊢
    generalize (u.unify a b e).outcome = y at halike ⊢
    cases halike with
    | clash cause => exact .inl ⟨cause, rfl, rfl⟩
    | done left right => exact .inr (.inl ⟨_, _, _, rfl, rfl, left, right⟩)

/-- Both environments have x bound to f(y), and one has also q bound to [z]. Nothing leads from x, y and
f([z]) to q. -/
theorem unify_local_elsewhere :
    let x : Variable := ⟨0⟩
    let y : Variable := ⟨1⟩
    let z : Variable := ⟨2⟩
    let q : Variable := ⟨3⟩
    let f (t : Term) : Term := .compound "f" [t]
    let u := plain.withOccursCheck true
    let d := ofList [(x, f (.var y))]
    let d' := ofList [(x, f (.var y)), (y, .seq [.var z])]
    let e := d.set q (.seq [.var z])
    let b := f (.seq [.var z])
    let refusal : Clash := .occursCheck y (f (.var y))
    d ≠ e ∧ d.Acyclic ∧ e.Acyclic ∧ u.occursCheck = true ∧
    (∀ t ∈ [.var x, .var y, b], ¬ d.Reaches t q) ∧
    (u.unify (.var x) b d).outcome = .done d' ∧
    (∃ e' bs, (u.unify (.var x) b e).outcome = .done e' ∧ d.AddsExactly bs d' ∧ e.AddsExactly bs e') ∧
    (u.unify (.var x) (.var y) d).outcome = .clash refusal ∧
    (u.unify (.var x) (.var y) e).outcome = .clash refusal := by
  intro x y z q f u d d' e b refusal
  have hd : d.Acyclic := acyclic_single (by decide)
  have hother : ∀ w ∈ (Term.seq [.var z]).occurrences, w ≠ q ∧ d.lookup? w = none := by decide
  have he : e.Acyclic := hd.set fun w hw => hother w (mem_occurrences.2 hw)
  have hreach : ∀ t ∈ [.var x, .var y, b], ¬ d.Reaches t q :=
    fun t ht => not_reaches (by revert t; decide) (by decide)
  have hagree : ∀ s ∈ [.var x, .var y, b], ∀ t ∈ [.var x, .var y, b], ∀ v,
      d.Reaches s v ∨ d.Reaches t v → d.lookup? v = e.lookup? v := by
    intro s hs t ht v hv
    have hvq : v ≠ q := by
      rintro rfl
      exact hv.elim (hreach s hs) (hreach t ht)
    rw [lookup?_set, if_neg hvq]
  have hdone : (u.unify (.var x) b d).outcome = .done d' := by decide
  have hclash : (u.unify (.var x) (.var y) d).outcome = .clash refusal := by decide
  have hfirst := unify_local u (.var x) b d e (hagree _ (by simp) _ (by simp))
  have hsecond := unify_local u (.var x) (.var y) d e (hagree _ (by simp) _ (by simp))
  rw [hdone] at hfirst
  rw [hclash] at hsecond
  refine ⟨by decide, hd, he, rfl, hreach, hdone, ?_, hclash, ?_⟩
  · obtain ⟨_, h, -⟩ | ⟨_, e', bs, h, he', left, right⟩ | ⟨h, -⟩ := hfirst
    · cases h
    · obtain rfl := Outcome.done.inj h
      exact ⟨e', bs, he', left, right⟩
    · cases h
  · obtain ⟨_, h, h'⟩ | ⟨_, _, _, h, -⟩ | ⟨h, -⟩ := hsecond
    · rw [h', ← h]
    · cases h
    · cases h

end Unifier

end TermUnification
