import Mathlib.Data.Fintype.Sum
import Mathlib.GroupTheory.Perm.Basic
import TermUnification.Proofs.Generality
import TermUnification.Proofs.Matching

/-! The order of the equations. Two environments of which each is solved by what the other makes of the
variables differ by a permutation of the variables. The results of unifying equations in two orders are
such environments, since both are most general. -/
namespace TermUnification

namespace Environment
open Term

/-- Does the fresh variable of the first environment stand for the one of the second, and conversely? -/
structure Partners (d e : Environment) (v w : Variable) : Prop where
  right : e.value v = .var w
  left : d.value w = .var v
  fresh : e.lookup? w = none

theorem Partners.unique_left {d e : Environment} {v v' w : Variable} (h : d.Partners e v w)
    (h' : d.Partners e v' w) : v = v' :=
  Term.var.inj (h.left.symm.trans h'.left)

theorem eq_of_partners_of_fresh {d e : Environment} {v w : Variable} (h : d.Partners e v w)
    (hw : d.lookup? w = none) : w = v :=
  Term.var.inj ((value_of_fresh hw).symm.trans h.left)

end Environment

namespace Term

theorem eq_var_of_same {v : Variable} {t : Term} (h : Same (var v) t) : t = var v := by
  rcases h.cases with ⟨w, hw, rfl⟩ | ⟨hw, -⟩ | ⟨s, u, hs, -, -⟩ | ⟨halike, -⟩
  · exact hw.symm
  · cases hw
  · cases hs
  · simpa [isVar] using halike.isVar_eq_false

theorem eq_var_of_subst {σ : Variable → Term} {t : Term} {v : Variable} (h : t.subst σ = var v) :
    ∃ w, t = var w ∧ σ w = var v := by
  cases ht : t.isVar with
  | false =>
    have hsub := isVar_subst σ ht
    simp [h, isVar] at hsub
  | true =>
    cases t with
    | var w => exact ⟨w, rfl, h⟩
    | _ => cases ht

end Term

namespace Environment
open Term

/-- A fresh variable has a partner in each environment that what it stands for solves. -/
theorem Solution.exists_partner {d e : Environment} (he : e.Acyclic) (h : e.Solution d.value)
    {v : Variable} (hv : d.lookup? v = none) : ∃ w, d.Partners e v w := by
  have hself : Same (d.value v) (d.value v) := by simp [hv, Same]
  have hsame := h.value he hself
  rw [value_of_fresh hv] at hsame
  obtain ⟨w, hright, hleft⟩ := eq_var_of_subst (eq_var_of_same hsame)
  exact ⟨w, hright, hleft, he.fresh_of_occurs_value (v := v) (by simp [hright])⟩

/-- A map of some variables that is injective and moves only finitely many of them is part of a
permutation. -/
theorem exists_perm_extending (U : Finset Variable) (F : Set Variable) (f : Variable → Variable)
    (hmaps : ∀ v ∈ F, v ∈ U → f v ∈ U) (hinj : Set.InjOn f F) (hfix : ∀ v ∈ F, v ∉ U → f v = v) :
    ∃ ρ : Equiv.Perm Variable, ∀ v ∈ F, ρ v = f v := by
  have hcard : Fintype.card U = U.card := Fintype.card_coe U
  have hto : Set.MapsTo (fun x : U => f x) {x : U | x.val ∈ F} U := fun x hx => hmaps x hx x.2
  have hon : Set.InjOn (fun x : U => f x) {x : U | x.val ∈ F} :=
    fun x hx y hy hxy => Subtype.ext (hinj hx hy hxy)
  obtain ⟨g, hg⟩ := hto.exists_equiv_extend_of_card_eq hcard hon
  refine ⟨Equiv.Perm.ofSubtype g, fun v hv => ?_⟩
  by_cases hU : v ∈ U
  · rw [Equiv.Perm.ofSubtype_apply_of_mem g hU]
    exact hg ⟨v, hU⟩ hv
  · rw [Equiv.Perm.ofSubtype_apply_of_not_mem g hU, hfix v hv hU]

theorem lookup?_of_not_mem_union {d e : Environment} {v : Variable} (h : v ∉ d.domain ∪ e.domain) :
    d.lookup? v = none ∧ e.lookup? v = none := by
  simp only [Finset.mem_union, mem_domain, not_or, not_exists] at h
  exact ⟨Option.eq_none_iff_forall_ne_some.2 h.1, Option.eq_none_iff_forall_ne_some.2 h.2⟩

/-- Environments that solve each other have the same values up to a permutation of the variables. -/
theorem exists_perm_of_solutions {d e : Environment} (hd : d.Acyclic) (he : e.Acyclic)
    (hde : e.Solution d.value) (hed : d.Solution e.value) :
    ∃ ρ : Equiv.Perm Variable, ∀ t : Term, Same (t.subst e.value) (t.subst e.value) →
      Same ((t.subst d.value).rename ρ) (t.subst e.value) := by
  have hpartner : ∀ v, d.lookup? v = none → ∃ w, d.Partners e v w :=
    fun v hv => hde.exists_partner he hv
  choose! f hf using hpartner
  have hperm : ∃ ρ : Equiv.Perm Variable, ∀ v ∈ {v | d.lookup? v = none}, ρ v = f v := by
    apply exists_perm_extending (d.domain ∪ e.domain)
    · intro v hv hU
      by_contra hfU
      obtain ⟨hfd, -⟩ := lookup?_of_not_mem_union hfU
      rw [eq_of_partners_of_fresh (hf v hv) hfd] at hfU
      exact hfU hU
    · intro v hv w hw hvw
      exact (hf v hv).unique_left (hvw ▸ hf w hw)
    · intro v hv hU
      obtain ⟨-, hve⟩ := lookup?_of_not_mem_union hU
      exact Term.var.inj ((hf v hv).right.symm.trans (value_of_fresh hve))
  obtain ⟨ρ, hρ⟩ := hperm
  refine ⟨ρ, fun t ht => ?_⟩
  have hren : (t.subst d.value).subst e.value = (t.subst d.value).rename ρ := by
    apply subst_congr
    intro v hv
    have hfresh := hd.fresh_of_occurs hv
    rw [hρ v hfresh, (hf v hfresh).right]
  rw [← hren]
  exact (hed.subst_value hd ht).symm

end Environment

namespace Unifier
open Term Environment

/-- Are all parts of the equations plain? -/
def EveryPlain (ints : Bool) (ps : List (Term × Term)) : Prop :=
  ∀ p ∈ ps, p.1.Every (isPlain ints) ∧ p.2.Every (isPlain ints)

section Plain

variable {ints : Bool} {ps qs : List (Term × Term)} {env d : Environment}
  (hps : Solves ps env (.done d)) (henv : env.Every (isPlain ints)) (hplain : EveryPlain ints ps)

include hps henv hplain

theorem Solves.every_isPlain {t : Term} (ht : t.Every (isPlain ints)) :
    (t.subst d.value).Every (isPlain ints) :=
  have hhead := headTest_isPlain ints
  (hps.every hhead rfl henv hplain).subst_value hhead (hps.acyclic_extends rfl).1 ht

/-- The result of solving plain equations solves any of them in any order, so these have a most general
result, which it respects. -/
theorem Solves.complete_of_subset {out : Outcome Environment} (hqs : Solves qs env out)
    (hsub : ∀ q ∈ qs, q ∈ ps) : ∃ e, out = .done e ∧ e.Solution d.value := by
  obtain ⟨hd, hext⟩ := hps.acyclic_extends rfl
  have harity : ∀ t : Term, t.isPlain ints = true → t.hasTrueArity = true := by
    intro t ht
    simp only [isPlain, Bool.and_eq_true] at ht
    exact ht.2.2.2
  apply hqs.complete
  · exact fun s hs => harity s (henv s hs)
  · intro q hq
    obtain ⟨h1, h2⟩ := hplain q (hsub q hq)
    exact ⟨fun s hs => harity s (h1 s hs), fun s hs => harity s (h2 s hs)⟩
  · intro v t hv
    rw [hd.value_of_bound (hext v t hv)]
    exact same_self (hps.every_isPlain henv hplain (henv.lookup? hv))
  · intro q hq
    obtain ⟨h1, h2⟩ := hplain q (hsub q hq)
    exact (hps.matches rfl q (hsub q hq)).same (hps.every_isPlain henv hplain h1)
      (hps.every_isPlain henv hplain h2)

end Plain

/-- Two results of solving the same plain equations have the same values up to a permutation of the
variables. -/
theorem Solves.exists_perm {ints : Bool} {ps qs : List (Term × Term)} {env d e : Environment}
    (hps : Solves ps env (.done d)) (hqs : Solves qs env (.done e))
    (hmem : ∀ p, p ∈ ps ↔ p ∈ qs) (henv : env.Every (isPlain ints)) (hplain : EveryPlain ints ps) :
    ∃ ρ : Equiv.Perm Variable, ∀ t : Term, t.Every (isPlain ints) →
      Same ((t.subst d.value).rename ρ) (t.subst e.value) := by
  have hplain' : EveryPlain ints qs := fun q hq => hplain q ((hmem q).2 hq)
  obtain ⟨_, ⟨⟩, hde⟩ := hps.complete_of_subset henv hplain hqs fun q => (hmem q).2
  obtain ⟨_, ⟨⟩, hed⟩ := hqs.complete_of_subset henv hplain' hps fun p => (hmem p).1
  have hd := (hps.acyclic_extends rfl).1
  have he := (hqs.acyclic_extends rfl).1
  obtain ⟨ρ, hρ⟩ := exists_perm_of_solutions hd he hde hed
  exact ⟨ρ, fun t ht => hρ t (same_self (hqs.every_isPlain henv hplain' ht))⟩

/-- Permuted plain equations can be solved together or not at all, and the two results give each term of
the equations one instance, up to one permutation of the variables. -/
theorem unifyAll_perm (u : Unifier) (hu : u.occursCheck = true) (env : Environment)
    (henv : env.Acyclic) (ps qs : List (Term × Term)) (hperm : ps.Perm qs)
    (hplain : Plain ((interleave ps).flatMap Term.parts ++ env.parts)) :
    ((∃ d, (u.unifyAll ps env).outcome = .done d) ↔
      ∃ e, (u.unifyAll qs env).outcome = .done e) ∧
    ∀ d e, (u.unifyAll ps env).outcome = .done d → (u.unifyAll qs env).outcome = .done e →
      ∃ ρ : Equiv.Perm Variable, ∀ t ∈ interleave ps, ∃ i j, d.instantiate? t = some i ∧
        e.instantiate? t = some j ∧ (i.rename ρ == j) = true := by
  obtain ⟨ints, hall⟩ := hplain.isPlain
  have henvp : env.Every (isPlain ints) := fun s hs => hall s (List.mem_append_right _ hs)
  have hterm : ∀ t ∈ interleave ps, t.Every (isPlain ints) := fun t ht s hs =>
    hall s (List.mem_append_left _ (List.mem_flatMap.2 ⟨t, ht, hs⟩))
  have hps : EveryPlain ints ps := fun p hp =>
    ⟨hterm _ (List.mem_flatMap.2 ⟨p, hp, by simp⟩), hterm _ (List.mem_flatMap.2 ⟨p, hp, by simp⟩)⟩
  have hqs : EveryPlain ints qs := fun q hq => hps q (hperm.mem_iff.2 hq)
  have hsolve : Solves ps env (u.unifyAll ps env).outcome := solves_unifyAll hu henv
  have hsolve' : Solves qs env (u.unifyAll qs env).outcome := solves_unifyAll hu henv
  refine ⟨⟨fun ⟨d, hd⟩ => ?_, fun ⟨e, he⟩ => ?_⟩, fun d e hd he => ?_⟩
  · rw [hd] at hsolve
    obtain ⟨e, he, -⟩ := hsolve.complete_of_subset henvp hps hsolve' fun q => hperm.mem_iff.2
    exact ⟨e, he⟩
  · rw [he] at hsolve'
    obtain ⟨d, hd, -⟩ := hsolve'.complete_of_subset henvp hqs hsolve fun p => hperm.mem_iff.1
    exact ⟨d, hd⟩
  · rw [hd] at hsolve
    rw [he] at hsolve'
    obtain ⟨ρ, hρ⟩ := hsolve.exists_perm hsolve' (fun p => hperm.mem_iff) henvp hps
    have hda := (hsolve.acyclic_extends rfl).1
    have hea := (hsolve'.acyclic_extends rfl).1
    exact ⟨ρ, fun t ht =>
      ⟨_, _, hda.instantiate?_eq t, hea.instantiate?_eq t, hρ t (hterm t ht)⟩⟩

/-- The variable z is bound to f(x). Unified with f(y) and then f(w), or the other way round, it comes to
be f(w) or f(y). -/
theorem unifyAll_perm_swapped :
    let x : Variable := ⟨0⟩
    let y : Variable := ⟨1⟩
    let z : Variable := ⟨2⟩
    let w : Variable := ⟨3⟩
    let f (t : Term) : Term := .compound "f" [t]
    let u := plain.withOccursCheck true
    let env := ofList [(z, f (.var x))]
    let ps : List (Term × Term) := [(.var z, f (.var y)), (.var z, f (.var w))]
    let qs : List (Term × Term) := [(.var z, f (.var w)), (.var z, f (.var y))]
    let d := ofList [(z, f (.var x)), (x, .var y), (y, .var w)]
    let e := ofList [(z, f (.var x)), (x, .var w), (w, .var y)]
    env.Acyclic ∧ ps.Perm qs ∧ Plain ((interleave ps).flatMap Term.parts ++ env.parts) ∧
      (u.unifyAll ps env).outcome = .done d ∧ (u.unifyAll qs env).outcome = .done e ∧
      ∃ ρ : Equiv.Perm Variable, ∀ t ∈ interleave ps, ∃ i j, d.instantiate? t = some i ∧
        e.instantiate? t = some j ∧ (i.rename ρ == j) = true := by
  intro x y z w f u env ps qs d e
  have henv : env.Acyclic := acyclic_single (by decide)
  have hperm : ps.Perm qs := .swap _ _ _
  have hplain : Plain ((interleave ps).flatMap Term.parts ++ env.parts) :=
    ⟨by decide, by decide, .inl (by decide), by decide⟩
  have hd : (u.unifyAll ps env).outcome = .done d := by decide
  have he : (u.unifyAll qs env).outcome = .done e := by decide
  obtain ⟨-, hinstances⟩ := unifyAll_perm u rfl env henv ps qs hperm hplain
  exact ⟨henv, hperm, hplain, hd, he, hinstances d e hd he⟩

end Unifier

end TermUnification
