import Mathlib.Data.Finset.Card
import Mathlib.Logic.Relation
import TermUnification.Environment.Instantiate
import TermUnification.Proofs.Substitution

/-! Paths of bindings, in environments with or without cycles. A term can be instantiated when no path
from it comes to a cycle. Then each of its variables stands for a term over the fresh variables at the
ends of these paths, and more bindings change that only by instantiating it further. -/
namespace TermUnification

namespace Term

/-- A walk that succeeds is a substitution by what it has found for the variables. -/
theorem exists_subst_of_traverse {f : Variable → Option Term} {t u : Term}
    (h : t.traverse f = some u) :
    ∃ σ : Variable → Term, (∀ v, t.occurs v = true → f v = some (σ v)) ∧ u = t.subst σ := by
  have hfound : ∀ v, t.occurs v = true → f v = some ((f v).getD (var v)) := by
    intro v hv
    obtain ⟨x, hx⟩ := Option.isSome_iff_exists.1 (isSome_of_traverse_eq_some h hv)
    rw [hx, Option.getD_some]
  refine ⟨_, hfound, ?_⟩
  rw [traverse_eq_some hfound] at h
  exact (Option.some.inj h).symm

end Term

namespace Environment
open Relation

theorem mem_of_find?_eq_some {v : Variable} {t : Term} {bs : List Binding}
    (h : find? v bs = some t) : (v, t) ∈ bs := by
  induction bs with
  | nil => simp [find?] at h
  | cons b bs ih =>
    obtain ⟨w, u⟩ := b
    simp only [find?] at h
    split at h
    · simp_all
    · exact List.mem_cons_of_mem _ (ih h)

theorem find?_eq_some_of_mem {v : Variable} {t : Term} {bs : List Binding}
    (hbs : bs.Pairwise fun a b => a.1 < b.1) (h : (v, t) ∈ bs) : find? v bs = some t := by
  induction bs with
  | nil => simp at h
  | cons b bs ih =>
    obtain ⟨w, u⟩ := b
    obtain ⟨hw, hrest⟩ := List.pairwise_cons.1 hbs
    rcases List.mem_cons.1 h with he | hm
    · obtain ⟨rfl, rfl⟩ := Prod.mk.inj he
      simp [find?]
    · have hlt : w < v := hw _ hm
      have hne : v ≠ w := by
        rintro rfl
        exact Nat.lt_irrefl _ hlt
      simp [find?, hne, ih hrest hm]

theorem lookup?_eq_some_iff {env : Environment} {v : Variable} {t : Term} :
    env.lookup? v = some t ↔ (v, t) ∈ env.bindings :=
  ⟨mem_of_find?_eq_some, find?_eq_some_of_mem env.increasing⟩

theorem isFresh_iff {env : Environment} {v : Variable} :
    env.isFresh v = true ↔ env.lookup? v = none := by
  simp [isFresh]

/-- A binding that is found after one has been set is that one or an older one. -/
theorem lookup?_set_cases {env : Environment} {v w : Variable} {t u : Term}
    (h : (env.set v t).lookup? w = some u) : (w = v ∧ u = t) ∨ env.lookup? w = some u := by
  rw [lookup?_set] at h
  split at h
  · next hwv => exact .inl ⟨hwv, (Option.some.inj h).symm⟩
  · exact .inr h

/-- The bound variables. -/
def domain (env : Environment) : Finset Variable := (env.bindings.map Prod.fst).toFinset

theorem mem_domain {env : Environment} {v : Variable} :
    v ∈ env.domain ↔ ∃ t, env.lookup? v = some t := by
  simp [domain, lookup?_eq_some_iff]

theorem card_domain_le (env : Environment) : env.domain.card ≤ env.size :=
  (List.toFinset_card_le _).trans (by simp [size])

/-- A binding leads from its variable to the variables of the bound term. -/
def Edge (env : Environment) (v w : Variable) : Prop :=
  ∃ t, env.lookup? v = some t ∧ t.occurs w = true

/-- No path of bindings from the variable comes to a cycle. -/
def Ends (env : Environment) (v : Variable) : Prop :=
  ∀ w, ReflTransGen env.Edge v w → ¬ TransGen env.Edge w w

section Ends

variable {env : Environment} {v w : Variable}

theorem Ends.edge (h : env.Ends v) (hvw : env.Edge v w) : env.Ends w :=
  fun x hwx => h x (.head hvw hwx)

theorem not_edge_of_fresh (h : env.lookup? v = none) : ¬ env.Edge v w := by
  rintro ⟨t, ht, -⟩
  simp [h] at ht

theorem eq_of_path_of_fresh (h : env.lookup? v = none) (hvw : ReflTransGen env.Edge v w) :
    w = v := by
  rcases ReflTransGen.cases_head hvw with rfl | ⟨x, hvx, -⟩
  · rfl
  · exact absurd hvx (not_edge_of_fresh h)

theorem ends_of_fresh (h : env.lookup? v = none) : env.Ends v := by
  intro w hvw hcycle
  obtain rfl := eq_of_path_of_fresh h hvw
  obtain ⟨x, hx, -⟩ := TransGen.head'_iff.1 hcycle
  exact not_edge_of_fresh h hx

/-- Where every binding leads to variables without cycles ahead, there is none ahead. -/
theorem ends_of_edges (h : ∀ x, env.Edge v x → env.Ends x) : env.Ends v := by
  intro w hvw hcycle
  rcases ReflTransGen.cases_head hvw with rfl | ⟨x, hvx, hxw⟩
  · obtain ⟨x, hvx, hxv⟩ := TransGen.head'_iff.1 hcycle
    exact h x hvx v hxv hcycle
  · exact h x hvx w hxw hcycle

open Classical in
/-- The number of bound variables that paths from a variable come through, itself included. -/
noncomputable def depth (env : Environment) (v : Variable) : Nat :=
  (env.domain.filter fun w => ReflTransGen env.Edge v w).card

theorem depth_le_size (env : Environment) (v : Variable) : env.depth v ≤ env.size := by
  classical
  exact (Finset.card_filter_le _ _).trans env.card_domain_le

theorem depth_pos {t : Term} (h : env.lookup? v = some t) : 0 < env.depth v := by
  classical
  exact Finset.card_pos.2 ⟨v, Finset.mem_filter.2 ⟨mem_domain.2 ⟨t, h⟩, .refl⟩⟩

theorem depth_lt (h : env.Ends v) (hvw : env.Edge v w) : env.depth w < env.depth v := by
  classical
  refine Finset.card_lt_card (Finset.ssubset_iff_of_subset ?_ |>.2 ⟨v, ?_, ?_⟩)
  · intro x hx
    obtain ⟨hd, hwx⟩ := Finset.mem_filter.1 hx
    exact Finset.mem_filter.2 ⟨hd, .head hvw hwx⟩
  · obtain ⟨t, ht, -⟩ := hvw
    exact Finset.mem_filter.2 ⟨mem_domain.2 ⟨t, ht⟩, .refl⟩
  · intro hv
    exact h v .refl (.head' hvw (Finset.mem_filter.1 hv).2)

/-- Induction along the bindings ahead of a variable that leads to no cycle. -/
theorem Ends.induction {motive : (v : Variable) → env.Ends v → Prop}
    (step : ∀ v (h : env.Ends v), (∀ w (hvw : env.Edge v w), motive w (h.edge hvw)) → motive v h)
    {v : Variable} (h : env.Ends v) : motive v h := by
  induction hd : env.depth v using Nat.strong_induction_on generalizing v with
  | _ d ih =>
    subst hd
    exact step v h fun w hvw => ih _ (depth_lt h hvw) (h.edge hvw) rfl

end Ends

section Value

variable {env : Environment} {v w : Variable} {t u : Term}

theorem follow?_of_bound (h : env.lookup? v = some t) (n : Nat) :
    env.follow? (n + 1) v = t.traverse (env.follow? n) := by
  simp [follow?, h]

theorem follow?_succ {n : Nat} (h : env.follow? n v = some u) :
    env.follow? (n + 1) v = some u := by
  induction n generalizing v u with
  | zero =>
    cases hv : env.lookup? v with
    | none => rwa [follow?_of_lookup?_eq_none hv] at h ⊢
    | some t => simp [follow?, hv] at h
  | succ n ih =>
    cases hv : env.lookup? v with
    | none => rwa [follow?_of_lookup?_eq_none hv] at h ⊢
    | some t =>
      rw [follow?_of_bound hv] at h ⊢
      obtain ⟨σ, hσ, rfl⟩ := Term.exists_subst_of_traverse h
      exact Term.traverse_eq_some fun w hw => ih (hσ w hw)

/-- Enough steps to follow a variable are as many as there are bound variables on its paths. -/
theorem follow?_isSome {n : Nat} (h : env.Ends v) (hn : env.depth v ≤ n) :
    (env.follow? n v).isSome := by
  induction n generalizing v with
  | zero =>
    cases hv : env.lookup? v with
    | none => simp [follow?_of_lookup?_eq_none hv]
    | some t => exact absurd (depth_pos hv) (by omega)
  | succ n ih =>
    cases hv : env.lookup? v with
    | none => simp [follow?_of_lookup?_eq_none hv]
    | some t =>
      have hw : ∀ w, t.occurs w = true →
          env.follow? n w = some ((env.follow? n w).getD (.var w)) := by
        intro w hwt
        have hedge : env.Edge v w := ⟨t, hv, hwt⟩
        have hdepth := depth_lt h hedge
        obtain ⟨x, hx⟩ := Option.isSome_iff_exists.1 (ih (h.edge hedge) (by omega))
        rw [hx, Option.getD_some]
      simp [follow?_of_bound hv, Term.traverse_eq_some hw]

theorem ends_of_follow? {n : Nat} (h : env.follow? n v = some u) : env.Ends v := by
  induction n generalizing v u with
  | zero =>
    cases hv : env.lookup? v with
    | none => exact ends_of_fresh hv
    | some t => simp [follow?, hv] at h
  | succ n ih =>
    cases hv : env.lookup? v with
    | none => exact ends_of_fresh hv
    | some t =>
      rw [follow?_of_bound hv] at h
      obtain ⟨σ, hσ, -⟩ := Term.exists_subst_of_traverse h
      apply ends_of_edges
      rintro x ⟨t', ht', hx⟩
      obtain rfl := Option.some.inj (hv.symm.trans ht')
      exact ih (hσ x hx)

/-- What a variable stands for in the environment, with all bindings applied. -/
def value (env : Environment) (v : Variable) : Term := (env.follow? env.size v).getD (.var v)

theorem follow?_size (h : env.Ends v) : env.follow? env.size v = some (env.value v) := by
  obtain ⟨u, hu⟩ := Option.isSome_iff_exists.1 (follow?_isSome h (env.depth_le_size v))
  rw [value, hu, Option.getD_some]

@[simp] theorem value_of_fresh (h : env.lookup? v = none) : env.value v = .var v := by
  simp [value, follow?_of_lookup?_eq_none h]

theorem value_of_ends (h : env.Ends v) (hv : env.lookup? v = some t) :
    env.value v = t.subst env.value := by
  have hsize := follow?_size h
  obtain ⟨n, hn⟩ : ∃ n, env.size = n + 1 :=
    Nat.exists_eq_add_one.2 ((depth_pos hv).trans_le (env.depth_le_size v))
  rw [hn, follow?_of_bound hv] at hsize
  obtain ⟨σ, hσ, hvalue⟩ := Term.exists_subst_of_traverse hsize
  rw [hvalue]
  apply Term.subst_congr
  intro w hw
  have hlast := follow?_succ (hσ w hw)
  rw [← hn, follow?_size (h.edge ⟨t, hv, hw⟩)] at hlast
  exact (Option.some.inj hlast).symm

/-- What a variable stands for holds the fresh variables that it leads to. -/
theorem Ends.occurs_value (h : env.Ends v) :
    (env.value v).occurs w = true ↔ ReflTransGen env.Edge v w ∧ env.lookup? w = none := by
  induction h using Ends.induction with
  | step v h ih =>
    cases hl : env.lookup? v with
    | none =>
      rw [value_of_fresh hl, Term.occurs_var]
      constructor
      · rintro rfl
        exact ⟨.refl, hl⟩
      · rintro ⟨hvw, -⟩
        exact (eq_of_path_of_fresh hl hvw).symm
    | some t =>
      rw [value_of_ends h hl, Term.occurs_subst]
      constructor
      · rintro ⟨x, hx, hxw⟩
        obtain ⟨hpath, hw⟩ := (ih x ⟨t, hl, hx⟩).1 hxw
        exact ⟨.head ⟨t, hl, hx⟩ hpath, hw⟩
      · rintro ⟨hvw, hw⟩
        rcases ReflTransGen.cases_head hvw with rfl | ⟨x, ⟨t', ht', hx⟩, hxw⟩
        · simp [hl] at hw
        · obtain rfl := Option.some.inj (hl.symm.trans ht')
          exact ⟨x, hx, (ih x ⟨t, hl, hx⟩).2 ⟨hxw, hw⟩⟩

/-- What a variable stands for has been put together anew throughout. -/
theorem Ends.subst_var_value (h : env.Ends v) : (env.value v).subst .var = env.value v := by
  induction h using Ends.induction with
  | step v h ih =>
    cases hv : env.lookup? v with
    | none => simp [hv]
    | some t =>
      rw [value_of_ends h hv, Term.subst_subst]
      exact Term.subst_congr fun w hw => ih w ⟨t, hv, hw⟩

/-- Does no path from the term come to a cycle? -/
def TermEnds (env : Environment) (t : Term) : Prop := ∀ v, t.occurs v = true → env.Ends v

/-- A term can be instantiated exactly when no path from it comes to a cycle. -/
theorem instantiate?_eq_some_iff :
    env.instantiate? t = some u ↔ env.TermEnds t ∧ u = t.subst env.value := by
  constructor
  · intro h
    obtain ⟨σ, hσ, -⟩ := Term.exists_subst_of_traverse h
    have hends : env.TermEnds t := fun v hv => ends_of_follow? (hσ v hv)
    refine ⟨hends, ?_⟩
    rw [instantiate?, Term.traverse_eq_some fun v hv => follow?_size (hends v hv)] at h
    exact (Option.some.inj h).symm
  · rintro ⟨hends, rfl⟩
    exact Term.traverse_eq_some fun v hv => follow?_size (hends v hv)

theorem isSome_instantiate?_iff : (env.instantiate? t).isSome ↔ env.TermEnds t := by
  simp [Option.isSome_iff_exists, instantiate?_eq_some_iff]

/-- Do bindings lead from the term to the variable? -/
def Reaches (env : Environment) (t : Term) (w : Variable) : Prop :=
  ∃ v, t.occurs v = true ∧ ReflTransGen env.Edge v w

/-- An instance holds the fresh variables that the term leads to. -/
theorem occurs_of_instantiate? (h : env.instantiate? t = some u) :
    u.occurs w = true ↔ env.Reaches t w ∧ env.lookup? w = none := by
  obtain ⟨hends, rfl⟩ := instantiate?_eq_some_iff.1 h
  rw [Term.occurs_subst]
  constructor
  · rintro ⟨v, hv, hvw⟩
    obtain ⟨hpath, hw⟩ := (hends v hv).occurs_value.1 hvw
    exact ⟨⟨v, hv, hpath⟩, hw⟩
  · rintro ⟨⟨v, hv, hpath⟩, hw⟩
    exact ⟨v, hv, (hends v hv).occurs_value.2 ⟨hpath, hw⟩⟩

theorem subst_var_of_instantiate? (h : env.instantiate? t = some u) : u.subst .var = u := by
  obtain ⟨hends, rfl⟩ := instantiate?_eq_some_iff.1 h
  rw [Term.subst_subst]
  exact Term.subst_congr fun v hv => (hends v hv).subst_var_value

/-- A part of an instance is its own instance. -/
theorem instantiate?_of_fresh (h : u.subst .var = u)
    (hfresh : ∀ w, u.occurs w = true → env.lookup? w = none) : env.instantiate? u = some u := by
  refine instantiate?_eq_some_iff.2 ⟨fun w hw => ends_of_fresh (hfresh w hw), ?_⟩
  exact h.symm.trans (Term.subst_congr fun w hw => (value_of_fresh (hfresh w hw)).symm)

theorem instantiate?_member {m : Term} (h : env.instantiate? t = some u) (hm : m ∈ u.members) :
    env.instantiate? m = some m := by
  have hanew := subst_var_of_instantiate? h
  refine instantiate?_of_fresh (Term.subst_eq_self_of_mem hanew hm) fun w hw => ?_
  exact ((occurs_of_instantiate? h).1 (Term.occurs_of_member hm hw)).2

end Value

/-- All bindings of one environment are bindings of the other. -/
def Extends (e d : Environment) : Prop := ∀ v t, d.lookup? v = some t → e.lookup? v = some t

theorem Extends.refl (d : Environment) : d.Extends d := fun _ _ h => h

theorem Extends.trans {d e f : Environment} (h : f.Extends e) (h' : e.Extends d) : f.Extends d :=
  fun v t hv => h v t (h' v t hv)

/-- What is fresh later has been fresh all along. -/
theorem Extends.isFresh {d e : Environment} (h : e.Extends d) {v : Variable}
    (hv : e.isFresh v = true) : d.isFresh v = true := by
  rw [isFresh_iff, Option.eq_none_iff_forall_ne_some] at hv ⊢
  exact fun t ht => hv t (h v t ht)

theorem extends_set {env : Environment} {v : Variable} (hv : env.lookup? v = none) (t : Term) :
    (env.set v t).Extends env := by
  intro w u hw
  rw [lookup?_set]
  split
  · simp_all
  · exact hw

/-- A new binding that leads to no cycle holds its variable nowhere, and needs no further instantiation. -/
theorem value_set_self {env : Environment} {v : Variable} {t : Term}
    (ht : ∀ w, t.occurs w = true → env.lookup? w = none) (hanew : t.subst .var = t)
    (hends : (env.set v t).Ends v) : t.occurs v = false ∧ (env.set v t).value v = t := by
  have hbound : (env.set v t).lookup? v = some t := by simp
  have hself : t.occurs v = false := by
    by_contra h
    exact hends v .refl (.single ⟨t, hbound, by simpa using h⟩)
  refine ⟨hself, ?_⟩
  calc (env.set v t).value v = t.subst (env.set v t).value := value_of_ends hends hbound
    _ = t.subst .var := Term.subst_congr fun w hw => by
        have hwv : w ≠ v := by
          rintro rfl
          simp [hself] at hw
        exact value_of_fresh (by simp [hwv, ht w hw])
    _ = t := hanew

section Extends

variable {d e : Environment} (h : e.Extends d)

include h

theorem Extends.edge_le : d.Edge ≤ e.Edge := by
  rintro v w ⟨t, ht, hw⟩
  exact ⟨t, h v t ht, hw⟩

/-- More bindings break no cycle. -/
theorem Extends.ends {v : Variable} (hv : e.Ends v) : d.Ends v := by
  intro w hvw hcycle
  have hpath := ReflTransGen.mono h.edge_le v w hvw
  exact hv w hpath (TransGen.mono h.edge_le w w hcycle)

theorem Extends.termEnds {t : Term} (ht : e.TermEnds t) : d.TermEnds t :=
  fun v hv => h.ends (ht v hv)

/-- What a variable stands for in an environment takes its value in a larger one. -/
theorem Extends.subst_value_of_ends {v : Variable} (hv : e.Ends v) :
    (d.value v).subst e.value = e.value v := by
  induction hv using Ends.induction with
  | step v hv ih =>
    cases hl : d.lookup? v with
    | none => simp [hl]
    | some t =>
      have hle := h v t hl
      rw [value_of_ends (h.ends hv) hl, value_of_ends hv hle, Term.subst_subst]
      exact Term.subst_congr fun w hw => ih w ⟨t, hle, hw⟩

/-- Instantiation in an environment is absorbed by instantiation in a larger one. -/
theorem Extends.subst_subst_of_ends {t : Term} (ht : e.TermEnds t) :
    (t.subst d.value).subst e.value = t.subst e.value := by
  rw [Term.subst_subst]
  exact Term.subst_congr fun v hv => h.subst_value_of_ends (ht v hv)

end Extends

end Environment

end TermUnification
