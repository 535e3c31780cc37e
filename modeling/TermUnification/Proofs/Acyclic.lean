import TermUnification.Proofs.Paths

/-! Environments whose bindings do not lead back to where they started. There every variable stands for
a term over fresh variables, and instantiation is substitution by these terms. -/
namespace TermUnification.Environment

/-- No path of bindings leads from a variable back to it. -/
def Acyclic (env : Environment) : Prop := ∀ v, ¬ Relation.TransGen env.Edge v v

theorem Acyclic.ends {env : Environment} (h : env.Acyclic) (v : Variable) : env.Ends v :=
  fun w _ => h w

/-- Induction along the bindings of an acyclic environment. -/
theorem Acyclic.induction {env : Environment} (h : env.Acyclic) {motive : Variable → Prop}
    (step : ∀ v, (∀ w, env.Edge v w → motive w) → motive v) (v : Variable) : motive v := by
  induction h.ends v using Ends.induction with
  | step v _ ih => exact step v ih

section Acyclic

variable {env : Environment} (h : env.Acyclic)

include h

theorem Acyclic.termEnds (t : Term) : env.TermEnds t := fun v _ => h.ends v

theorem Acyclic.value_of_bound {v : Variable} {t : Term} (hv : env.lookup? v = some t) :
    env.value v = t.subst env.value := value_of_ends (h.ends v) hv

/-- Instantiation always ends, and replaces each variable by what it stands for. -/
theorem Acyclic.instantiate?_eq (t : Term) : env.instantiate? t = some (t.subst env.value) :=
  instantiate?_eq_some_iff.2 ⟨h.termEnds t, rfl⟩

theorem Acyclic.eq_of_instantiate? {t u : Term} (hu : env.instantiate? t = some u) :
    u = t.subst env.value := by
  rw [h.instantiate?_eq] at hu
  exact (Option.some.inj hu).symm

/-- Nothing that a variable stands for holds a bound variable. -/
theorem Acyclic.fresh_of_occurs_value {v w : Variable}
    (hw : (env.value v).occurs w = true) : env.lookup? w = none :=
  ((h.ends v).occurs_value.1 hw).2

theorem Acyclic.fresh_of_occurs {t : Term} {w : Variable}
    (hw : (t.subst env.value).occurs w = true) : env.lookup? w = none :=
  ((occurs_of_instantiate? (h.instantiate?_eq t)).1 hw).2

theorem Acyclic.subst_var_subst (t : Term) :
    (t.subst env.value).subst .var = t.subst env.value :=
  subst_var_of_instantiate? (h.instantiate?_eq t)

end Acyclic

section Extends

variable {d e : Environment} (he : e.Acyclic) (h : e.Extends d)

include he h

theorem Extends.subst_value (v : Variable) : (d.value v).subst e.value = e.value v :=
  h.subst_value_of_ends (he.ends v)

theorem Extends.subst_subst (t : Term) : (t.subst d.value).subst e.value = t.subst e.value :=
  h.subst_subst_of_ends (he.termEnds t)

end Extends

/-- A new binding to a term over fresh variables leads no further. -/
theorem edge_set {env : Environment} {v : Variable} {t : Term}
    (hfresh : ∀ w, t.occurs w = true → w ≠ v ∧ env.lookup? w = none) {x y : Variable}
    (h : (env.set v t).Edge x y) : env.Edge x y ∨ (env.set v t).lookup? y = none := by
  obtain ⟨u, hu, hy⟩ := h
  rcases lookup?_set_cases hu with ⟨-, rfl⟩ | hold
  · obtain ⟨hyv, hy'⟩ := hfresh y hy
    exact .inr (by simp [hyv, hy'])
  · exact .inl ⟨u, hold, hy⟩

theorem transGen_edge_set {env : Environment} {v : Variable} {t : Term}
    (hfresh : ∀ w, t.occurs w = true → w ≠ v ∧ env.lookup? w = none) {x y : Variable}
    (h : Relation.TransGen (env.set v t).Edge x y) :
    Relation.TransGen env.Edge x y ∨ (env.set v t).lookup? y = none := by
  induction h with
  | single hxy => exact (edge_set hfresh hxy).imp_left .single
  | tail _ hyz ih =>
    rcases ih with hxy | hy
    · exact (edge_set hfresh hyz).imp_left fun he => hxy.tail he
    · obtain ⟨u, hu, -⟩ := hyz
      simp [hy] at hu

/-- Binding a fresh variable to a term over other fresh variables makes no cycle. -/
theorem Acyclic.set {env : Environment} (h : env.Acyclic) {v : Variable} {t : Term}
    (hfresh : ∀ w, t.occurs w = true → w ≠ v ∧ env.lookup? w = none) : (env.set v t).Acyclic := by
  intro x hx
  rcases transGen_edge_set hfresh hx with hcycle | hx'
  · exact h x hcycle
  · obtain ⟨y, ⟨u, hu, -⟩, -⟩ := Relation.TransGen.head'_iff.1 hx
    simp [hx'] at hu

/-- A fresh variable and a term over other fresh variables, put together anew throughout. -/
structure Assignable (env : Environment) (v : Variable) (t : Term) : Prop where
  fresh : env.lookup? v = none
  others : ∀ w, t.occurs w = true → w ≠ v ∧ env.lookup? w = none
  anew : t.subst .var = t

namespace Assignable

variable {env : Environment} {v : Variable} {t : Term} (h : env.Assignable v t)

include h

theorem acyclic (henv : env.Acyclic) : (env.set v t).Acyclic := henv.set h.others

theorem set_extends : (env.set v t).Extends env := extends_set h.fresh t

/-- The new binding needs no further instantiation. -/
theorem value_set (henv : env.Acyclic) : (env.set v t).value v = t :=
  (value_set_self (fun w hw => (h.others w hw).2) h.anew ((h.acyclic henv).ends v)).2

end Assignable

theorem acyclic_empty : empty.Acyclic := by
  intro v hv
  obtain ⟨w, ⟨t, ht, -⟩, -⟩ := Relation.TransGen.head'_iff.1 hv
  simp at ht

theorem lookup?_single {v : Variable} {t : Term} (h : t.isWildcard = false) (w : Variable) :
    (ofList [(v, t)]).lookup? w = if w = v then some t else none :=
  lookup?_bind h empty v w

theorem acyclic_single {v : Variable} {t : Term} (h : t.occurs v = false) :
    (ofList [(v, t)]).Acyclic := by
  have hset : (empty.set v t).Acyclic := by
    refine acyclic_empty.set fun w hw => ⟨?_, rfl⟩
    rintro rfl
    simp [h] at hw
  rw [ofList, extend_cons, extend_nil, bind]
  split
  · exact acyclic_empty
  · exact hset

end TermUnification.Environment
