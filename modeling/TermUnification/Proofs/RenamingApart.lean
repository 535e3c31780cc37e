import TermUnification.Proofs.Renaming
import TermUnification.Proofs.Replacement

/-! What a renaming returns. Each direct occurrence of a fresh variable becomes its new variable, and each
occurrence of a bound variable is instantiated. The result is a copy of the instantiated term in new
variables when bound variables lead only to variables that have been seen by then. -/
namespace TermUnification

namespace Renaming
open Term Environment

/-- An occurrence is replaced by what its variable stands for after it and all the ones before. -/
def ReplacedAt (r : Renaming) (occurrences : List Variable) (v : Variable) (u : Term) : Prop :=
  ∃ before after, occurrences = before ++ [v] ++ after ∧
    u = (r.seeAll (before ++ [v])).env.value v

theorem traverseList_run {r : Renaming} {occurrences : List Variable} {ts : List Term}
    (hts : ∀ t ∈ ts, ∀ before after, occurrences = before ++ (t.occurrences ++ after) →
      ∃ u, (t.traverse replace).run (r.seeAll before) =
        some (u, r.seeAll (before ++ t.occurrences)) ∧ Replaced (r.ReplacedAt occurrences) t u)
    (before after : List Variable)
    (h : occurrences = before ++ (ts.flatMap Term.occurrences ++ after)) :
    ∃ us, (traverseList replace ts).run (r.seeAll before) =
        some (us, r.seeAll (before ++ ts.flatMap Term.occurrences)) ∧
      List.Forall₂ (Replaced (r.ReplacedAt occurrences)) ts us := by
  induction ts generalizing before with
  | nil => exact ⟨[], by simp [traverseList], .nil⟩
  | cons t ts ih =>
    obtain ⟨ht, hts⟩ := List.forall_mem_cons.1 hts
    rw [List.flatMap_cons, List.append_assoc] at h
    obtain ⟨u, hu, htu⟩ := ht before _ h
    obtain ⟨us, hus, htsus⟩ := ih hts (before ++ t.occurrences) (by rw [h, List.append_assoc])
    refine ⟨u :: us, ?_, .cons htu htsus⟩
    rw [seeAll_append] at hus
    simp [traverseList, hu, hus]

/-- The walk through a part of a term, in a context of occurrences before and after it. -/
theorem Sound.traverse_run {r : Renaming} (hr : r.Sound) {occurrences : List Variable}
    (hknown : ∀ v ∈ occurrences, r.names.Known v) (t : Term) (before after : List Variable)
    (h : occurrences = before ++ (t.occurrences ++ after)) :
    ∃ u, (t.traverse replace).run (r.seeAll before) =
        some (u, r.seeAll (before ++ t.occurrences)) ∧ Replaced (r.ReplacedAt occurrences) t u := by
  induction t using nodeInduction generalizing before after with
  | var v =>
    have hbefore : ∀ w ∈ before, r.names.Known w := fun w hw => hknown w (by simp [h, hw])
    have hv : (r.seeAll before).names.Known v :=
      (grows_seeAll r before).known v (hknown v (by simp [h, Term.occurrences]))
    have hrun := (hr.seeAll hbefore).replace_run hv
    have hstate : (r.seeAll before).see v = r.seeAll (before ++ [v]) := by
      rw [seeAll_append, seeAll_cons, seeAll_nil]
    rw [hstate] at hrun
    exact ⟨_, by rwa [Term.traverse], .var ⟨before, after, by rwa [List.append_assoc], rfl⟩⟩
  | node t ht ih =>
    rw [occurrences_node ht] at h ⊢
    obtain ⟨us, hus, htus⟩ := traverseList_run ih before after h
    refine ⟨t.withMembers us, ?_, .node ht htus⟩
    rw [traverse_node replace ht, StateT.run_map, hus]
    rfl

/-- The new variable that a fresh variable has been bound to. -/
def target (r : Renaming) (v : Variable) : Variable :=
  match r.env.lookup? v with
  | some (.var w) => w
  | _ => v

theorem target_eq {r : Renaming} {v w : Variable} (h : r.env.lookup? v = some (.var w)) :
    r.target v = w := by
  simp [target, h]

/-- The substitution that replaces the listed variables by others. -/
def renamingOf (ρ : Variable → Variable) (vs : List Variable) (v : Variable) : Term :=
  .var (if v ∈ vs then ρ v else v)

namespace Sound

variable {r : Renaming} (hr : r.Sound) {vs : List Variable}
  (hknown : ∀ v ∈ vs, r.names.Known v)

include hr hknown

/-- A fresh variable stands for its new variable once it has been seen. -/
theorem value_seeAll_of_fresh {v : Variable} (hv : r.env.lookup? v = none) (ws : List Variable) :
    (r.seeAll vs).env.value v = renamingOf (r.seeAll (vs ++ ws)).target vs v := by
  by_cases hmem : v ∈ vs
  · obtain ⟨w, hw, hnew, -⟩ := lookup?_seeAll_of_mem hmem hv (hknown v hmem)
    have hfresh : (r.seeAll vs).env.lookup? w = none := by
      rw [lookup?_seeAll_of_not_mem fun h => hnew (hknown w h)]
      exact hr.lookup?_of_not_known hnew
    have htarget : (r.seeAll (vs ++ ws)).env.lookup? v = some (.var w) := by
      rw [seeAll_append]
      exact extends_seeAll _ ws v _ hw
    rw [(hr.seeAll hknown).acyclic.value_of_bound hw, subst_var, value_of_fresh hfresh, renamingOf,
      if_pos hmem, target_eq htarget]
  · rw [value_of_fresh (by rwa [lookup?_seeAll_of_not_mem hmem]), renamingOf, if_neg hmem]

theorem subst_value_seeAll (t : Term) (ws : List Variable) :
    t.subst (r.seeAll vs).env.value =
      (t.subst r.env.value).subst (renamingOf (r.seeAll (vs ++ ws)).target vs) := by
  rw [← (extends_seeAll r vs).subst_subst (hr.seeAll hknown).acyclic]
  exact subst_congr fun v hv =>
    hr.value_seeAll_of_fresh hknown (hr.acyclic.fresh_of_occurs hv) ws

theorem replaced_iff {v : Variable} {u : Term} :
    r.ReplacedAt vs v u ↔ ∃ before after, vs = before ++ [v] ++ after ∧
      u = (r.env.value v).subst (renamingOf (r.seeAll vs).target (before ++ [v])) := by
  have hvalue : ∀ before after, vs = before ++ [v] ++ after →
      (r.seeAll (before ++ [v])).env.value v =
        (r.env.value v).subst (renamingOf (r.seeAll vs).target (before ++ [v])) := by
    rintro before after rfl
    exact hr.subst_value_seeAll (fun w hw => hknown w (List.mem_append_left _ hw)) (.var v) after
  constructor
  · rintro ⟨before, after, h, rfl⟩
    exact ⟨before, after, h, hvalue before after h⟩
  · rintro ⟨before, after, h, rfl⟩
    exact ⟨before, after, h, (hvalue before after h).symm⟩

end Sound

end Renaming

namespace Environment
open Term Renaming

/-- Does a bound variable lead to another variable? -/
def LeadsTo (env : Environment) (v w : Variable) : Prop :=
  env.isFresh v = false ∧ ∃ u, env.instantiate? (.var v) = some u ∧ u.occurs w = true

theorem Acyclic.leadsTo_iff {env : Environment} (henv : env.Acyclic) {v w : Variable} :
    env.LeadsTo v w ↔ env.isFresh v = false ∧ (env.value v).occurs w = true := by
  simp [LeadsTo, henv.instantiate?_eq]

/-- A variable stands for itself or leads to what it stands for. -/
theorem Acyclic.eq_or_leadsTo {env : Environment} (henv : env.Acyclic) {v w : Variable}
    (h : (env.value v).occurs w = true) : w = v ∨ env.LeadsTo v w := by
  cases hv : env.isFresh v with
  | true =>
    rw [value_of_fresh (isFresh_iff.1 hv), occurs_var] at h
    exact .inl h.symm
  | false => exact .inr (henv.leadsTo_iff.2 ⟨hv, h⟩)

/-- Whatever a bound variable of the term leads to occurs in the term itself before it. -/
def LeadsBack (env : Environment) (t : Term) : Prop :=
  ∀ before v after, t.occurrences = before ++ v :: after → ∀ w, env.LeadsTo v w → w ∈ before

/-- Nothing that a bound variable of the term leads to occurs in the term itself only after it. -/
def NeverAhead (env : Environment) (t : Term) : Prop :=
  ∀ before v after, t.occurrences = before ++ v :: after → ∀ w ∈ after, env.LeadsTo v w →
    w ∈ before

theorem LeadsBack.occurs {env : Environment} (henv : env.Acyclic) {t : Term} (h : env.LeadsBack t)
    {w : Variable} (hw : (t.subst env.value).occurs w = true) : t.occurs w = true := by
  obtain ⟨v, hv, hvw⟩ := (occurs_subst _ _ _).1 hw
  rcases henv.eq_or_leadsTo hvw with rfl | hlead
  · exact hv
  · obtain ⟨before, after, hocc⟩ := List.append_of_mem (mem_occurrences.2 hv)
    rw [← mem_occurrences, hocc]
    exact List.mem_append_left _ (h before v after hocc w hlead)

end Environment

namespace Renaming
open Term Environment

section New

variable {r : Renaming} {t : Term} (hknown : ∀ v ∈ t.occurrences, r.names.Known v)

include hknown

theorem target_new {v : Variable} (hv : t.occurs v = true) (hfresh : r.env.isFresh v = true) :
    ¬ r.names.Known ((r.seeAll t.occurrences).target v) ∧
      (r.seeAll t.occurrences).names.nameOf ((r.seeAll t.occurrences).target v) =
        r.names.nameOf v ∧
      (r.seeAll t.occurrences).env.lookup? v =
        some (.var ((r.seeAll t.occurrences).target v)) := by
  have hmem := mem_occurrences.2 hv
  obtain ⟨w, hw, hnew, hname⟩ :=
    lookup?_seeAll_of_mem hmem (isFresh_iff.1 hfresh) (hknown v hmem)
  rw [target_eq hw]
  exact ⟨hnew, hname, hw⟩

end New

namespace Sound

variable {r : Renaming} (hr : r.Sound) {t u : Term}
  (hknown : ∀ v ∈ t.occurrences, r.names.Known v)

include hr hknown

/-- A variable of the result that was there before has been reached through a binding. -/
theorem old (h : Replaced (r.ReplacedAt t.occurrences) t u) {w : Variable}
    (hw : u.occurs w = true) (hold : r.names.Known w) :
    ∃ v, t.occurs v = true ∧ r.env.LeadsTo v w := by
  obtain ⟨v, x, hv, hx, hxw⟩ := h.occurs hw
  obtain ⟨before, after, hocc, rfl⟩ := (hr.replaced_iff hknown).1 hx
  obtain ⟨z, hz, hzw⟩ := (occurs_subst _ _ _).1 hxw
  rw [renamingOf, occurs_var] at hzw
  split at hzw
  · next hmem =>
    have hzt : t.occurs z = true := by
      rw [← mem_occurrences, hocc]
      exact List.mem_append_left _ hmem
    have hfresh := isFresh_iff.2 (hr.acyclic.fresh_of_occurs_value hz)
    exact absurd (hzw ▸ hold) (target_new hknown hzt hfresh).1
  · next hmem =>
    subst hzw
    rcases hr.acyclic.eq_or_leadsTo hz with rfl | hlead
    · simp at hmem
    · exact ⟨v, hv, hlead⟩

/-- When no variable becomes a new one only after it has been reached through a binding, each
occurrence is replaced by what it stands for in the end. -/
theorem eq_subst_value (h : Replaced (r.ReplacedAt t.occurrences) t u)
    (hahead : r.env.NeverAhead t) : u = t.subst (r.seeAll t.occurrences).env.value := by
  refine (h.imp fun v x _ hx => ?_).eq_subst
  obtain ⟨before, after, hocc, rfl⟩ := (hr.replaced_iff hknown).1 hx
  have hlast := hr.subst_value_seeAll hknown (.var v) []
  rw [List.append_nil, subst_var, subst_var] at hlast
  rw [hlast]
  apply subst_congr
  intro z hz
  have hiff : z ∈ before ++ [v] ↔ z ∈ t.occurrences := by
    rw [hocc]
    refine ⟨List.mem_append_left _, fun hmem => ?_⟩
    rcases List.mem_append.1 hmem with hmem | hmem
    · exact hmem
    · rcases hr.acyclic.eq_or_leadsTo hz with rfl | hvz
      · simp
      · rw [List.append_assoc, List.singleton_append] at hocc
        exact List.mem_append_left _ (hahead before v after hocc z hmem hvz)
  rw [renamingOf, renamingOf, if_congr hiff rfl rfl]

end Sound

end Renaming

namespace Environment
open Term Renaming

theorem rename?_run {env : Environment} {names : Names} {t : Term}
    (hr : (start names env).Sound)
    (hknown : ∀ v ∈ t.occurrences, (start names env).names.Known v) :
    ∃ r, env.rename? names t = some (r, (start names env).seeAll t.occurrences) ∧
      Replaced ((start names env).ReplacedAt t.occurrences) t r :=
  hr.traverse_run hknown t [] [] (by simp)

theorem Acyclic.rename {env : Environment} (henv : env.Acyclic) {names : Names}
    (hnames : env.KnownTo names) {t r : Term} {s : Renaming}
    (ht : ∀ v, t.occurs v = true → names.Known v) (h : env.rename? names t = some (r, s)) :
    s.env.Acyclic := by
  have hr : (start names env).Sound := ⟨henv, hnames⟩
  have hknown : ∀ v ∈ t.occurrences, (start names env).names.Known v :=
    fun v hv => ht v (mem_occurrences.1 hv)
  obtain ⟨u, hrun, -⟩ := rename?_run hr hknown
  rw [hrun] at h
  cases h
  exact (hr.seeAll hknown).acyclic

end Environment

end TermUnification
