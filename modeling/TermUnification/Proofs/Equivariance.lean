import Mathlib.Data.List.Sort
import Mathlib.Logic.Equiv.Basic
import TermUnification.Proofs.Termination

/-! Other variables. Exchanging variables for others, no two for one, changes the outcome of unification by
the same exchange and in no other way. So it matters which variables are equal, and neither their order nor
their names. Each function on the way is shown to go along with the exchange. -/
namespace TermUnification

namespace Term

section

variable (ρ : Variable → Variable)

mutual

/-- The term with other variables in it, and nothing else changed. -/
def mapVars : Term → Term
  | var v => var (ρ v)
  | wildcard => wildcard
  | scalar s => scalar s
  | seq ts => seq (mapVarsList ts)
  | map es => map (mapVarsEntries es)
  | composite l ts => composite l (mapVarsList ts)

def mapVarsList : List Term → List Term
  | [] => []
  | t :: ts => mapVars t :: mapVarsList ts

def mapVarsEntries : List (Term × Term) → List (Term × Term)
  | [] => []
  | (k, x) :: es => (mapVars k, mapVars x) :: mapVarsEntries es

end

end

variable {ρ : Variable → Variable}

theorem mapVarsList_eq (ts : List Term) : mapVarsList ρ ts = ts.map (mapVars ρ) := by
  induction ts with
  | nil => rfl
  | cons t ts ih => rw [mapVarsList, ih, List.map_cons]

theorem mapVarsEntries_eq (es : List (Term × Term)) :
    mapVarsEntries ρ es = es.map fun e => (e.1.mapVars ρ, e.2.mapVars ρ) := by
  induction es with
  | nil => rfl
  | cons e es ih => rw [mapVarsEntries, ih, List.map_cons]

@[simp] theorem mapVars_var (v : Variable) : (var v).mapVars ρ = var (ρ v) := rfl

@[simp] theorem mapVars_wildcard : wildcard.mapVars ρ = wildcard := rfl

@[simp] theorem mapVars_scalar (s : Scalar) : (scalar s).mapVars ρ = scalar s := rfl

@[simp] theorem mapVars_seq (ts : List Term) :
    (seq ts).mapVars ρ = seq (ts.map (mapVars ρ)) := congrArg seq (mapVarsList_eq ts)

@[simp] theorem mapVars_map (es : List (Term × Term)) :
    (map es).mapVars ρ = map (es.map fun e => (e.1.mapVars ρ, e.2.mapVars ρ)) :=
  congrArg map (mapVarsEntries_eq es)

@[simp] theorem mapVars_composite (l : Label) (ts : List Term) :
    (composite l ts).mapVars ρ = composite l (ts.map (mapVars ρ)) :=
  congrArg (composite l) (mapVarsList_eq ts)

@[simp] theorem isVar_mapVars (t : Term) : (t.mapVars ρ).isVar = t.isVar := by
  cases t <;> rfl

@[simp] theorem isWildcard_mapVars (t : Term) : (t.mapVars ρ).isWildcard = t.isWildcard := by
  cases t <;> rfl

@[simp] theorem members_mapVars (t : Term) :
    (t.mapVars ρ).members = t.members.map (mapVars ρ) := by
  cases t <;> simp [interleave_map]

theorem pairUp_map (f : Term → Term) (ts : List Term) :
    pairUp (ts.map f) = (pairUp ts).map fun e => (f e.1, f e.2) := by
  induction ts using pairUp.induct with
  | case1 k x ts ih => simp [pairUp, ih]
  | case2 ts h =>
    rcases ts with - | ⟨k, - | ⟨x, ts⟩⟩
    · rfl
    · rfl
    · exact absurd rfl (h k x ts)

theorem withMembers_mapVars {t : Term} (h : t.isVar = false) (us : List Term) :
    (t.mapVars ρ).withMembers (us.map (mapVars ρ)) = (t.withMembers us).mapVars ρ := by
  cases t <;> simp_all [isVar, withMembers, pairUp_map]

section Injective

variable (hρ : Function.Injective ρ)

include hρ

theorem occurs_mapVars (t : Term) (v : Variable) : (t.mapVars ρ).occurs (ρ v) = t.occurs v := by
  rw [Bool.eq_iff_iff]
  induction t using nodeInduction with
  | var w => simp [hρ.eq_iff]
  | node t ht ih =>
    rw [occurs_node ((isVar_mapVars t).trans ht), occurs_node ht, members_mapVars]
    simp only [List.mem_map, exists_exists_and_eq_and]
    exact exists_congr fun m => and_congr_right (ih m)

end Injective

/-- A walk that finds the exchanged terms for the exchanged variables finds the exchanged term. -/
theorem traverse_mapVars {f g : Variable → Option Term}
    (h : ∀ v, g (ρ v) = (f v).map (mapVars ρ)) (t : Term) :
    (t.mapVars ρ).traverse g = (t.traverse f).map (mapVars ρ) := by
  induction t using nodeInduction with
  | var v => exact h v
  | node t ht ih =>
    have hlist (ts : List Term)
        (hts : ∀ m ∈ ts, (m.mapVars ρ).traverse g = (m.traverse f).map (mapVars ρ)) :
        traverseList g (ts.map (mapVars ρ)) = (traverseList f ts).map (List.map (mapVars ρ)) := by
      induction ts with
      | nil => rfl
      | cons m ts ihs =>
        obtain ⟨hm, hts⟩ := List.forall_mem_cons.1 hts
        simp only [List.map_cons, traverseList, hm, ihs hts]
        cases m.traverse f <;> cases traverseList f ts <;> rfl
    rw [traverse_node g ((isVar_mapVars t).trans ht), traverse_node f ht, members_mapVars,
      hlist _ ih]
    cases traverseList f t.members with
    | none => rfl
    | some us => exact congrArg some (withMembers_mapVars ht us)

end Term

namespace Environment

/-- Environments are equal when they bind the same variables to the same terms. -/
theorem ext_lookup? {d e : Environment} (h : ∀ v, d.lookup? v = e.lookup? v) : d = e := by
  have hmem (b : Binding) : b ∈ d.bindings ↔ b ∈ e.bindings := by
    rw [← lookup?_eq_some_iff (v := b.1), ← lookup?_eq_some_iff (v := b.1), h]
  have irrefl : Std.Irrefl fun a b : Binding => a.1 < b.1 := ⟨fun a => Nat.lt_irrefl a.1.id⟩
  have antisymm : Std.Antisymm fun a b : Binding => a.1 < b.1 :=
    ⟨fun a b hab hba => absurd hba (Nat.lt_asymm hab)⟩
  obtain ⟨bs, hbs⟩ := d
  obtain ⟨cs, hcs⟩ := e
  obtain rfl : bs = cs := hbs.eq_of_mem_iff hcs hmem
  rfl

theorem card_domain (env : Environment) : env.domain.card = env.size := by
  have hnodup : (env.bindings.map Prod.fst).Nodup :=
    List.pairwise_map.2 (env.increasing.imp fun h he => Nat.ne_of_lt h (congrArg Variable.id he))
  rw [domain, List.toFinset_card_of_nodup hnodup, List.length_map, size]

/-- The environment with other variables, both those that are bound and those in what they are bound to. -/
def mapVars (ρ : Variable → Variable) (env : Environment) : Environment :=
  env.bindings.foldr (fun b e => e.set (ρ b.1) (b.2.mapVars ρ)) empty

variable {ρ : Variable → Variable}

theorem lookup?_mapVars_of_ne (env : Environment) {w : Variable} (hw : ∀ v, ρ v ≠ w) :
    (env.mapVars ρ).lookup? w = none := by
  rw [mapVars]
  induction env.bindings with
  | nil => rfl
  | cons b bs ih => rw [List.foldr_cons, lookup?_set, if_neg (hw b.1).symm, ih]

section Injective

variable (hρ : Function.Injective ρ)

include hρ

theorem lookup?_mapVars (env : Environment) (v : Variable) :
    (env.mapVars ρ).lookup? (ρ v) = (env.lookup? v).map (Term.mapVars ρ) := by
  have hlist (bs : List Binding) :
      (bs.foldr (fun b e => e.set (ρ b.1) (b.2.mapVars ρ)) empty).lookup? (ρ v) =
        (find? v bs).map (Term.mapVars ρ) := by
    induction bs with
    | nil => rfl
    | cons b bs ih =>
      rw [List.foldr_cons, lookup?_set, ih, find?]
      by_cases hv : v = b.1
      · rw [if_pos (congrArg ρ hv), if_pos hv, Option.map_some]
      · rw [if_neg (hρ.ne hv), if_neg hv]
  exact hlist env.bindings

theorem mapVars_set (env : Environment) (v : Variable) (t : Term) :
    (env.set v t).mapVars ρ = (env.mapVars ρ).set (ρ v) (t.mapVars ρ) := by
  refine ext_lookup? fun w => ?_
  by_cases hw : ∃ x, ρ x = w
  · obtain ⟨x, rfl⟩ := hw
    rw [lookup?_mapVars hρ, lookup?_set, lookup?_set, lookup?_mapVars hρ]
    by_cases hx : x = v
    · rw [if_pos hx, if_pos (congrArg ρ hx), Option.map_some]
    · rw [if_neg hx, if_neg (hρ.ne hx)]
  · have hne : ∀ x, ρ x ≠ w := fun x hx => hw ⟨x, hx⟩
    rw [lookup?_mapVars_of_ne _ hne, lookup?_set, if_neg (hne v).symm, lookup?_mapVars_of_ne _ hne]

theorem mapVars_bind (env : Environment) (v : Variable) (t : Term) :
    (env.bind v t).mapVars ρ = (env.mapVars ρ).bind (ρ v) (t.mapVars ρ) := by
  rw [bind, bind, Term.isWildcard_mapVars]
  split
  · rfl
  · exact mapVars_set hρ env v t

theorem domain_mapVars (env : Environment) : (env.mapVars ρ).domain = env.domain.image ρ := by
  ext w
  rw [mem_domain, Finset.mem_image]
  constructor
  · rintro ⟨t, ht⟩
    by_cases hw : ∃ v, ρ v = w
    · obtain ⟨v, rfl⟩ := hw
      rw [lookup?_mapVars hρ] at ht
      obtain ⟨s, hs, -⟩ := Option.map_eq_some_iff.1 ht
      exact ⟨v, mem_domain.2 ⟨s, hs⟩, rfl⟩
    · simp [lookup?_mapVars_of_ne env fun v hv => hw ⟨v, hv⟩] at ht
  · rintro ⟨v, hv, rfl⟩
    obtain ⟨s, hs⟩ := mem_domain.1 hv
    exact ⟨s.mapVars ρ, by rw [lookup?_mapVars hρ, hs, Option.map_some]⟩

theorem size_mapVars (env : Environment) : (env.mapVars ρ).size = env.size := by
  rw [← card_domain, ← card_domain, domain_mapVars hρ, Finset.card_image_of_injective _ hρ]

theorem follow?_mapVars (env : Environment) (n : Nat) (v : Variable) :
    (env.mapVars ρ).follow? n (ρ v) = (env.follow? n v).map (Term.mapVars ρ) := by
  induction n generalizing v with
  | zero => 
    rw [follow?, follow?, lookup?_mapVars hρ]
    cases env.lookup? v <;> rfl
  | succ n ih =>
    rw [follow?, follow?, lookup?_mapVars hρ]
    cases env.lookup? v with
    | none => rfl
    | some t => exact Term.traverse_mapVars ih t

theorem instantiate?_mapVars (env : Environment) (t : Term) :
    (env.mapVars ρ).instantiate? (t.mapVars ρ) = (env.instantiate? t).map (Term.mapVars ρ) := by
  rw [instantiate?, instantiate?, size_mapVars hρ]
  exact Term.traverse_mapVars (follow?_mapVars hρ env env.size) t

end Injective

end Environment

/-- The clash with other variables in its terms. -/
def Clash.mapVars (ρ : Variable → Variable) : Clash → Clash
  | mismatch a b => mismatch (a.mapVars ρ) (b.mapVars ρ)
  | arityMismatch m n => arityMismatch m n
  | occursCheck v t => occursCheck (ρ v) (t.mapVars ρ)

/-- The outcome of a unification with other variables. -/
def Outcome.mapVars (ρ : Variable → Variable) : Outcome Environment → Outcome Environment
  | done env => done (env.mapVars ρ)
  | clash cause => clash (cause.mapVars ρ)
  | endless => endless

namespace Step
open Term

/-- What is to be done with other variables. -/
def mapVars (ρ : Variable → Variable) : Step → Step
  | settled => settled
  | assign v t => assign (ρ v) (t.mapVars ρ)
  | members ps => members (ps.map fun p => (p.1.mapVars ρ, p.2.mapVars ρ))
  | clash cause => clash (cause.mapVars ρ)

variable {ρ : Variable → Variable}

theorem ofMembers_mapVars (m n : Nat) (ts us : List Term) :
    ofMembers m n ((ts.map (Term.mapVars ρ)).zip (us.map (Term.mapVars ρ))) =
      (ofMembers m n (ts.zip us)).mapVars ρ := by
  have hzip : (ts.map (Term.mapVars ρ)).zip (us.map (Term.mapVars ρ)) =
      (ts.zip us).map fun p => (p.1.mapVars ρ, p.2.mapVars ρ) := List.zip_map
  rw [hzip, ofMembers, ofMembers]
  split <;> rfl

/-- Comparison asks of variables only whether they are equal. -/
theorem between_mapVars (hρ : Function.Injective ρ) (a b : Term) :
    between (a.mapVars ρ) (b.mapVars ρ) = (between a b).mapVars ρ := by
  cases a <;> cases b <;> try rfl
  case var.var v w =>
    simp only [mapVars_var, between, hρ.eq_iff]
    split <;> rfl
  case scalar.scalar s t =>
    simp only [mapVars_scalar, between]
    split <;> rfl
  case seq.seq ts us =>
    simp only [mapVars_seq, between, List.length_map]
    exact ofMembers_mapVars _ _ ts us
  case map.map es fs =>
    simp only [mapVars_map, between, List.length_map, interleave_map]
    exact ofMembers_mapVars _ _ (interleave es) (interleave fs)
  case composite.composite l ts k us =>
    simp only [mapVars_composite, between, List.length_map]
    split
    · exact ofMembers_mapVars _ _ ts us
    · simp [mapVars, Clash.mapVars]

end Step

namespace Unifier
open Environment Term

variable {ρ : Variable → Variable}

theorem foldlM_mapVars {f g : Environment → Term × Term → Attempt Environment}
    (h : ∀ e p, (g (e.mapVars ρ) (p.1.mapVars ρ, p.2.mapVars ρ)).outcome =
      (f e p).outcome.mapVars ρ) (ps : List (Term × Term)) (env : Environment) :
    ((ps.map fun p => (p.1.mapVars ρ, p.2.mapVars ρ)).foldlM g (env.mapVars ρ)).outcome =
      (ps.foldlM f env).outcome.mapVars ρ := by
  induction ps generalizing env with
  | nil => rfl
  | cons p ps ih =>
    rw [List.map_cons, foldlM_cons_outcome, foldlM_cons_outcome, h]
    cases (f env p).outcome with
    | done e => exact ih e
    | clash cause => rfl
    | endless => rfl

section Injective

variable (hρ : Function.Injective ρ)

include hρ

theorem assign_mapVars (u : Unifier) (v : Variable) (t : Term) (env : Environment) :
    (u.assign (ρ v) (t.mapVars ρ) (env.mapVars ρ)).outcome =
      (u.assign v t env).outcome.mapVars ρ := by
  rw [assign, assign, occurs_mapVars hρ, ← mapVars_bind hρ]
  split <;> rfl

/-- A run within a number of levels goes along with the exchange. -/
theorem unifyWithin_mapVars (u : Unifier) (n : Nat) (a b : Term) (env : Environment) :
    (u.unifyWithin n (a.mapVars ρ) (b.mapVars ρ) (env.mapVars ρ)).outcome =
      (u.unifyWithin n a b env).outcome.mapVars ρ := by
  induction n generalizing a b env with
  | zero => rfl
  | succ n ih =>
    rw [unifyWithin, unifyWithin, reporting_outcome, reporting_outcome, instantiate?_mapVars hρ,
      instantiate?_mapVars hρ]
    cases env.instantiate? a with
    | none => rfl
    | some a' =>
      cases env.instantiate? b with
      | none => rfl
      | some b' =>
        simp only [Option.map_some, Step.between_mapVars hρ]
        cases Step.between a' b' with
        | settled => rfl
        | assign v t => exact assign_mapVars hρ u v t env
        | members ps => exact foldlM_mapVars (fun e p => ih p.1 p.2 e) ps env
        | clash cause => rfl

end Injective

/-- Unification with other variables, no two of them in place of one, comes to the same outcome with these
variables in it: in all bindings, or in the terms of the clash. With the occurs-check, on top of an acyclic
environment, there is one. -/
theorem unify_mapVars (ρ : Variable → Variable) (hρ : Function.Injective ρ) (u : Unifier) (a b : Term)
    (env : Environment) :
    (u.unify (a.mapVars ρ) (b.mapVars ρ) (env.mapVars ρ)).outcome =
      (u.unify a b env).outcome.mapVars ρ ∧
    (u.occursCheck = true → env.Acyclic → (u.unify a b env).outcome ≠ .endless) := by
  refine ⟨?_, fun hu henv => unify_ne_endless hu henv⟩
  let n := max (depthBound env a b) (depthBound (env.mapVars ρ) (a.mapVars ρ) (b.mapVars ρ))
  calc (u.unify (a.mapVars ρ) (b.mapVars ρ) (env.mapVars ρ)).outcome
      = (u.unifyWithin n (a.mapVars ρ) (b.mapVars ρ) (env.mapVars ρ)).outcome := by
        rw [unifyWithin_eq_unify (Nat.le_max_right _ _)]
    _ = (u.unifyWithin n a b env).outcome.mapVars ρ := unifyWithin_mapVars hρ u n a b env
    _ = (u.unify a b env).outcome.mapVars ρ := by rw [unifyWithin_eq_unify (Nat.le_max_left _ _)]

/-- Two variables exchanged, the first one being bound to [y]. The terms f(x, z) and f([1], g(y)) then lead to
the same bindings, in another order, and z and f(x, z) to the same refusal. -/
theorem unify_mapVars_swap :
    let x : Variable := ⟨0⟩
    let y : Variable := ⟨1⟩
    let z : Variable := ⟨2⟩
    let ρ : Variable → Variable := Equiv.swap x z
    let u := plain.withOccursCheck true
    let f (s t : Term) : Term := .compound "f" [s, t]
    let g (t : Term) : Term := .compound "g" [t]
    let b : Term := f (.seq [.int 1]) (g (.var y))
    Function.Injective ρ ∧ u.occursCheck = true ∧ (ofList [(x, .seq [.var y])]).Acyclic ∧
      (u.unify (f (.var x) (.var z)) b (ofList [(x, .seq [.var y])])).outcome =
        .done (ofList [(x, .seq [.var y]), (y, .int 1), (z, g (.int 1))]) ∧
      (u.unify (f (.var z) (.var x)) b (ofList [(z, .seq [.var y])])).outcome =
        .done (ofList [(z, .seq [.var y]), (y, .int 1), (x, g (.int 1))]) ∧
      (u.unify (.var z) (f (.var x) (.var z)) .empty).outcome =
        .clash (.occursCheck z (f (.var x) (.var z))) ∧
      (u.unify (.var x) (f (.var z) (.var x)) .empty).outcome =
        .clash (.occursCheck x (f (.var z) (.var x))) := by
  intro x y z ρ u f g b
  have hρ : Function.Injective ρ := (Equiv.swap x z).injective
  have hdone : (u.unify (f (.var x) (.var z)) b (ofList [(x, .seq [.var y])])).outcome =
      .done (ofList [(x, .seq [.var y]), (y, .int 1), (z, g (.int 1))]) := by decide
  have hclash : (u.unify (.var z) (f (.var x) (.var z)) .empty).outcome =
      .clash (.occursCheck z (f (.var x) (.var z))) := by decide
  have hdone' := (unify_mapVars ρ hρ u (f (.var x) (.var z)) b (ofList [(x, .seq [.var y])])).1
  have hclash' := (unify_mapVars ρ hρ u (.var z) (f (.var x) (.var z)) .empty).1
  rw [hdone] at hdone'
  rw [hclash] at hclash'
  exact ⟨hρ, rfl, acyclic_single (by decide), hdone, hdone', hclash, hclash'⟩

end Unifier

end TermUnification
