import Mathlib.Data.Set.Function
import TermUnification.Proofs.Elimination
import TermUnification.Proofs.Termination

/-! The order of the two arguments. Unification with the arguments exchanged takes the mirrored steps, but
of two variables it binds the other one. So the variables of the two runs correspond by a renaming that
changes at each such step. -/
namespace TermUnification

namespace Term

section Mirror

variable (ρ : Variable → Variable)

/-- A pair of terms, exchanged and renamed. -/
def mirrorPair (p : Term × Term) : Term × Term := (p.2.rename ρ, p.1.rename ρ)

theorem zip_mirror (ts us : List Term) :
    (us.map (rename ρ)).zip (ts.map (rename ρ)) = (ts.zip us).map (mirrorPair ρ) := by
  induction ts generalizing us with
  | nil => simp
  | cons t ts ih =>
    cases us with
    | nil => rfl
    | cons u us => simp [ih, mirrorPair]

end Mirror

/-- Are all variables of the term in the set? -/
def Over (F : Set Variable) (t : Term) : Prop := ∀ v, t.occurs v = true → v ∈ F

theorem over_single {F : Set Variable} {t : Term} {v x : Variable} (ht : t.Over F)
    (hv : t.occurs v = false) (hx : x ∈ F) : (single v t x).Over (F \ {v}) := by
  intro y hy
  by_cases hxv : x = v
  · rw [hxv, single_self] at hy
    refine ⟨ht y hy, ?_⟩
    rintro rfl
    simp [hv] at hy
  · rw [single_of_ne hxv, occurs_var] at hy
    exact hy ▸ ⟨hx, hxv⟩

theorem Over.subst_single {F : Set Variable} {s t : Term} {v : Variable} (hs : s.Over F)
    (ht : t.Over F) (hv : t.occurs v = false) : (s.subst (single v t)).Over (F \ {v}) := by
  intro y hy
  obtain ⟨x, hx, hxy⟩ := (occurs_subst _ _ _).1 hy
  exact over_single ht hv (hs x hx) y hxy

theorem Over.member {F : Set Variable} {t m : Term} (h : t.Over F) (hm : m ∈ t.members) :
    m.Over F := fun v hv => h v (occurs_of_member hm hv)

/-- The elimination of a variable on one side of a renaming and of one on the other side, with the
renaming that is left. -/
structure Exchange (F : Set Variable) (ρ : Variable → Variable) (v : Variable) (t : Term)
    (v' : Variable) (t' : Term) (ρ' : Variable → Variable) : Prop where
  injective : Set.InjOn ρ' (F \ {v})
  commutes : ∀ x ∈ F, single v' t' (ρ x) = (single v t x).rename ρ'

section Exchange

variable {F : Set Variable} {ρ : Variable → Variable} (hρ : Set.InjOn ρ F) {v w : Variable}
  (hv : v ∈ F)

include hρ hv

theorem exchange_self (t : Term) : Exchange F ρ v t (ρ v) (t.rename ρ) ρ := by
  refine ⟨hρ.mono Set.sdiff_subset, fun x hx => ?_⟩
  by_cases hxv : x = v
  · rw [hxv, single_self, single_self]
  · rw [single_of_ne hxv, single_of_ne fun he => hxv (hρ hx hv he), rename_var]

/-- When two variables are bound to each other, the one that stays takes the place of the other. -/
theorem exchange_vars (hw : w ∈ F) (hne : v ≠ w) :
    Exchange F ρ v (var w) (ρ w) (var (ρ v)) (Function.update ρ w (ρ v)) := by
  constructor
  · intro x hx y hy hxy
    by_cases hxw : x = w
    · by_cases hyw : y = w
      · rw [hxw, hyw]
      · rw [hxw, Function.update_self, Function.update_of_ne hyw] at hxy
        exact absurd (hρ hv hy.1 hxy).symm hy.2
    · by_cases hyw : y = w
      · rw [hyw, Function.update_self, Function.update_of_ne hxw] at hxy
        exact absurd (hρ hx.1 hv hxy) hx.2
      · rw [Function.update_of_ne hxw, Function.update_of_ne hyw] at hxy
        exact hρ hx.1 hy.1 hxy
  · intro x hx
    by_cases hxw : x = w
    · rw [hxw, single_self, single_of_ne hne.symm, rename_var, Function.update_self]
    · rw [single_of_ne fun he => hxw (hρ hx hw he)]
      by_cases hxv : x = v
      · rw [hxv, single_self, rename_var, Function.update_self]
      · rw [single_of_ne hxv, rename_var, Function.update_of_ne hxw]

end Exchange

theorem Exchange.rename_subst {F : Set Variable} {ρ ρ' : Variable → Variable} {v v' : Variable}
    {s t t' : Term} (h : Exchange F ρ v t v' t' ρ') (hs : s.Over F) :
    (s.rename ρ).subst (single v' t') = (s.subst (single v t)).rename ρ' := by
  rw [Term.rename_subst, subst_rename]
  exact subst_congr fun x hx => h.commutes x (hs x hx)

theorem Exchange.map_mirrorPair {F : Set Variable} {ρ ρ' : Variable → Variable} {v v' : Variable}
    {t t' : Term} (h : Exchange F ρ v t v' t' ρ') {ps : List (Term × Term)}
    (hps : ∀ p ∈ ps, p.1.Over F ∧ p.2.Over F) :
    (substPairs (single v t) ps).map (mirrorPair ρ') =
      substPairs (single v' t') (ps.map (mirrorPair ρ)) := by
  rw [substPairs, substPairs, List.map_map, List.map_map]
  apply List.map_congr_left
  intro p hp
  obtain ⟨h1, h2⟩ := hps p hp
  simp only [Function.comp_apply, mirrorPair, h.rename_subst h1, h.rename_subst h2]

end Term

/-- The clash of the renamed terms in the other order. -/
def Clash.mirror (ρ : Variable → Variable) : Clash → Clash
  | mismatch left right => mismatch (right.rename ρ) (left.rename ρ)
  | arityMismatch left right => arityMismatch right left
  | occursCheck v t => occursCheck (ρ v) (t.rename ρ)

namespace Step
open Term

/-- What the renamed terms leave to be done in the other order. -/
def mirror (ρ : Variable → Variable) : Step → Step
  | settled => settled
  | assign v t => assign (ρ v) (t.rename ρ)
  | members pairs => members (pairs.map (mirrorPair ρ))
  | clash cause => clash (cause.mirror ρ)

theorem ofMembers_mirror (ρ : Variable → Variable) (m n : Nat) (ts us : List Term) :
    ofMembers n m ((us.map (rename ρ)).zip (ts.map (rename ρ))) =
      (ofMembers m n (ts.zip us)).mirror ρ := by
  rw [zip_mirror, ofMembers, ofMembers]
  by_cases h : m = n
  · rw [if_pos h, if_pos h.symm, mirror]
  · rw [if_neg h, if_neg (Ne.symm h), mirror, Clash.mirror]

/-- Comparison in the other order leaves the mirrored step, except for two variables. -/
theorem between_mirror (ρ : Variable → Variable) {a b : Term}
    (h : a.isVar = false ∨ b.isVar = false) :
    between (b.rename ρ) (a.rename ρ) = (between a b).mirror ρ := by
  cases a <;> cases b
  case scalar.scalar s t =>
    simp only [rename_scalar, between, Scalar.agrees_comm t s, apply_ite (mirror ρ)]
    rfl
  case seq.seq ts us =>
    rw [rename_seq, rename_seq, between, between, List.length_map, List.length_map,
      ofMembers_mirror]
  case map.map es fs =>
    rw [rename_map, rename_map, between, between, List.length_map, List.length_map,
      interleave_map, interleave_map, ofMembers_mirror]
  case composite.composite l ts k us =>
    rw [rename_composite, rename_composite, between, between, apply_ite (mirror ρ)]
    simp only [Label.tag_rebuild, Label.arity_rebuild, List.length_map, ofMembers_mirror]
    exact if_congr eq_comm rfl (by simp [mirror, Clash.mirror])
  all_goals simp_all [isVar, between, mirror, Clash.mirror]

theorem eq_vars_of_not {a b : Term} (h : ¬ (a.isVar = false ∨ b.isVar = false)) :
    ∃ v w, a = var v ∧ b = var w := by
  cases a <;> cases b <;> simp_all [isVar]

theorem between_mirror_of_ne_assign (ρ : Variable → Variable) {a b : Term} {s : Step}
    (h : between a b = s) (hs : ∀ v t, s ≠ assign v t) :
    between (b.rename ρ) (a.rename ρ) = s.mirror ρ := by
  subst h
  by_cases hvars : a.isVar = false ∨ b.isVar = false
  · exact between_mirror ρ hvars
  · obtain ⟨v, w, rfl, rfl⟩ := eq_vars_of_not hvars
    have hvw : v = w := by
      by_contra hne
      exact hs v (var w) (by simp [between, hne])
    simp [hvw, between, mirror]

/-- A variable that would be bound to a larger term is in the same place in the other order. -/
theorem between_mirror_of_occurs (ρ : Variable → Variable) {a b t : Term} {v : Variable}
    (h : between a b = assign v t) (hv : t.occurs v = true) :
    between (b.rename ρ) (a.rename ρ) = assign (ρ v) (t.rename ρ) := by
  by_cases hvars : a.isVar = false ∨ b.isVar = false
  · rw [between_mirror ρ hvars, h, mirror]
  · obtain ⟨x, w, rfl, rfl⟩ := eq_vars_of_not hvars
    simp only [between, ite_eq_iff, reduceCtorEq, and_false, false_or, assign.injEq] at h
    obtain ⟨hne, rfl, rfl⟩ := h
    exact absurd ((occurs_var _ _).1 hv).symm hne

/-- A variable that gets bound is met by one that gets bound in the other order. -/
theorem exists_exchange {F : Set Variable} {ρ : Variable → Variable} (hρ : Set.InjOn ρ F)
    {a b t : Term} {v : Variable} (hvF : v ∈ F) (htF : t.Over F) (h : between a b = assign v t)
    (hv : t.occurs v = false) :
    ∃ v' t' ρ', between (b.rename ρ) (a.rename ρ) = assign v' t' ∧ t'.occurs v' = false ∧
      Exchange F ρ v t v' t' ρ' := by
  by_cases hvars : a.isVar = false ∨ b.isVar = false
  · refine ⟨ρ v, t.rename ρ, ρ, by rw [between_mirror ρ hvars, h, mirror], ?_,
      exchange_self hρ hvF t⟩
    refine Bool.eq_false_iff.2 fun hocc => ?_
    obtain ⟨x, hx, hxv⟩ := (occurs_rename ρ).1 hocc
    rw [hρ (htF x hx) hvF hxv, hv] at hx
    cases hx
  · obtain ⟨x, w, rfl, rfl⟩ := eq_vars_of_not hvars
    simp only [between, ite_eq_iff, reduceCtorEq, and_false, false_or, assign.injEq] at h
    obtain ⟨hne, rfl, rfl⟩ := h
    have hwF : w ∈ F := htF w (by simp)
    have hρne : ρ w ≠ ρ x := fun he => hne (hρ hwF hvF he).symm
    refine ⟨ρ w, var (ρ x), _, by simp [between, hρne], ?_, exchange_vars hρ hvF hwF hne⟩
    simp [occurs, hρne.symm]

end Step

namespace Unifier
open Term

/-- Elimination from the mirrored equations makes bindings that correspond by a renaming of what is left of
the variables. -/
theorem Eliminates.mirror {ps : List (Term × Term)} {bs : List Binding} {c : Option Clash}
    (h : Eliminates ps bs c) {F : Set Variable} {ρ : Variable → Variable} (hρ : Set.InjOn ρ F)
    (hps : ∀ p ∈ ps, p.1.Over F ∧ p.2.Over F) :
    ∃ bs' ρ', Eliminates (ps.map (mirrorPair ρ)) bs' (c.map (Clash.mirror ρ')) ∧
      Set.InjOn ρ' {v ∈ F | v ∉ bs.map Prod.fst} ∧
      ∀ v ∈ F, elimination bs' (ρ v) = (elimination bs v).rename ρ' := by
  induction h generalizing F ρ with
  | nil => exact ⟨[], ρ, .nil, by simpa using hρ, fun v _ => rfl⟩
  | settled step _ ih =>
    obtain ⟨bs', ρ', helim, hrest⟩ := ih hρ (List.forall_mem_cons.1 hps).2
    have hstep := Step.between_mirror_of_ne_assign ρ step (by simp)
    exact ⟨bs', ρ', .settled hstep helim, hrest⟩
  | @assign a b v t ps bs c step check _ ih =>
    obtain ⟨⟨ha, hb⟩, hps⟩ := List.forall_mem_cons.1 hps
    have hover : v ∈ F ∧ t.Over F := by
      obtain ⟨⟨rfl, rfl⟩ | ⟨rfl, rfl⟩, -, -⟩ := Step.between_assign step
      · exact ⟨ha v (by simp), hb⟩
      · exact ⟨hb v (by simp), ha⟩
    obtain ⟨hv, ht⟩ := hover
    obtain ⟨v', t', ρ₁, hstep, hcheck, hex⟩ := Step.exists_exchange hρ hv ht step check
    have hrest : ∀ p ∈ substPairs (single v t) ps, p.1.Over (F \ {v}) ∧ p.2.Over (F \ {v}) := by
      intro p hp
      obtain ⟨q, hq, rfl⟩ := List.mem_map.1 hp
      exact ⟨(hps q hq).1.subst_single ht check, (hps q hq).2.subst_single ht check⟩
    obtain ⟨bs', ρ', helim, hinj, hvalue⟩ := ih hex.injective hrest
    rw [hex.map_mirrorPair hps] at helim
    refine ⟨(v', t') :: bs', ρ', .assign hstep hcheck helim, ?_, fun x hx => ?_⟩
    · refine hinj.mono fun x hx => ?_
      obtain ⟨hxF, hx⟩ := hx
      rw [List.map_cons, List.mem_cons, not_or] at hx
      exact ⟨⟨hxF, hx.1⟩, hx.2⟩
    · rw [elimination, elimination, hex.commutes x hx, rename_subst, subst_rename]
      exact subst_congr fun y hy => hvalue y (over_single ht check hx y hy)
  | members step _ ih =>
    obtain ⟨⟨ha, hb⟩, hps⟩ := List.forall_mem_cons.1 hps
    have hstep := Step.between_mirror_of_ne_assign ρ step (by simp)
    obtain ⟨-, -, rfl⟩ := Step.between_members step
    have hall := List.forall_mem_append.2 ⟨fun q hq =>
      ⟨ha.member (List.of_mem_zip hq).1, hb.member (List.of_mem_zip hq).2⟩, hps⟩
    obtain ⟨bs', ρ', helim, hrest⟩ := ih hρ hall
    rw [List.map_append] at helim
    exact ⟨bs', ρ', .members hstep helim, hrest⟩
  | occurs step check =>
    have hstep := Step.between_mirror_of_occurs ρ step check
    refine ⟨[], ρ, .occurs hstep ((occurs_rename ρ).2 ⟨_, check, rfl⟩), by simpa using hρ,
      fun v _ => rfl⟩
  | clash step =>
    have hstep := Step.between_mirror_of_ne_assign ρ step (by simp)
    exact ⟨[], ρ, .clash hstep, by simpa using hρ, fun v _ => rfl⟩

open Environment

theorem map_mirrorPair_id {env : Environment} (henv : env.Acyclic) (ps : List (Term × Term)) :
    (substPairs env.value ps).map (mirrorPair id) = substPairs env.value (ps.map Prod.swap) := by
  rw [substPairs, substPairs, List.map_map, List.map_map]
  apply List.map_congr_left
  intro p _
  exact Prod.ext (henv.subst_var_subst p.2) (henv.subst_var_subst p.1)

/-- Two outcomes that are the same, up to a renaming of the variables that are still fresh and the order
of the arguments. -/
inductive Mirrored : Outcome Environment → Outcome Environment → Prop
  | done {d e : Environment} (ρ : Variable → Variable)
      (injective : Set.InjOn ρ {v | d.lookup? v = none})
      (value : ∀ t : Term, t.subst e.value = (t.subst d.value).rename ρ) :
      Mirrored (.done d) (.done e)
  | clash (ρ : Variable → Variable) (cause : Clash) :
      Mirrored (.clash cause) (.clash (cause.mirror ρ))

theorem Mirrored.done_iff {x y : Outcome Environment} (h : Mirrored x y) :
    (∃ d, x = .done d) ↔ ∃ e, y = .done e := by
  cases h <;> simp

theorem Mirrored.exists_renaming {d e : Environment} (h : Mirrored (.done d) (.done e)) :
    ∃ ρ : Variable → Variable, Set.InjOn ρ {v | d.lookup? v = none} ∧
      ∀ t : Term, t.subst e.value = (t.subst d.value).rename ρ := by
  cases h with
  | done ρ injective value => exact ⟨ρ, injective, value⟩

theorem Mirrored.exists_mirror {c c' : Clash} (h : Mirrored (.clash c) (.clash c')) :
    ∃ ρ, c' = c.mirror ρ := by
  cases h with
  | clash ρ => exact ⟨ρ, rfl⟩

/-- Equations with their sides exchanged have the mirrored outcome. -/
theorem Solves.mirrored {ps : List (Term × Term)} {env : Environment} {out out' : Outcome Environment}
    (henv : env.Acyclic) (h : Solves ps env out) (h' : Solves (ps.map Prod.swap) env out') :
    Mirrored out out' := by
  obtain ⟨bs, c, helim, rfl, hbs⟩ := h.eliminates
  obtain ⟨bs', c', helim', rfl, hbs'⟩ := h'.eliminates
  have hover : ∀ t : Term, t.Over Set.univ := fun _ v _ => Set.mem_univ v
  obtain ⟨cs, ρ, hmirror, hinj, hvalue⟩ :=
    helim.mirror (Set.injOn_id Set.univ) (fun p _ => ⟨hover p.1, hover p.2⟩)
  rw [map_mirrorPair_id henv] at hmirror
  obtain ⟨rfl, rfl⟩ := helim'.unique hmirror
  cases c with
  | some cause => exact .clash ρ cause
  | none =>
    have hd : Elaborates env bs (env.extend bs) := hbs _ rfl
    have he : Elaborates env bs' (env.extend bs') := hbs' _ rfl
    apply Mirrored.done ρ
    · refine hinj.mono fun v hv => ?_
      exact ⟨Set.mem_univ v, hd.unbound v hv⟩
    · intro t
      rw [hd.value, he.value, subst_rename]
      exact subst_congr fun v _ => hvalue v (Set.mem_univ v)

/-- The order of the two arguments does not matter, up to a renaming of the variables that stay fresh, and
to the order of the two sides in a clash. -/
theorem unify_comm (u : Unifier) (hu : u.occursCheck = true) (env : Environment)
    (henv : env.Acyclic) (a b : Term) :
    ((∃ d, (u.unify a b env).outcome = .done d) ↔ ∃ e, (u.unify b a env).outcome = .done e) ∧
    (∀ d e, (u.unify a b env).outcome = .done d → (u.unify b a env).outcome = .done e →
      ∃ ρ : Variable → Variable,
        (∀ v w, d.isFresh v = true → d.isFresh w = true → ρ v = ρ w → v = w) ∧
        ∀ t, ∃ i, d.instantiate? t = some i ∧ e.instantiate? t = some (i.rename ρ)) ∧
    ∀ c c', (u.unify a b env).outcome = .clash c → (u.unify b a env).outcome = .clash c' →
      ∃ ρ, c' = c.mirror ρ := by
  have hab : Solves [(a, b)] env (u.unify a b env).outcome := solves_unify hu henv
  have hba : Solves [(b, a)] env (u.unify b a env).outcome := solves_unify hu henv
  have hmirror := hab.mirrored henv hba
  refine ⟨hmirror.done_iff, fun d e hd he => ?_, fun c c' hc hc' => ?_⟩
  · have hda := (hab.acyclic_extends hd).1
    have hea := (hba.acyclic_extends he).1
    rw [hd, he] at hmirror
    obtain ⟨ρ, hinj, hvalue⟩ := hmirror.exists_renaming
    refine ⟨ρ, fun v w hv hw => hinj (isFresh_iff.1 hv) (isFresh_iff.1 hw), fun t => ?_⟩
    exact ⟨_, hda.instantiate?_eq t, by rw [hea.instantiate?_eq, hvalue]⟩
  · rw [hc, hc'] at hmirror
    exact hmirror.exists_mirror

/-- The variable z is bound to f(x). The terms [z, x, 1] and [f(y), w, 1.0] lead to different bindings in the
two orders, and [z, x, y] and [f(y), w, [x]] to the refusal of different variables. -/
theorem unify_comm_chain :
    let x : Variable := ⟨0⟩
    let y : Variable := ⟨1⟩
    let z : Variable := ⟨2⟩
    let w : Variable := ⟨3⟩
    let f (t : Term) : Term := .compound "f" [t]
    let u := plain.withOccursCheck true
    let env := ofList [(z, f (.var x))]
    let a : Term := .seq [.var z, .var x, .int 1]
    let b : Term := .seq [f (.var y), .var w, .scalar (.float ⟨0x3ff0000000000000⟩)]
    let d := ofList [(z, f (.var x)), (x, .var y), (y, .var w)]
    let e := ofList [(z, f (.var x)), (y, .var x), (w, .var x)]
    let a' : Term := .seq [.var z, .var x, .var y]
    let b' : Term := .seq [f (.var y), .var w, .seq [.var x]]
    env.Acyclic ∧ (u.unify a b env).outcome = .done d ∧ (u.unify b a env).outcome = .done e ∧
      (∃ ρ : Variable → Variable,
        (∀ v w, d.isFresh v = true → d.isFresh w = true → ρ v = ρ w → v = w) ∧
        ∀ t, ∃ i, d.instantiate? t = some i ∧ e.instantiate? t = some (i.rename ρ)) ∧
      (u.unify a' b' env).outcome = .clash (.occursCheck w (.seq [.var w])) ∧
      (u.unify b' a' env).outcome = .clash (.occursCheck x (.seq [.var x])) ∧
      ∃ ρ, .occursCheck x (.seq [.var x]) = (Clash.occursCheck w (.seq [.var w])).mirror ρ := by
  intro x y z w f u env a b d e a' b'
  have henv : env.Acyclic := acyclic_single (by decide)
  have hd : (u.unify a b env).outcome = .done d := by decide
  have he : (u.unify b a env).outcome = .done e := by decide
  have hc : (u.unify a' b' env).outcome = .clash (.occursCheck w (.seq [.var w])) := by decide
  have hc' : (u.unify b' a' env).outcome = .clash (.occursCheck x (.seq [.var x])) := by decide
  obtain ⟨-, hsame, -⟩ := unify_comm u rfl env henv a b
  obtain ⟨-, -, hclash⟩ := unify_comm u rfl env henv a' b'
  exact ⟨henv, hd, he, hsame d e hd he, hc, hc', hclash _ _ hc hc'⟩

end Unifier

end TermUnification
