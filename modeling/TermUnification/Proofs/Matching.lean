import TermUnification.Proofs.Parts
import TermUnification.Proofs.Termination

/-! Soundness: what unification returns makes the two terms match. Matching is equality but for wildcards,
numbers of two kinds, values that are no numbers, and stated arities. -/
namespace TermUnification

namespace Term

/-- Two terms that agree at every position where neither has a wildcard. -/
inductive Matches : Term → Term → Prop
  | wildcardLeft (t : Term) : Matches wildcard t
  | wildcardRight (t : Term) : Matches t wildcard
  | refl (t : Term) : Matches t t
  | scalars {s t : Scalar} (agree : s.agrees t = true) : Matches (scalar s) (scalar t)
  | seq {ts us : List Term} (size : ts.length = us.length)
      (items : ∀ p ∈ ts.zip us, Matches p.1 p.2) : Matches (seq ts) (seq us)
  | map {es fs : List (Term × Term)} (size : es.length = fs.length)
      (entries : ∀ p ∈ (interleave es).zip (interleave fs), Matches p.1 p.2) :
      Matches (map es) (map fs)
  | composite {l k : Label} {ts us : List Term} (tag : l.tag = k.tag)
      (arity : l.arity ts.length = k.arity us.length)
      (args : ∀ p ∈ ts.zip us, Matches p.1 p.2) : Matches (composite l ts) (composite k us)

theorem matches_of_members {a b : Term} (halike : Alike a b) (harity : SameArity a b)
    (h : ∀ p ∈ a.members.zip b.members, Matches p.1 p.2) : Matches a b := by
  cases a <;> cases b <;> simp only [Alike] at halike
  · exact .seq harity h
  · exact .map harity h
  · exact .composite halike harity h

theorem SameArity.subst {a b : Term} (h : SameArity a b) (σ τ : Variable → Term) :
    SameArity (a.subst σ) (b.subst τ) := by
  cases a <;> cases b <;> simp_all [SameArity]

theorem matches_subst_of_members {a b : Term} (halike : Alike a b) (harity : SameArity a b)
    (σ : Variable → Term)
    (h : ∀ p ∈ a.members.zip b.members, Matches (p.1.subst σ) (p.2.subst σ)) :
    Matches (a.subst σ) (b.subst σ) := by
  refine matches_of_members (halike.subst σ σ) (harity.subst σ σ) fun p hp => ?_
  rw [members_subst σ halike.isVar_eq_false, members_subst σ halike.symm.isVar_eq_false,
    List.zip_map] at hp
  obtain ⟨q, hq, rfl⟩ := List.mem_map.1 hp
  exact h q hq

/-- Terms that match go on to match under every substitution. -/
theorem Matches.subst {a b : Term} (h : Matches a b) (σ : Variable → Term) :
    Matches (a.subst σ) (b.subst σ) := by
  induction h with
  | wildcardLeft t => exact .wildcardLeft _
  | wildcardRight t => exact .wildcardRight _
  | refl t => exact .refl _
  | scalars agree => exact .scalars agree
  | seq size _ ih =>
    exact matches_subst_of_members (a := .seq _) (b := .seq _) trivial size σ ih
  | map size _ ih =>
    exact matches_subst_of_members (a := .map _) (b := .map _) trivial size σ ih
  | composite tag arity _ ih =>
    exact matches_subst_of_members (a := .composite _ _) (b := .composite _ _) tag arity σ ih

/-- Two settled terms match, whatever is substituted later. -/
theorem matches_of_settled {a b : Term} (h : Step.between a b = .settled) : Matches a b := by
  rcases Step.between_settled h with rfl | rfl | ⟨v, rfl, rfl⟩ | ⟨s, t, rfl, rfl, hst⟩
  · exact .wildcardLeft b
  · exact .wildcardRight a
  · exact .refl _
  · exact .scalars hst

/-- Parts of terms for which matching is equality. -/
structure Plain (ts : List Term) : Prop where
  wildcards : ∀ t ∈ ts, t.isWildcard = false
  nans : ∀ t ∈ ts, t.isNaN = false
  numbers : (∀ t ∈ ts, t.isInt = false) ∨ (∀ t ∈ ts, t.isFloat = false)
  arities : ∀ t ∈ ts, t.hasTrueArity = true

/-- What a part has to be like, with the kind of number that is missing. -/
def isPlain (ints : Bool) (t : Term) : Bool :=
  !t.isWildcard && (!t.isNaN && (!(if ints then t.isFloat else t.isInt) && t.hasTrueArity))

theorem headTest_isPlain (ints : Bool) : HeadTest (isPlain ints) :=
  headTest_of_withMembers (fun _ => by cases ints <;> rfl) fun t us ht hlen h => by
    cases ints <;> cases t <;>
      simp_all [isPlain, isVar, isWildcard, isNaN, isInt, isFloat, hasTrueArity, withMembers]

theorem Plain.isPlain {ts : List Term} (h : Plain ts) :
    ∃ ints, ∀ t ∈ ts, t.isPlain ints = true := by
  rcases h.numbers with hn | hn
  · exact ⟨false, fun t ht => by
      simp [Term.isPlain, h.wildcards t ht, h.nans t ht, hn t ht, h.arities t ht]⟩
  · exact ⟨true, fun t ht => by
      simp [Term.isPlain, h.wildcards t ht, h.nans t ht, hn t ht, h.arities t ht]⟩

/-- A term equals itself when it holds no value that is no number. -/
theorem same_self_iff {t : Term} : Same t t ↔ t.Every notNaN := by
  induction t using nodeInduction with
  | var v => simp [Same, Every, parts, notNaN, isNaN]
  | node t ht ih =>
    cases hc : t.isComposite with
    | true =>
      have hhead : t.notNaN = true := by cases t <;> simp_all [isComposite, notNaN, isNaN]
      rw [same_iff_of_alike (alike_self hc), List.forall₂_same, every_iff, and_iff_right hhead]
      exact forall₂_congr ih
    | false =>
      cases t <;> simp_all [isVar, isComposite, Same, Every, parts, notNaN, isNaN]

theorem same_self {ints : Bool} {t : Term} (h : t.Every (isPlain ints)) : Same t t :=
  same_self_iff.2 (h.imp fun s hs => by simp_all [isPlain, notNaN])

theorem same_of_members {ints : Bool} {a b : Term} (ha : a.Every (isPlain ints))
    (hb : b.Every (isPlain ints)) (halike : Alike a b) (harity : SameArity a b)
    (h : ∀ p ∈ a.members.zip b.members, p.1.Every (isPlain ints) → p.2.Every (isPlain ints) →
      Same p.1 p.2) : Same a b := by
  have hlen : a.members.length = b.members.length := by
    have h1 := ha.head
    have h2 := hb.head
    simp only [isPlain, Bool.and_eq_true] at h1 h2
    exact (sameArity_iff halike h1.2.2.2 h2.2.2.2).1 harity
  rw [same_iff_of_alike halike, List.forall₂_iff_zip]
  refine ⟨hlen, fun {x y} hxy => ?_⟩
  obtain ⟨hx, hy⟩ := List.of_mem_zip hxy
  exact h (x, y) hxy (ha.member hx) (hb.member hy)

/-- Plain terms that match are equal. -/
theorem Matches.same {ints : Bool} {a b : Term} (h : Matches a b) (ha : a.Every (isPlain ints))
    (hb : b.Every (isPlain ints)) : Same a b := by
  induction h with
  | wildcardLeft t => simpa [isPlain, isWildcard] using ha.head
  | wildcardRight t => simpa [isPlain, isWildcard] using hb.head
  | refl t => exact same_self ha
  | @scalars s t agree =>
    have h1 := ha.head
    have h2 := hb.head
    cases s <;> cases t <;> cases ints <;>
      simp_all [Same, isPlain, isWildcard, isNaN, isInt, isFloat, hasTrueArity, Scalar.agrees]
  | seq size _ ih =>
    exact same_of_members (a := .seq _) (b := .seq _) ha hb trivial size ih
  | map size _ ih =>
    exact same_of_members (a := .map _) (b := .map _) ha hb trivial size ih
  | composite tag arity _ ih =>
    exact same_of_members (a := .composite _ _) (b := .composite _ _) ha hb tag arity ih

end Term

namespace Unifier
open Term Environment

/-- A solved list of pairs matches in the final environment: later bindings undo no match. -/
theorem Solves.matches {ps : List (Term × Term)} {env e : Environment}
    {out : Outcome Environment} (h : Solves ps env out) (hout : out = .done e) :
    ∀ p ∈ ps, Matches (p.1.subst e.value) (p.2.subst e.value) := by
  induction h with
  | nil => simp
  | @settled env a b ps out henv step rest ih =>
    obtain ⟨he, hext⟩ := rest.acyclic_extends hout
    have hmatch := (matches_of_settled step).subst e.value
    rw [hext.subst_subst he, hext.subst_subst he] at hmatch
    exact List.forall_mem_cons.2 ⟨hmatch, ih hout⟩
  | @assign env a b v t ps out henv step new rest ih =>
    obtain ⟨he, hset⟩ := rest.acyclic_extends hout
    have hext := hset.trans new.set_extends
    have hbound : e.value v = t.subst e.value :=
      he.value_of_bound (hset v t (by simp))
    have heq : a.subst e.value = b.subst e.value := by
      rw [← hext.subst_subst he a, ← hext.subst_subst he b]
      obtain ⟨⟨ha, hb⟩ | ⟨ha, hb⟩, -, -⟩ := Step.between_assign step
      · rw [ha, hb, subst_var, hbound]
      · rw [ha, hb, subst_var, hbound]
    exact List.forall_mem_cons.2 ⟨heq ▸ .refl _, ih hout⟩
  | @members env a b qs ps out henv step rest ih =>
    obtain ⟨he, hext⟩ := rest.acyclic_extends hout
    obtain ⟨halike, harity, rfl⟩ := Step.between_members step
    obtain ⟨hqs, hps⟩ := List.forall_mem_append.1 (ih hout)
    have hmatch := matches_subst_of_members halike harity e.value hqs
    rw [hext.subst_subst he, hext.subst_subst he] at hmatch
    exact List.forall_mem_cons.2 ⟨hmatch, hps⟩
  | occurs => cases hout
  | clash => cases hout

/-- Soundness. What two unified terms stand for in the resulting environment matches, and is equal
when the terms and the environment are plain. -/
theorem unify_matches (u : Unifier) (hu : u.occursCheck = true) (env : Environment)
    (henv : env.Acyclic) (a b : Term) (env' : Environment)
    (h : (u.unify a b env).outcome = .done env') :
    ∃ a' b', env'.instantiate? a = some a' ∧ env'.instantiate? b = some b' ∧ Matches a' b' ∧
      (Plain (a.parts ++ b.parts ++ env.parts) → (a' == b') = true) := by
  have hsolves := solves_unify hu henv (a := a) (b := b)
  obtain ⟨henv', -⟩ := hsolves.acyclic_extends h
  have hmatch := hsolves.matches h (a, b) (by simp)
  refine ⟨_, _, henv'.instantiate?_eq a, henv'.instantiate?_eq b, hmatch, fun hplain => ?_⟩
  obtain ⟨ints, hall⟩ := hplain.isPlain
  have ha : a.Every (isPlain ints) := fun s hs => hall s (by simp [hs])
  have hb : b.Every (isPlain ints) := fun s hs => hall s (by simp [hs])
  have he : env.Every (isPlain ints) := fun s hs => hall s (by simp [hs])
  have hhead := headTest_isPlain ints
  have he' := hsolves.every hhead h he (by simp [ha, hb])
  exact hmatch.same (he'.subst_value hhead henv' ha) (he'.subst_value hhead henv' hb)

/-- The variable x is bound to f(y), and [x, 1] is unified with [f([_, 2]), 1.0]. -/
theorem unify_matches_coerced :
    let x : Variable := ⟨0⟩
    let y : Variable := ⟨1⟩
    let env := ofList [(x, .compound "f" [.var y])]
    let env' := ofList [(x, .compound "f" [.var y]), (y, .seq [.wildcard, .int 2])]
    let a : Term := .seq [.var x, .int 1]
    let b : Term := .seq [.compound "f" [.seq [.wildcard, .int 2]], .scalar (.float ⟨0x3ff0000000000000⟩)]
    env.Acyclic ∧ ((plain.withOccursCheck true).unify a b env).outcome = .done env' ∧
      ∃ a' b', env'.instantiate? a = some a' ∧ env'.instantiate? b = some b' ∧ Matches a' b' ∧
        (Plain (a.parts ++ b.parts ++ env.parts) → (a' == b') = true) := by
  intro x y env env' a b
  have henv : env.Acyclic := acyclic_single (by decide)
  have hout : ((plain.withOccursCheck true).unify a b env).outcome = .done env' := by decide
  exact ⟨henv, hout, unify_matches _ rfl env henv a b env' hout⟩

end Unifier

end TermUnification
