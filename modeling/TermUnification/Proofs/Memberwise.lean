import TermUnification.Proofs.Instantiation
import TermUnification.Proofs.Settled

/-! Composites are unified member by member. The two sides are instantiated as wholes before their members are,
and each member once more when its turn comes, under the bindings made by then; this second instantiation
absorbs the first. -/
namespace TermUnification

/-- An entry of a map as a sequence. -/
def Term.asPair (entry : Term × Term) : Term := .seq [entry.1, entry.2]

namespace Unifier
open Environment Term

section Instances

variable {u : Unifier} {d e : Environment}

/-- Terms are unified as their older instances are. -/
theorem unify_of_instances (h : e.Extends d) {a b i j : Term} (hi : d.instantiate? a = some i)
    (hj : d.instantiate? b = some j) : (u.unify i j e).outcome = (u.unify a b e).outcome := by
  rw [unify_outcome_eq, unify_outcome_eq, h.instantiate?_instance hi, h.instantiate?_instance hj]

/-- The pairs of a list are unified as their older instances are. -/
theorem unifyAll_of_instances (h : e.Extends d) {ps qs : List (Term × Term)}
    (hpq : List.Forall₂
      (fun p q => d.instantiate? p.1 = some q.1 ∧ d.instantiate? p.2 = some q.2) ps qs) :
    (u.unifyAll qs e).outcome = (u.unifyAll ps e).outcome := by
  induction hpq generalizing e with
  | nil => rfl
  | @cons p q ps qs hpq _ ih =>
    have hhead := unify_of_instances (u := u) h hpq.1 hpq.2
    rw [unifyAll, foldlM_cons_outcome, unifyAll, foldlM_cons_outcome, hhead]
    cases hp : (u.unify p.1 p.2 e).outcome with
    | done e' =>
      have hrun : Resolves u [(p.1, p.2)] e (.done e') := resolves_singleton_iff.2 ⟨hp, by simp⟩
      exact ih ((hrun.extends rfl).trans h)
    | clash cause => rfl
    | endless => rfl

end Instances

section Members

variable {u : Unifier} {env : Environment} {a b : Term}

/-- Two terms that are alike, of one arity and without a cycle ahead are unified as their members are. -/
theorem unify_of_alike_of_ends (ha : env.TermEnds a) (hb : env.TermEnds b) (halike : Alike a b)
    (harity : SameArity a b) :
    (u.unify a b env).outcome = (u.unifyAll (a.members.zip b.members) env).outcome := by
  have step := Step.between_of_alike (halike.subst env.value env.value)
    (harity.subst env.value env.value)
  have hinstance {t : Term} (h : env.TermEnds t) : env.instantiate? t = some (t.subst env.value) :=
    instantiate?_eq_some_iff.2 ⟨h, rfl⟩
  rw [unify_eq u (hinstance ha) (hinstance hb), reporting_outcome, step, proceed,
    members_subst _ halike.isVar_eq_false, members_subst _ halike.symm.isVar_eq_false, List.zip_map]
  apply unifyAll_of_instances (.refl env)
  rw [List.forall₂_map_right_iff, List.forall₂_same]
  intro p hp
  obtain ⟨h1, h2⟩ := List.of_mem_zip hp
  exact ⟨hinstance fun v hv => ha v (occurs_of_member h1 hv),
    hinstance fun v hv => hb v (occurs_of_member h2 hv)⟩

theorem unify_of_alike (henv : env.Acyclic) (halike : Alike a b) (harity : SameArity a b) :
    (u.unify a b env).outcome = (u.unifyAll (a.members.zip b.members) env).outcome :=
  unify_of_alike_of_ends (henv.termEnds a) (henv.termEnds b) halike harity

/-- Sequences of two are unified as the flat list of their members is. -/
theorem unifyAll_pairs (hu : u.occursCheck = true) (henv : env.Acyclic) (es fs : List (Term × Term)) :
    (u.unifyAll ((es.map asPair).zip (fs.map asPair)) env).outcome =
      (u.unifyAll ((interleave es).zip (interleave fs)) env).outcome := by
  induction es generalizing fs env with
  | nil => rfl
  | cons x es ih =>
    cases fs with
    | nil => rfl
    | cons y fs =>
      have hpair : (u.unify (asPair x) (asPair y) env).outcome =
          (u.unifyAll [(x.1, y.1), (x.2, y.2)] env).outcome :=
        unify_of_alike henv (by simp [asPair, Alike]) (by simp [asPair, SameArity])
      have hflat : (interleave (x :: es)).zip (interleave (y :: fs)) =
          [(x.1, y.1), (x.2, y.2)] ++ (interleave es).zip (interleave fs) := rfl
      rw [hflat, unifyAll_append_outcome, List.map_cons, List.map_cons, List.zip_cons_cons, unifyAll,
        foldlM_cons_outcome, hpair]
      cases h : (u.unifyAll [(x.1, y.1), (x.2, y.2)] env).outcome with
      | done e => exact ih (acyclic_of_unifyAll hu henv h) fs
      | clash cause => rfl
      | endless => rfl

/-- Maps of different sizes clash, and so do the sequences of their entries. -/
theorem unify_map_of_ne (henv : env.Acyclic) {es fs : List (Term × Term)}
    (h : es.length ≠ fs.length) :
    (u.unify (.map es) (.map fs) env).outcome =
      (u.unify (.seq (es.map asPair)) (.seq (fs.map asPair)) env).outcome := by
  rw [unify_outcome_eq, unify_outcome_eq]
  simp [henv.instantiate?_eq, Step.between, Step.ofMembers, h, proceed]

end Members

/-- In an acyclic environment, sequences of one length and composites of one tag and one arity are unified as
the pairs of their members are, in turn. With the occurs-check maps are unified as the sequences of their
entries are, and no unification of the four is endless. -/
theorem unify_memberwise (u : Unifier) (env : Environment) (henv : env.Acyclic) :
    (∀ ts us : List Term, ts.length = us.length →
      (u.unify (.seq ts) (.seq us) env).outcome = (u.unifyAll (ts.zip us) env).outcome) ∧
    (∀ (l k : Label) (ts us : List Term), l.tag = k.tag → l.arity ts.length = k.arity us.length →
      (u.unify (.composite l ts) (.composite k us) env).outcome =
        (u.unifyAll (ts.zip us) env).outcome) ∧
    (u.occursCheck = true → ∀ es fs : List (Term × Term),
      (u.unify (.map es) (.map fs) env).outcome =
        (u.unify (.seq (es.map asPair)) (.seq (fs.map asPair)) env).outcome) ∧
    (u.occursCheck = true → ∀ a b ps,
      (u.unify a b env).outcome ≠ .endless ∧ (u.unifyAll ps env).outcome ≠ .endless) := by
  refine ⟨fun ts us h => unify_of_alike henv ?_ h, fun l k ts us htag h => unify_of_alike henv ?_ h, ?_, ?_⟩
  · simp [Alike]
  · simpa [Alike] using htag
  · intro hu es fs
    by_cases hlen : es.length = fs.length
    · have hmap := unify_of_alike (u := u) henv (a := .map es) (b := .map fs) (by simp [Alike]) hlen
      have hseq := unify_of_alike (u := u) henv (a := .seq (es.map asPair)) (b := .seq (fs.map asPair))
        (by simp [Alike]) (by simpa [SameArity] using hlen)
      rw [hmap, hseq]
      exact (unifyAll_pairs hu henv es fs).symm
    · exact unify_map_of_ne henv hlen
  · exact fun hu a b ps => ⟨unify_ne_endless hu henv, unifyAll_ne_endless hu henv⟩

/-- The variable x is bound to f(y), and y gets bound to 1 by the first members, which the later ones see. -/
theorem unify_memberwise_chain :
    let x : Variable := ⟨0⟩
    let y : Variable := ⟨1⟩
    let f (t : Term) : Term := .compound "f" [t]
    let u := plain.withOccursCheck true
    let env := ofList [(x, f (.var y))]
    let ts : List Term := [.var x, .var y]
    let us : List Term := [f (.int 1), .int 2]
    let l : Label := .foreign "g" (some 2) false
    let k : Label := .named "g"
    let es : List (Term × Term) := [(.var x, .var y), (.var y, .nil)]
    let fs : List (Term × Term) := [(f (.int 1), .int 1), (.seq [.int 1], .nil)]
    let refusal : Clash := .mismatch (.int 1) (.int 2)
    let refusal' : Clash := .mismatch (.int 1) (.seq [.int 1])
    env.Acyclic ∧ (u.unifyAll (ts.zip us) env).outcome = .clash refusal ∧
      (u.unify (.seq ts) (.seq us) env).outcome = .clash refusal ∧
      (u.unify (.composite l ts) (.composite k us) env).outcome = .clash refusal ∧
      (u.unify (.seq (es.map asPair)) (.seq (fs.map asPair)) env).outcome = .clash refusal' ∧
      (u.unify (.map es) (.map fs) env).outcome = .clash refusal' := by
  intro x y f u env ts us l k es fs refusal refusal'
  have henv : env.Acyclic := acyclic_single (by decide)
  obtain ⟨hseq, hcomposite, hmap, -⟩ := unify_memberwise u env henv
  have hall : (u.unifyAll (ts.zip us) env).outcome = .clash refusal := by decide
  have hpairs : (u.unify (.seq (es.map asPair)) (.seq (fs.map asPair)) env).outcome =
      .clash refusal' := by decide
  exact ⟨henv, hall, (hseq ts us rfl).trans hall, (hcomposite l k ts us rfl rfl).trans hall, hpairs,
    (hmap rfl es fs).trans hpairs⟩

/-- Without the occurs-check the first entries bind x to a term that holds x. Maps go on to compare 1 and 2,
while instantiation of [1, x] as a whole is endless. -/
example :
    let x : Term := .var ⟨0⟩
    let es : List (Term × Term) := [(x, .int 1), (.int 1, x)]
    let fs : List (Term × Term) := [(.seq [x], .int 1), (.int 2, .nil)]
    (plain.unify (.map es) (.map fs) .empty).outcome = .clash (.mismatch (.int 1) (.int 2)) ∧
      (plain.unify (.seq (es.map asPair)) (.seq (fs.map asPair)) .empty).outcome = .endless := by decide

end Unifier

end TermUnification
