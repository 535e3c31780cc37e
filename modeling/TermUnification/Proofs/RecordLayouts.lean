import TermUnification.Proofs.Memberwise
import TermUnification.Proofs.Queries

/-! The layout of records and patterns. Both are maps with the keys of their set in one order, so unification of
a record with a pattern comes down to the values under these keys, in turn. -/
namespace TermUnification

namespace Unifier

/-- When unification of a list fails, one of its pairs fails after the ones before it have been unified. -/
theorem exists_of_unifyAll_clash {u : Unifier} {ps : List (Term × Term)} {env : Environment} {cause : Clash}
    (h : (u.unifyAll ps env).outcome = .clash cause) :
    ∃ before v w after e, ps = before ++ (v, w) :: after ∧ (u.unifyAll before env).outcome = .done e ∧
      (u.unify v w e).outcome = .clash cause := by
  induction ps generalizing env with
  | nil => cases h
  | cons p ps ih =>
    rw [unifyAll, foldlM_cons_outcome] at h
    cases hp : (u.unify p.1 p.2 env).outcome with
    | done d =>
      rw [hp] at h
      obtain ⟨before, v, w, after, e, rfl, hdone, hclash⟩ := ih h
      refine ⟨p :: before, v, w, after, e, rfl, ?_, hclash⟩
      rw [unifyAll, foldlM_cons_outcome, hp]
      exact hdone
    | clash cause' =>
      rw [hp] at h
      exact ⟨[], p.1, p.2, ps, env, rfl, rfl, hp.trans h⟩
    | endless => simp [hp] at h

end Unifier

namespace RecordSet
open Term Unifier Environment

/-- A map that has the keys of a set in their order, and under each of them the first value that is listed for
it among the fields, or else the one for missing fields. -/
structure LaidOut (keys : List String) (fields : List (String × Term)) (missing t : Term) : Prop where
  inOrder : ∃ es, t = .map es ∧ es.map Prod.fst = keys.eraseDups.map atom
  listed : ∀ k ∈ keys, ∀ before v after, fields = before ++ (k, v) :: after →
    (∀ f ∈ before, f.1 ≠ k) → t.get? (atom k) = some v
  unlisted : ∀ k ∈ keys, (∀ f ∈ fields, f.1 ≠ k) → t.get? (atom k) = some missing
  unknown : ∀ key, (∀ k ∈ keys, key ≠ atom k) → t.get? key = none

theorem eq_of_atom_beq {k : String} {key : Term} (h : (atom k == key) = true) : key = atom k := by
  rcases Same.cases h with ⟨v, hv, -⟩ | ⟨hw, -⟩ | ⟨s, t, hs, rfl, hst⟩ | ⟨halike, -⟩
  · cases hv
  · cases hw
  · cases hs
    cases t <;> simp_all [BEq.beq, Scalar.beq, atom]
  · simp [atom, Alike] at halike

theorem get?_fieldOf_of_ne (value : String → Term) {keys : List String} {key : Term}
    (h : ∀ k ∈ keys, key ≠ atom k) : (Term.map (keys.map (fieldOf value))).get? key = none := by
  induction keys with
  | nil => rfl
  | cons k ks ih =>
    obtain ⟨hk, hks⟩ := List.forall_mem_cons.1 h
    have hne : (atom k == key) = false := Bool.eq_false_iff.2 fun hbeq => hk (eq_of_atom_beq hbeq)
    rw [List.map_cons, fieldOf, get?_map_cons, hne]
    exact ih hks

theorem firstValue?_of_listed {before after : List (String × Term)} {k : String} (v : Term)
    (h : ∀ f ∈ before, f.1 ≠ k) : firstValue? (before ++ (k, v) :: after) k = some v := by
  have hbefore : before.find? (fun f => f.1 == k) = none := by simpa using h
  simp [firstValue?, List.find?_append, hbefore]

theorem firstValue?_of_unlisted {fields : List (String × Term)} {k : String} (h : ∀ f ∈ fields, f.1 ≠ k) :
    firstValue? fields k = none := by
  have hnone : fields.find? (fun f => f.1 == k) = none := by simpa using h
  rw [firstValue?, hnone, Option.map_none]

section Layout

variable (db : RecordSet)

theorem laidOut_layout (fields : List (String × Term)) (missing : Term) :
    LaidOut db.keys fields missing (db.layout fun k => (firstValue? fields k).getD missing) := by
  constructor
  case inOrder => exact ⟨_, db.layout_eq _, by simp [fieldOf]⟩
  case listed =>
    rintro k hk before v after rfl hbefore
    rw [db.get?_layout _ hk, firstValue?_of_listed v hbefore, Option.getD_some]
  case unlisted =>
    intro k hk hnot
    rw [db.get?_layout _ hk, firstValue?_of_unlisted hnot, Option.getD_none]
  case unknown =>
    intro key hkey
    rw [layout_eq]
    exact get?_fieldOf_of_ne _ fun k hk => hkey k (List.mem_eraseDups.1 hk)

/-- The values that two maps have under a key, if both have one. -/
def valuesAt (r p : Term) (k : String) : Option (Term × Term) :=
  (r.get? (atom k)).bind fun v => (p.get? (atom k)).map fun w => (v, w)

variable (value pattern : String → Term)

theorem filterMap_valuesAt :
    db.keys.eraseDups.filterMap (valuesAt (db.layout value) (db.layout pattern)) =
      db.keys.eraseDups.map fun k => (value k, pattern k) := by
  rw [← List.filterMap_eq_map]
  refine List.filterMap_congr fun k hk => ?_
  have hk' := List.mem_eraseDups.1 hk
  rw [valuesAt, db.get?_layout value hk', db.get?_layout pattern hk']
  rfl

/-- Equal keys unify without a binding, so only the values count. -/
theorem unifyAll_fieldOf (u : Unifier) (keys : List String) (env : Environment) :
    (u.unifyAll ((interleave (keys.map (fieldOf value))).zip (interleave (keys.map (fieldOf pattern)))) env).outcome =
      (u.unifyAll (keys.map fun k => (value k, pattern k)) env).outcome := by
  induction keys generalizing env with
  | nil => rfl
  | cons k ks ih =>
    have hkey : (u.unify (atom k) (atom k) env).outcome = .done env :=
      unify_of_settled (instantiate?_scalar env _) (instantiate?_scalar env _) (settled_atom k)
    simp only [List.map_cons, fieldOf, interleave_cons, List.zip_cons_cons, unifyAll, foldlM_cons_outcome,
      hkey]
    cases (u.unify (value k) (pattern k) env).outcome with
    | done e => exact ih e
    | clash cause => rfl
    | endless => rfl

/-- Two maps that are laid out alike are unified as the values under their keys are, in turn. -/
theorem unify_layout (u : Unifier) (env : Environment) (hvalue : env.TermEnds (db.layout value))
    (hpattern : env.TermEnds (db.layout pattern)) :
    (u.unify (db.layout value) (db.layout pattern) env).outcome =
      (u.unifyAll (db.keys.eraseDups.filterMap (valuesAt (db.layout value) (db.layout pattern))) env).outcome := by
  rw [filterMap_valuesAt, ← unifyAll_fieldOf]
  rw [layout_eq] at hvalue hpattern
  rw [layout_eq, layout_eq]
  exact unify_of_alike_of_ends hvalue hpattern trivial (by simp [SameArity])

end Layout

/-- Records and patterns of a set have its keys in one order, with the first value that was listed for a key under
it, or else the empty value and the wildcard. A record and a pattern are unified as their values are, key by
key: a clash is one of two values under a key, met after the values under the keys before it. -/
theorem records_laidOut (keys : List String) (inserts : List (List (String × Term))) :
    let db := inserts.foldl insert (ofKeys keys)
    List.Forall₂ (fun fields r => LaidOut keys fields .nil r) inserts db.records ∧
    (∀ fields, LaidOut keys fields .wildcard (db.pattern fields)) ∧
    ∀ r ∈ db.records, ∀ (fields : List (String × Term)) (u : Unifier) (env : Environment),
      let p := db.pattern fields
      let pairs := keys.eraseDups.filterMap (valuesAt r p)
      (env.Acyclic → (u.unify r p env).outcome = (u.unifyAll pairs env).outcome) ∧
      ∀ cause, (u.unify r p env).outcome = .clash cause →
        ∃ before v w after e, pairs = before ++ (v, w) :: after ∧
          (u.unifyAll before env).outcome = .done e ∧ (u.unify v w e).outcome = .clash cause := by
  intro db
  have hdb : db = ⟨keys, inserts.map (ofKeys keys).record⟩ := foldl_insert (ofKeys keys) inserts
  rw [hdb]
  refine ⟨?_, fun fields => laidOut_layout ⟨keys, _⟩ fields .wildcard, fun r hr fields u env => ?_⟩
  · rw [List.forall₂_map_right_iff, List.forall₂_same]
    exact fun fields _ => laidOut_layout (ofKeys keys) fields .nil
  · obtain ⟨given, -, rfl⟩ := List.mem_map.1 hr
    have hunify := unify_layout (ofKeys keys) (fun k => (firstValue? given k).getD .nil)
      (fun k => (firstValue? fields k).getD .wildcard) u env
    refine ⟨fun henv => hunify (henv.termEnds _) (henv.termEnds _), fun cause hclash => ?_⟩
    refine exists_of_unifyAll_clash ?_
    by_cases hends : env.TermEnds ((ofKeys keys).record given) ∧ env.TermEnds ((ofKeys keys).pattern fields)
    · exact (hunify hends.1 hends.2).symm.trans hclash
    · have hendless := congrArg Attempt.outcome (unify_of_not_ends (u := u) hends)
      exact absurd (hendless.symm.trans hclash) nofun

/-- The key of the name is given twice, and one record has no age. It is asked for by a name with one item more
than its own has. -/
theorem records_laidOut_gaps :
    let keys := ["name", "age", "name"]
    let full : List (String × Term) :=
      [("age", .int 40), ("name", .var ⟨0⟩), ("town", .nil), ("name", .text "Eve")]
    let short : List (String × Term) := [("name", .seq [.int 1])]
    let fields : List (String × Term) := [("name", .seq [.int 1, .int 2]), ("town", .int 3)]
    let db := [full, short].foldl insert (ofKeys keys)
    let q : Term := .map [(atom "name", .var ⟨0⟩), (atom "age", .int 40)]
    let r : Term := .map [(atom "name", .seq [.int 1]), (atom "age", .nil)]
    let p : Term := .map [(atom "name", .seq [.int 1, .int 2]), (atom "age", .wildcard)]
    let pairs : List (Term × Term) := [(.seq [.int 1], .seq [.int 1, .int 2]), (.nil, .wildcard)]
    let cause : Clash := .arityMismatch 1 2
    db.records = [q, r] ∧ db.pattern fields = p ∧ LaidOut keys full .nil q ∧
      r.get? (atom "age") = some .nil ∧ r.get? (atom "town") = none ∧
      p.get? (atom "name") = some (.seq [.int 1, .int 2]) ∧ empty.Acyclic ∧
      (plain.unify r p .empty).outcome = (plain.unifyAll pairs .empty).outcome ∧
      (plain.unify r p .empty).outcome = .clash cause ∧
      ∃ before v w after e, pairs = before ++ (v, w) :: after ∧
        (plain.unifyAll before .empty).outcome = .done e ∧ (plain.unify v w e).outcome = .clash cause := by
  intro keys full short fields db q r p pairs cause
  obtain ⟨hrecords, hpatterns, hunify⟩ := records_laidOut keys [full, short]
  have hdb : db.records = [q, r] := by decide
  have hp : db.pattern fields = p := by decide
  have hall : List.Forall₂ (fun fields r => LaidOut keys fields .nil r) [full, short] [q, r] := hrecords
  obtain ⟨hfull, hrest⟩ := List.forall₂_cons.1 hall
  obtain ⟨hshort, -⟩ := List.forall₂_cons.1 hrest
  obtain ⟨hsame, hclash⟩ := hunify r (by rw [hdb]; simp) fields plain .empty
  have hcause : (plain.unify r p .empty).outcome = .clash cause := by decide
  exact ⟨hdb, hp, hfull, hshort.unlisted "age" (by decide) (by decide),
    hshort.unknown (atom "town") (by decide),
    (hpatterns fields).listed "name" (by decide) [] _ _ rfl (by simp), acyclic_empty,
    hsame acyclic_empty, hcause, hclash _ hcause⟩

end RecordSet

end TermUnification
