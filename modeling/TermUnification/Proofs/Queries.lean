import TermUnification.Proofs.Closed
import TermUnification.RecordSet

/-! Queries of record sets without variables. Records and patterns are laid out with the same keys in the
same places, so a record and a pattern unify when their values do, key by key. -/
namespace TermUnification

namespace RecordSet
open Term Unifier

/-- The entry under a key. -/
def fieldOf (value : String → Term) (key : String) : Term × Term := (atom key, value key)

theorem atom_beq (j k : String) : (atom j == atom k) = decide (j = k) := by
  rw [atom, atom, beq_scalar]
  rfl

/-- Inserting the entry of a key that is there already changes nothing. -/
theorem insertEntry_fieldOf (value : String → Term) (key : String) (keys : List String) :
    insertEntry (atom key) (value key) (keys.map (fieldOf value)) =
      (if key ∈ keys then keys else keys ++ [key]).map (fieldOf value) := by
  induction keys with
  | nil => simp [insertEntry, fieldOf]
  | cons k ks ih =>
    by_cases hk : k = key
    · subst hk
      simp [insertEntry, fieldOf, atom_beq]
    · have hne : (atom k == atom key) = false := by simp [atom_beq, hk]
      rw [List.map_cons, fieldOf, insertEntry, hne, ih]
      by_cases hmem : key ∈ ks <;> simp [hmem, Ne.symm hk, fieldOf]

/-- The map of the entries of some keys has each key once, where it first appears. -/
theorem ofEntries_fieldOf (value : String → Term) (keys : List String) :
    ofEntries (keys.map (fieldOf value)) = .map (keys.eraseDups.map (fieldOf value)) := by
  -- From the right, since each entry is inserted into those of the keys before it.
  induction keys using List.reverseRecOn with
  | nil => rfl
  | append_singleton keys key ih =>
    rw [ofEntries, map.injEq] at ih ⊢
    rw [List.map_append, List.foldl_append, ih, List.eraseDups_append, List.map_singleton,
      List.foldl_cons, List.foldl_nil, fieldOf, insertEntry_fieldOf]
    by_cases hmem : key ∈ keys <;> simp [hmem, List.removeAll, List.eraseDups_cons]

section Layout

variable (db : RecordSet) (value pattern : String → Term)

theorem layout_eq : db.layout value = .map (db.keys.eraseDups.map (fieldOf value)) :=
  ofEntries_fieldOf value db.keys

theorem get?_fieldOf (keys : List String) (key : String) :
    (Term.map (keys.map (fieldOf value))).get? (atom key) =
      if key ∈ keys then some (value key) else none := by
  induction keys with
  | nil => rfl
  | cons k ks ih =>
    rw [List.map_cons, fieldOf, get?_map_cons, atom_beq, ih]
    by_cases hk : k = key
    · simp [hk]
    · simp [hk, Ne.symm hk]

theorem get?_layout {key : String} (h : key ∈ db.keys) :
    (db.layout value).get? (atom key) = some (value key) := by
  rw [layout_eq, get?_fieldOf, if_pos (List.mem_eraseDups.2 h)]

variable {value pattern}

theorem closed_layout (h : ∀ k, (value k).Closed) : (db.layout value).Closed := by
  rw [layout_eq]
  refine closed_of_members rfl fun m hm => ?_
  simp only [members_map, interleave, List.mem_flatMap, List.mem_map] at hm
  obtain ⟨e, ⟨k, -, rfl⟩, hm⟩ := hm
  rcases List.mem_pair.1 hm with rfl | rfl
  · exact fun v => rfl
  · exact h k

theorem forall_zip_fieldOf {P : Term × Term → Prop} (keys : List String) :
    (∀ p ∈ (interleave (keys.map (fieldOf value))).zip (interleave (keys.map (fieldOf pattern))), P p) ↔
      ∀ k ∈ keys, P (atom k, atom k) ∧ P (value k, pattern k) := by
  induction keys with
  | nil => simp
  | cons k ks ih =>
    simp only [List.map_cons, fieldOf, interleave_cons, List.zip_cons_cons, List.forall_mem_cons,
      ih, and_assoc]

theorem settled_atom (key : String) : Settled (atom key) (atom key) :=
  .head (by simp [Term.atom, Step.between, Scalar.agrees, Scalar.isNaN])

/-- Two maps laid out alike are settled when their values are, key by key. -/
theorem settled_layout_iff :
    Settled (db.layout value) (db.layout pattern) ↔ ∀ k ∈ db.keys, Settled (value k) (pattern k) := by
  rw [layout_eq, layout_eq, settled_iff, members_map, members_map, forall_zip_fieldOf]
  simp [Step.between, Alike, SameArity, settled_atom]

end Layout

section Values

variable {fields : List (String × Term)} {key : String} {t : Term}

theorem mem_of_firstValue? (h : firstValue? fields key = some t) : (key, t) ∈ fields := by
  obtain ⟨f, hf, rfl⟩ := Option.map_eq_some_iff.1 h
  have hkey : f.1 = key := by simpa using List.find?_some hf
  exact hkey ▸ List.mem_of_find?_eq_some hf

theorem closed_firstValue (h : ∀ f ∈ fields, f.2.Closed) {missing : Term}
    (hmissing : missing.Closed) : ((firstValue? fields key).getD missing).Closed := by
  cases hv : firstValue? fields key with
  | none => exact hmissing
  | some t => exact h (key, t) (mem_of_firstValue? hv)

/-- The fields whose keys the set has say all that counts. -/
theorem firstValue?_filter {keys : List String} (hkey : key ∈ keys) :
    firstValue? (fields.filter fun f => keys.contains f.1) key = firstValue? fields key := by
  rw [firstValue?, firstValue?, List.find?_filter]
  congr 2
  funext f
  by_cases hf : f.1 = key
  · simp [hf, hkey]
  · simp [hf]

end Values

/-- Does a record meet the fields? Under each key of the set that has a value among the fields, the first
of these unifies with what the record has there. -/
def meets (db : RecordSet) (u : Unifier) (fields : List (String × Term)) (r : Term) : Bool :=
  db.keys.all fun k => (firstValue? fields k).all fun v =>
    (r.get? (.atom k)).any fun w => (u.unify w v .empty).succeeds

section Query

variable {db : RecordSet} {u : Unifier} {fields : List (String × Term)}

theorem selecting_eq_filter {pattern : Term} {p : Term → Bool} {rs : List Term}
    (h : ∀ r ∈ rs, (u.unify r pattern .empty).test.outcome = .done (p r)) :
    (selecting u pattern rs).outcome = .done (rs.filter p) := by
  induction rs with
  | nil => rfl
  | cons r rs ih =>
    obtain ⟨hr, hrs⟩ := List.forall_mem_cons.1 h
    have hrest := ih hrs
    simp only [selecting, Attempt.bind_def, Attempt.bind, hr, hrest, Attempt.pure_def,
      List.filter_cons]

theorem query_outcome (db : RecordSet) (u : Unifier) (fields : List (String × Term)) :
    (db.query u fields).outcome = (selecting u (db.pattern fields) db.records).outcome := rfl

/-- A record that is laid out as the set says unifies with a pattern when it meets the fields. -/
theorem test_layout {value : String → Term} (hvalue : ∀ k, (value k).Closed)
    (hfields : ∀ f ∈ fields, f.2.Closed) :
    (u.unify (db.layout value) (db.pattern fields) .empty).test.outcome =
      .done (db.meets u fields (db.layout value)) := by
  have hpattern (k : String) : ((firstValue? fields k).getD .wildcard).Closed :=
    closed_firstValue hfields fun _ => rfl
  have hvalues := db.closed_layout hvalue
  have hpatterns : (db.pattern fields).Closed := db.closed_layout hpattern
  rw [(compares_of_closed u .empty hvalues hpatterns).test_outcome, Outcome.done.injEq,
    Bool.eq_iff_iff, succeeds_iff_settled u .empty hvalues hpatterns, pattern, settled_layout_iff,
    meets, List.all_eq_true]
  refine forall₂_congr fun k hk => ?_
  simp only [db.get?_layout value hk, Option.any_some]
  cases hv : firstValue? fields k with
  | none =>
    have hany : Settled (value k) .wildcard := .head (by cases value k <;> rfl)
    simp [hany]
  | some v =>
    rw [Option.getD_some, Option.all_some,
      succeeds_iff_settled u .empty (hvalue k) (hfields _ (mem_of_firstValue? hv))]

theorem query_layouts (hrecords : ∀ r ∈ db.records, ∃ value, (∀ k, (value k).Closed) ∧
    r = db.layout value) (hfields : ∀ f ∈ fields, f.2.Closed) :
    (db.query u fields).outcome = .done (db.records.filter (db.meets u fields)) := by
  rw [query_outcome]
  refine selecting_eq_filter fun r hr => ?_
  obtain ⟨value, hvalue, rfl⟩ := hrecords r hr
  exact test_layout hvalue hfields

/-- Only the fields whose keys the set has take part in a query. -/
theorem query_congr {fields' : List (String × Term)}
    (h : ∀ k ∈ db.keys, firstValue? fields' k = firstValue? fields k) :
    db.query u fields' = db.query u fields := by
  have hpattern : db.pattern fields' = db.pattern fields := by
    rw [pattern, pattern, layout, layout]
    refine congrArg ofEntries (List.map_congr_left fun k hk => ?_)
    rw [h k hk]
  rw [query, query, hpattern]

theorem foldl_insert (db : RecordSet) (inserts : List (List (String × Term))) :
    inserts.foldl insert db = ⟨db.keys, db.records ++ inserts.map db.record⟩ := by
  induction inserts generalizing db with
  | nil => simp
  | cons f fs ih =>
    rw [List.foldl_cons, ih]
    simp [insert, record, layout]

end Query

/-- A query of records without variables returns the records that meet the fields, in the order of
insertion, and fields under keys that the set does not have make no difference. A record has under each key
the first value that was given for it, or the empty value. -/
theorem query_eq_filter (keys : List String) (inserts : List (List (String × Term)))
    (hinserts : ∀ given ∈ inserts, ∀ f ∈ given, f.2.Closed) (u : Unifier)
    (fields : List (String × Term)) (hfields : ∀ f ∈ fields, f.2.Closed) :
    let db := inserts.foldl insert (ofKeys keys)
    (db.query u fields).outcome = .done (db.records.filter (db.meets u fields)) ∧
    db.keys = keys ∧ db.records = inserts.map db.record ∧
    (∀ given ∈ inserts, ∀ k ∈ keys,
      (db.record given).get? (.atom k) = some ((firstValue? given k).getD .nil)) ∧
    db.query u (fields.filter fun f => keys.contains f.1) = db.query u fields := by
  intro db
  have hdb : db = ⟨keys, inserts.map (ofKeys keys).record⟩ := foldl_insert (ofKeys keys) inserts
  have hkeys : db.keys = keys := by rw [hdb]
  have hrecords : db.records = inserts.map db.record := by rw [hdb]; rfl
  refine ⟨query_layouts (fun r hr => ?_) hfields, hkeys, hrecords, fun given _ k hk => ?_, ?_⟩
  · rw [hrecords] at hr
    obtain ⟨given, hgiven, rfl⟩ := List.mem_map.1 hr
    exact ⟨_, fun k => closed_firstValue (hinserts given hgiven) fun _ => rfl, rfl⟩
  · exact db.get?_layout _ (hkeys.symm ▸ hk)
  · exact query_congr fun k hk => firstValue?_filter (hkeys ▸ hk)

/-- A set whose keys repeat, with records that miss a key or have one that is unknown, asked for the age
40.0 by fields that repeat a key and have an unknown one. -/
theorem query_eq_filter_repeated :
    let keys := ["name", "age", "name"]
    let inserts : List (List (String × Term)) :=
      [[("age", .int 40), ("name", .text "Ann"), ("name", .text "Eve")],
        [("name", .text "Bob"), ("town", .int 40)],
        [("age", .wildcard), ("name", .seq [.text "Cy"])],
        [("age", .int 40), ("name", .text "Ann")]]
    let fields : List (String × Term) :=
      [("age", .scalar (.float ⟨0x4044000000000000⟩)), ("town", .nil), ("age", .int 3)]
    let ann : Term := .map [(.atom "name", .text "Ann"), (.atom "age", .int 40)]
    let cy : Term := .map [(.atom "name", .seq [.text "Cy"]), (.atom "age", .wildcard)]
    let db := inserts.foldl insert (ofKeys keys)
    let u := plain.withOccursCheck true
    (∀ given ∈ inserts, ∀ f ∈ given, f.2.Closed) ∧ (∀ f ∈ fields, f.2.Closed) ∧
      (db.query u fields).outcome = .done [ann, cy, ann] ∧
      db.query u (fields.filter fun f => keys.contains f.1) = db.query u fields := by
  intro keys inserts fields ann cy db u
  have hinserts : ∀ given ∈ inserts, ∀ f ∈ given, f.2.Closed := by decide
  have hfields : ∀ f ∈ fields, f.2.Closed := by decide
  obtain ⟨hquery, -, -, -, hknown⟩ := query_eq_filter keys inserts hinserts u fields hfields
  have hmeet : db.records.filter (db.meets u fields) = [ann, cy, ann] := by decide +kernel
  exact ⟨hinserts, hfields, hmeet ▸ hquery, hknown⟩

end RecordSet

end TermUnification
