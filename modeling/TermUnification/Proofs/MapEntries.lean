import TermUnification.Proofs.LastWrite
import TermUnification.Proofs.UniqueKeys

/-! Maps built from lists of entries. Keys are compared by structural equality, so a key that holds a value that is
no number equals nothing, and every entry under such a key is kept. -/
namespace TermUnification.Term

section Repeats

variable (ks : List Term) (k key : Term)

/-- The terms of a list that equal none of the terms before them. -/
def withoutRepeats : List Term :=
  (ks.zipIdx.filter fun p => !(ks.take p.2).any (· == p.1)).map Prod.fst

theorem withoutRepeats_append_singleton :
    withoutRepeats (ks ++ [k]) = withoutRepeats ks ++ if ks.any (· == k) then [] else [k] := by
  have hbefore : ∀ p ∈ ks.zipIdx, (ks ++ [k]).take p.2 = ks.take p.2 := by
    intro p hp
    exact List.take_append_of_le_length (Nat.le_of_lt (List.snd_lt_of_mem_zipIdx hp))
  have hfilter : ks.zipIdx.filter (fun p => !((ks ++ [k]).take p.2).any (· == p.1)) =
      ks.zipIdx.filter fun p => !(ks.take p.2).any (· == p.1) :=
    List.filter_congr fun p hp => by rw [hbefore p hp]
  rw [withoutRepeats, List.zipIdx_append, List.filter_append, hfilter, List.map_append]
  cases h : ks.any (· == k) <;> simp [withoutRepeats, h]

/-- What has been left out equals something that has been kept. -/
theorem any_withoutRepeats : (withoutRepeats ks).any (· == key) = ks.any (· == key) := by
  induction ks using List.reverseRecOn with
  | nil => rfl
  | append_singleton ks k ih =>
    rw [withoutRepeats_append_singleton, List.any_append, List.any_append, ih]
    cases hk : k == key with
    | false => split <;> simp [hk]
    | true =>
      have hks : ks.any (· == key) = ks.any (· == k) := by simp only [BEq.congr_right hk]
      rw [hks]
      cases h : ks.any (· == k) <;> simp [hk]

end Repeats

section Insert

variable {key : Term} {es : List (Term × Term)} (value k : Term)

theorem get?_insertEntry (key : Term) (es : List (Term × Term)) :
    (map (insertEntry key value es)).get? k = if key == k then some value else (map es).get? k := by
  induction es with
  | nil => rw [insertEntry, get?_map_cons]
  | cons e es ih =>
    obtain ⟨l, x⟩ := e
    rw [insertEntry]
    split
    · next hl =>
      rw [get?_map_cons, get?_map_cons, BEq.congr_left hl]
      split <;> rfl
    · next hl =>
      rw [get?_map_cons, get?_map_cons, ih]
      by_cases hk : (key == k) = true
      · have hlk : (l == k) = false := by
          rw [← BEq.congr_right hk]
          exact Bool.eq_false_iff.2 hl
        simp [hk, hlk]
      · simp [hk]

/-- The entry of a key that equals none of the others goes to the end. -/
theorem insertEntry_of_new (h : ∀ l ∈ keysOf es, (l == key) = false) :
    insertEntry key value es = es ++ [(key, value)] := by
  induction es with
  | nil => rfl
  | cons e es ih =>
    obtain ⟨hl, hes⟩ := List.forall_mem_cons.1 h
    rw [insertEntry, hl, ih hes]
    rfl

/-- An entry whose key does not equal itself is never replaced and never replaces another. -/
theorem filter_insertEntry (key : Term) (es : List (Term × Term)) :
    (insertEntry key value es).filter (fun e => !(e.1 == e.1)) =
      (es ++ [(key, value)]).filter fun e => !(e.1 == e.1) := by
  induction es with
  | nil => rfl
  | cons e es ih =>
    obtain ⟨l, x⟩ := e
    rw [insertEntry]
    split
    · next hl =>
      have hleft : (l == l) = true := Same.left hl
      have hright : (key == key) = true := Same.right hl
      simp [hleft, hright]
    · rw [List.cons_append, List.filter_cons, List.filter_cons, ih]

end Insert

section Inserted

/-- The entries that a map has when all entries of a list have been put into it. -/
def inserted (es : List (Term × Term)) : List (Term × Term) :=
  es.foldl (fun fs e => insertEntry e.1 e.2 fs) []

variable (es : List (Term × Term))

theorem ofEntries_eq : ofEntries es = map (inserted es) := rfl

theorem inserted_append_singleton (e : Term × Term) :
    inserted (es ++ [e]) = insertEntry e.1 e.2 (inserted es) := by
  simp [inserted]

theorem keysOf_inserted : keysOf (inserted es) = withoutRepeats (keysOf es) := by
  induction es using List.reverseRecOn with
  | nil => rfl
  | append_singleton es e ih =>
    rw [inserted_append_singleton, keysOf_insertEntry, ih, any_withoutRepeats, keysOf_append, keysOf_cons,
      keysOf_nil, withoutRepeats_append_singleton]
    split <;> simp

theorem get?_inserted (key : Term) : (map (inserted es)).get? key =
    (es.filter fun e => e.1 == key).getLast?.map Prod.snd := by
  have hlast := foldl_last_write_of_filter (fun fs => (map fs).get? key)
    (fun fs e => get?_insertEntry e.2 key e.1 fs) [] es
  rw [get?_map_nil, Option.or_none] at hlast
  exact hlast

theorem filter_inserted : (inserted es).filter (fun e => !(e.1 == e.1)) =
    es.filter fun e => !(e.1 == e.1) := by
  induction es using List.reverseRecOn with
  | nil => rfl
  | append_singleton es e ih =>
    rw [inserted_append_singleton, filter_insertEntry, List.filter_append, ih, List.filter_append]

variable {es}

/-- Entries whose keys are pairwise different are kept as they are. -/
theorem inserted_of_hasUniqueKeys (h : (map es).hasUniqueKeys = true) : inserted es = es := by
  rw [hasUniqueKeys_map] at h
  induction es using List.reverseRecOn with
  | nil => rfl
  | append_singleton es e ih =>
    rw [keysOf_append] at h
    obtain ⟨hes, -, hnew⟩ := List.pairwise_append.1 h
    have hkey : ∀ l ∈ keysOf es, (l == e.1) = false := fun l hl => hnew l hl e.1 (by simp)
    rw [inserted_append_singleton, ih hes, insertEntry_of_new e.2 hkey]

end Inserted

/-- The map that is built from entries has their keys in order, without those that equal an earlier one, and so no
two equal keys. It gives for a key the value of the last entry under an equal key. The entries under keys that
equal nothing, not even themselves, are all in it. Built again from its own entries it is the same map. -/
theorem ofEntries_first_keys_last_values (es : List (Term × Term)) :
    ∃ fs, ofEntries es = map fs ∧ ((keysOf fs).Pairwise fun k l => (k == l) = false) ∧
      keysOf fs = withoutRepeats (keysOf es) ∧
      (∀ key, (ofEntries es).get? key = (es.filter fun e => e.1 == key).getLast?.map Prod.snd) ∧
      fs.filter (fun e => !(e.1 == e.1)) = es.filter (fun e => !(e.1 == e.1)) ∧
      ofEntries fs = map fs := by
  have hunique : (map (inserted es)).hasUniqueKeys = true := hasUniqueKeys_ofEntries es
  have hagain : ofEntries (inserted es) = map (inserted es) := by
    rw [ofEntries_eq, inserted_of_hasUniqueKeys hunique]
  exact ⟨inserted es, rfl, hasUniqueKeys_map.1 hunique, keysOf_inserted es, get?_inserted es,
    filter_inserted es, hagain⟩

example :
    let nan : Term := scalar (.float ⟨0x7ff8000000000000⟩)
    let zero : Term := scalar (.float ⟨0⟩)
    let minusZero : Term := scalar (.float ⟨0x8000000000000000⟩)
    ofEntries [(seq [nan], int 1), (seq [zero], int 2), (seq [nan], int 3), (seq [minusZero], int 4)] =
      map [(seq [nan], int 1), (seq [zero], int 4), (seq [nan], int 3)] := by decide

end TermUnification.Term
