import TermUnification.Term.Basic

/-! Structural equality of terms, and maps built by it. -/
namespace TermUnification.Term

mutual

/-- Structural equality: equal scalars, the same variables, and equal members in the same order. Of
the label of a composite only the tag counts. Since a floating point number may differ from itself,
this relation is symmetric and transitive but not reflexive. -/
protected def beq : Term → Term → Bool
  | var v, var w => decide (v = w)
  | wildcard, wildcard => true
  | scalar s, scalar t => s == t
  | seq ts, seq us => Term.beqList ts us
  | map es, map fs => Term.beqEntries es fs
  | composite l ts, composite k us => decide (l.tag = k.tag) && Term.beqList ts us
  | _, _ => false

protected def beqList : List Term → List Term → Bool
  | [], [] => true
  | t :: ts, u :: us => Term.beq t u && Term.beqList ts us
  | _, _ => false

protected def beqEntries : List (Term × Term) → List (Term × Term) → Bool
  | [], [] => true
  | (k, x) :: es, (l, y) :: fs => Term.beq k l && Term.beq x y && Term.beqEntries es fs
  | _, _ => false

end

instance : BEq Term := ⟨Term.beq⟩

theorem beq_eq (a b : Term) : (a == b) = Term.beq a b := rfl

@[simp] theorem beq_var (v w : Variable) : (var v == var w) = decide (v = w) := by
  simp [beq_eq, Term.beq]

@[simp] theorem beq_wildcard : (wildcard == wildcard) = true := by simp [beq_eq, Term.beq]

@[simp] theorem beq_scalar (s t : Scalar) : (scalar s == scalar t) = (s == t) := by
  simp [beq_eq, Term.beq]

theorem beqList_eq (ts us : List Term) : Term.beqList ts us = (ts == us) := by
  induction ts generalizing us with
  | nil => cases us <;> rfl
  | cons t ts ih => cases us <;> simp [Term.beqList, ih, beq_eq]

theorem beqEntries_eq (es fs : List (Term × Term)) : Term.beqEntries es fs = (es == fs) := by
  induction es generalizing fs with
  | nil => cases fs <;> rfl
  | cons e es ih =>
    cases fs with
    | nil => rfl
    | cons f fs =>
      obtain ⟨k, x⟩ := e
      obtain ⟨l, y⟩ := f
      change _ = ((k == l && x == y) && es == fs)
      simp [Term.beqEntries, ih, beq_eq]

@[simp] theorem beq_seq (ts us : List Term) : (seq ts == seq us) = (ts == us) := by
  simp [beq_eq, Term.beq, beqList_eq]

@[simp] theorem beq_map (es fs : List (Term × Term)) : (map es == map fs) = (es == fs) := by
  simp [beq_eq, Term.beq, beqEntries_eq]

@[simp] theorem beq_composite (l k : Label) (ts us : List Term) :
    (composite l ts == composite k us) = (decide (l.tag = k.tag) && (ts == us)) := by
  simp [beq_eq, Term.beq, beqList_eq]

/-- Puts an entry into a list: an entry with an equal key gets the new value and keeps its place,
else the entry goes to the end. -/
def insertEntry (key value : Term) : List (Term × Term) → List (Term × Term)
  | [] => [(key, value)]
  | (k, x) :: es => if k == key then (k, value) :: es else (k, x) :: insertEntry key value es

/-- The map of a list of entries, inserted in order. -/
def ofEntries (entries : List (Term × Term)) : Term :=
  map (entries.foldl (fun es e => insertEntry e.1 e.2 es) [])

/-- The value under the first key of a map that equals the given one. -/
def get? (t key : Term) : Option Term :=
  match t with
  | map entries => (entries.find? fun e => e.1 == key).map (·.2)
  | _ => none

@[simp] theorem ofEntries_nil : ofEntries [] = map [] := rfl

@[simp] theorem get?_map_nil (key : Term) : (map []).get? key = none := rfl

theorem get?_map_cons (k x key : Term) (es : List (Term × Term)) :
    (map ((k, x) :: es)).get? key = if k == key then some x else (map es).get? key := by
  cases h : k == key <;> simp [get?, h]

example : ofEntries [(int 1, nil), (int 2, nil), (int 1, wildcard)] =
    map [(int 1, wildcard), (int 2, nil)] := by decide
example : (composite (.foreign "f" none false) [nil] == compound "f" [nil]) = true := by decide

end TermUnification.Term
