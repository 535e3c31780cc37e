import TermUnification.Term.Basic

/-! Walks through a term, from left to right and with map keys before their values: rebuilding it with
other terms for its variables, collecting the variables, and the tests for groundness and
occurrence. -/
namespace TermUnification.Term

mutual

/-- Rebuilds a term with `f v` in place of each variable `v`, running the effects of `f` in the order
of the occurrences. Every composite is put together again, one without variables too. -/
def traverse {m : Type → Type} [Monad m] (f : Variable → m Term) : Term → m Term
  | var v => f v
  | wildcard => pure wildcard
  | scalar s => pure (scalar s)
  | seq ts => do return seq (← traverseList f ts)
  | map es => do return map (← traverseEntries f es)
  | composite l ts => do return composite l.rebuild (← traverseList f ts)

def traverseList {m : Type → Type} [Monad m] (f : Variable → m Term) :
    List Term → m (List Term)
  | [] => pure []
  | t :: ts => do
    let t ← traverse f t
    let ts ← traverseList f ts
    return t :: ts

def traverseEntries {m : Type → Type} [Monad m] (f : Variable → m Term) :
    List (Term × Term) → m (List (Term × Term))
  | [] => pure []
  | (k, x) :: es => do
    let k ← traverse f k
    let x ← traverse f x
    let es ← traverseEntries f es
    return (k, x) :: es

end

mutual

/-- The occurrences of variables. -/
def occurrences : Term → List Variable
  | var v => [v]
  | wildcard => []
  | scalar _ => []
  | seq ts => occurrencesList ts
  | map es => occurrencesEntries es
  | composite _ ts => occurrencesList ts

def occurrencesList : List Term → List Variable
  | [] => []
  | t :: ts => occurrences t ++ occurrencesList ts

def occurrencesEntries : List (Term × Term) → List Variable
  | [] => []
  | (k, x) :: es => occurrences k ++ (occurrences x ++ occurrencesEntries es)

end

/-- The distinct variables of a term, in the order of their first occurrences. -/
def vars (t : Term) : List Variable := t.occurrences.eraseDups

mutual

/-- Does the variable occur in the term? -/
def occurs (v : Variable) : Term → Bool
  | var w => decide (w = v)
  | wildcard => false
  | scalar _ => false
  | seq ts => occursList v ts
  | map es => occursEntries v es
  | composite _ ts => occursList v ts

def occursList (v : Variable) : List Term → Bool
  | [] => false
  | t :: ts => occurs v t || occursList v ts

def occursEntries (v : Variable) : List (Term × Term) → Bool
  | [] => false
  | (k, x) :: es => occurs v k || (occurs v x || occursEntries v es)

end

mutual

/-- A ground term holds neither a variable nor the wildcard. -/
def isGround : Term → Bool
  | var _ => false
  | wildcard => false
  | scalar _ => true
  | seq ts => isGroundList ts
  | map es => isGroundEntries es
  | composite _ ts => isGroundList ts

def isGroundList : List Term → Bool
  | [] => true
  | t :: ts => isGround t && isGroundList ts

def isGroundEntries : List (Term × Term) → Bool
  | [] => true
  | (k, x) :: es => isGround k && (isGround x && isGroundEntries es)

end

mutual

/-- The number of composites that lie around the deepest part of a term. -/
def height : Term → Nat
  | var _ => 0
  | wildcard => 0
  | scalar _ => 0
  | seq ts => heightList ts + 1
  | map es => heightEntries es + 1
  | composite _ ts => heightList ts + 1

def heightList : List Term → Nat
  | [] => 0
  | t :: ts => max (height t) (heightList ts)

def heightEntries : List (Term × Term) → Nat
  | [] => 0
  | (k, x) :: es => max (height k) (max (height x) (heightEntries es))

end

theorem occurrencesList_eq (ts : List Term) :
    occurrencesList ts = ts.flatMap occurrences := by
  induction ts with
  | nil => rfl
  | cons t ts ih => simp [occurrencesList, ih]

theorem occurrencesEntries_eq (es : List (Term × Term)) :
    occurrencesEntries es = (interleave es).flatMap occurrences := by
  induction es with
  | nil => rfl
  | cons e es ih => obtain ⟨k, x⟩ := e; simp [occurrencesEntries, ih]

theorem occursList_eq (v : Variable) (ts : List Term) :
    occursList v ts = ts.any (occurs v) := by
  induction ts with
  | nil => rfl
  | cons t ts ih => simp [occursList, ih]

theorem occursEntries_eq (v : Variable) (es : List (Term × Term)) :
    occursEntries v es = (interleave es).any (occurs v) := by
  induction es with
  | nil => rfl
  | cons e es ih => obtain ⟨k, x⟩ := e; simp [occursEntries, ih]

theorem isGroundList_eq (ts : List Term) : isGroundList ts = ts.all isGround := by
  induction ts with
  | nil => rfl
  | cons t ts ih => simp [isGroundList, ih]

theorem isGroundEntries_eq (es : List (Term × Term)) :
    isGroundEntries es = (interleave es).all isGround := by
  induction es with
  | nil => rfl
  | cons e es ih => obtain ⟨k, x⟩ := e; simp [isGroundEntries, ih]

theorem isGround_of_isComposite {t : Term} (h : t.isComposite = true) :
    t.isGround = t.members.all isGround := by
  cases t <;> simp_all [isComposite, isGround, isGroundList_eq, isGroundEntries_eq]

example : (map [(var ⟨1⟩, seq [var ⟨0⟩, var ⟨1⟩])]).vars = [⟨1⟩, ⟨0⟩] := by decide
example : (seq [nil, compound "f" [wildcard]]).height = 2 := by decide

end TermUnification.Term
