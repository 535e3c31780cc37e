import TermUnification.Scalar
import TermUnification.Variable

/-! Terms, the kinds of term, and the members that a term is taken apart into. -/
namespace TermUnification

/-- What stands before the arguments of a composite. A named composite is an ordinary compound term.
A foreign one stands for a structure kept elsewhere: it may state an arity that differs from the
number of its arguments, and it shows whether it has been put together from new arguments.

Of a foreign structure it is assumed that putting it together again from other arguments keeps its tag and
takes exactly these arguments, and that its arity is either one fixed number or that of its arguments. -/
inductive Label where
  | named (name : String)
  | foreign (tag : String) (arity : Option Nat) (rebuilt : Bool)
  deriving DecidableEq, Repr

namespace Label

/-- The kind of composite; composites of different tags never agree. -/
def tag : Label → String
  | named name => name
  | foreign tag _ _ => tag

/-- The arity of a composite with `n` arguments. -/
def arity (l : Label) (n : Nat) : Nat :=
  match l with
  | named _ => n
  | foreign _ stated _ => stated.getD n

/-- The label after the arguments have been replaced. That tag and arity stay is what is assumed of foreign
structures. -/
def rebuild : Label → Label
  | named name => named name
  | foreign tag arity _ => foreign tag arity true

@[simp] theorem tag_rebuild (l : Label) : l.rebuild.tag = l.tag := by cases l <;> rfl

@[simp] theorem arity_rebuild (l : Label) (n : Nat) : l.rebuild.arity n = l.arity n := by
  cases l <;> rfl

@[simp] theorem rebuild_rebuild (l : Label) : l.rebuild.rebuild = l.rebuild := by cases l <;> rfl

end Label

/-- A term. The wildcard matches anything and is never bound. A map is a list of entries in the order
in which their keys were first inserted. -/
inductive Term where
  | var (v : Variable)
  | wildcard
  | scalar (s : Scalar)
  | seq (items : List Term)
  | map (entries : List (Term × Term))
  | composite (label : Label) (args : List Term)

namespace Term

instance : Inhabited Term := ⟨wildcard⟩

def isVar : Term → Bool
  | var _ => true
  | _ => false

def isWildcard : Term → Bool
  | wildcard => true
  | _ => false

def isScalar : Term → Bool
  | scalar _ => true
  | _ => false

/-- Can the term be taken apart? -/
def isComposite : Term → Bool
  | seq _ | map _ | composite _ _ => true
  | _ => false

/-- A list of entries as one list, each key before its value. -/
def interleave (entries : List (Term × Term)) : List Term :=
  entries.flatMap fun e => [e.1, e.2]

@[simp] theorem interleave_nil : interleave [] = [] := rfl

@[simp] theorem interleave_cons (e : Term × Term) (es : List (Term × Term)) :
    interleave (e :: es) = e.1 :: e.2 :: interleave es := rfl

/-- The direct parts of a term, from left to right. -/
def members : Term → List Term
  | seq items => items
  | map entries => interleave entries
  | composite _ args => args
  | _ => []

@[simp] theorem members_var (v : Variable) : (var v).members = [] := rfl
@[simp] theorem members_wildcard : wildcard.members = [] := rfl
@[simp] theorem members_scalar (s : Scalar) : (scalar s).members = [] := rfl
@[simp] theorem members_seq (ts : List Term) : (seq ts).members = ts := rfl
@[simp] theorem members_map (es : List (Term × Term)) : (map es).members = interleave es := rfl
@[simp] theorem members_composite (l : Label) (ts : List Term) :
    (composite l ts).members = ts := rfl

/-- Induction over a term through its members, whatever its kind. -/
theorem memberInduction {motive : Term → Prop}
    (step : ∀ t, (∀ m ∈ t.members, motive m) → motive t) (t : Term) : motive t := by
  refine @Term.rec motive (fun ts => ∀ m ∈ ts, motive m)
    (fun es => ∀ m ∈ interleave es, motive m) (fun e => motive e.1 ∧ motive e.2)
    ?_ ?_ ?_ ?_ ?_ ?_ ?_ ?_ ?_ ?_ ?_ t
  · intro v; exact step _ (by simp)
  · exact step _ (by simp)
  · intro s; exact step _ (by simp)
  · intro ts ih; exact step _ ih
  · intro es ih; exact step _ ih
  · intro l ts ih; exact step _ ih
  · simp
  · intro t ts ht hts m hm
    rcases List.mem_cons.1 hm with rfl | hm
    · exact ht
    · exact hts m hm
  · simp
  · intro e es he hes m hm
    simp only [interleave_cons, List.mem_cons] at hm
    rcases hm with rfl | rfl | hm
    · exact he.1
    · exact he.2
    · exact hes m hm
  · intro k x hk hx; exact ⟨hk, hx⟩

mutual

/-- Terms have decidable equality: the same constructors with the same parts throughout. -/
protected def decEq : (a b : Term) → Decidable (a = b)
  | var v, var w => if h : v = w then isTrue (by rw [h]) else isFalse (by simp [h])
  | wildcard, wildcard => isTrue rfl
  | scalar s, scalar t => if h : s = t then isTrue (by rw [h]) else isFalse (by simp [h])
  | seq ts, seq us =>
    match Term.decEqList ts us with
    | isTrue h => isTrue (by rw [h])
    | isFalse h => isFalse (by simp [h])
  | map es, map fs =>
    match Term.decEqEntries es fs with
    | isTrue h => isTrue (by rw [h])
    | isFalse h => isFalse (by simp [h])
  | composite l ts, composite k us =>
    if h : l = k then
      match Term.decEqList ts us with
      | isTrue h' => isTrue (by rw [h, h'])
      | isFalse h' => isFalse (by simp [h'])
    else isFalse (by simp [h])
  | var _, wildcard | var _, scalar _ | var _, seq _ | var _, map _ | var _, composite _ _
  | wildcard, var _ | wildcard, scalar _ | wildcard, seq _ | wildcard, map _
  | wildcard, composite _ _
  | scalar _, var _ | scalar _, wildcard | scalar _, seq _ | scalar _, map _
  | scalar _, composite _ _
  | seq _, var _ | seq _, wildcard | seq _, scalar _ | seq _, map _ | seq _, composite _ _
  | map _, var _ | map _, wildcard | map _, scalar _ | map _, seq _ | map _, composite _ _
  | composite _ _, var _ | composite _ _, wildcard | composite _ _, scalar _
  | composite _ _, seq _ | composite _ _, map _ => isFalse nofun

protected def decEqList : (ts us : List Term) → Decidable (ts = us)
  | [], [] => isTrue rfl
  | t :: ts, u :: us =>
    match Term.decEq t u, Term.decEqList ts us with
    | isTrue h, isTrue h' => isTrue (by rw [h, h'])
    | isFalse h, _ => isFalse (by simp [h])
    | _, isFalse h => isFalse (by simp [h])
  | [], _ :: _ | _ :: _, [] => isFalse nofun

protected def decEqEntries : (es fs : List (Term × Term)) → Decidable (es = fs)
  | [], [] => isTrue rfl
  | (k, x) :: es, (l, y) :: fs =>
    match Term.decEq k l, Term.decEq x y, Term.decEqEntries es fs with
    | isTrue h, isTrue h', isTrue h'' => isTrue (by rw [h, h', h''])
    | isFalse h, _, _ => isFalse (by simp [h])
    | _, isFalse h, _ => isFalse (by simp [h])
    | _, _, isFalse h => isFalse (by simp [h])
  | [], _ :: _ | _ :: _, [] => isFalse nofun

end

instance : DecidableEq Term := Term.decEq

/-- An atom, such as a record key. -/
def atom (name : String) : Term := scalar (.atom name)

/-- A text. -/
def text (content : String) : Term := scalar (.text content)

/-- An integer. -/
def int (n : Int64) : Term := scalar (.int n)

/-- The empty value. -/
def nil : Term := scalar .nil

/-- A compound term `name(args)`. -/
def compound (name : String) (args : List Term) : Term := composite (.named name) args

end Term

end TermUnification
