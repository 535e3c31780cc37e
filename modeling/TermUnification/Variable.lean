/-! Logic variables and their display names. A variable is a number; its name is kept apart, in the
table of the variables made so far, so that no operation on terms can depend on names. -/
namespace TermUnification

/-- A logic variable. Variables are ordered by their numbers, that is by creation. -/
structure Variable where
  id : Nat
  deriving DecidableEq, Repr

instance : LT Variable := ⟨fun v w => v.id < w.id⟩

instance (v w : Variable) : Decidable (v < w) := inferInstanceAs (Decidable (v.id < w.id))

theorem Variable.lt_def {v w : Variable} : v < w ↔ v.id < w.id := Iff.rfl

/-- Variables are hashed by their numbers, as they are compared. -/
instance : Hashable Variable := ⟨fun v => hash v.id⟩

/-- Order of creation. -/
def Variable.compare (v w : Variable) : Ordering := Ord.compare v.id w.id

/-- The variables made so far, each with its display name. Several may share one name. -/
structure Names where
  given : Array String
  deriving DecidableEq, Repr

namespace Names

def empty : Names := ⟨#[]⟩

/-- The name of a variable made without one. -/
def anonymous : String := "new_var"

/-- Was the variable made with this table? -/
def Known (names : Names) (v : Variable) : Prop := v.id < names.given.size

instance (names : Names) (v : Variable) : Decidable (names.Known v) :=
  inferInstanceAs (Decidable (v.id < names.given.size))

def nameOf (names : Names) (v : Variable) : String := names.given[v.id]?.getD anonymous

/-- The next variable, which the table does not know yet. -/
def next (names : Names) : Variable := ⟨names.given.size⟩

/-- Makes a variable with a display name. -/
def fresh (names : Names) (name : String) : Variable × Names :=
  (names.next, ⟨names.given.push name⟩)

/-- Makes a variable with the display name of another. -/
def renamed (names : Names) (v : Variable) : Variable × Names :=
  names.fresh (names.nameOf v)

/-- Makes one variable for each name, in order. -/
def ofNames (given : List String) : Names := ⟨given.toArray⟩

@[simp] theorem fresh_fst (names : Names) (name : String) : (names.fresh name).1 = names.next := rfl

theorem not_known_next (names : Names) : ¬ names.Known names.next := Nat.lt_irrefl _

@[simp] theorem nameOf_fresh (names : Names) (name : String) :
    (names.fresh name).2.nameOf names.next = name := by
  simp [nameOf, fresh, next]

/-- Making a variable changes no other name. -/
theorem nameOf_fresh_of_known {names : Names} {v : Variable} (h : names.Known v) (name : String) :
    (names.fresh name).2.nameOf v = names.nameOf v := by
  have h' : v.id < names.given.size := h
  simp [nameOf, fresh, Array.getElem?_push, Nat.ne_of_lt h']

theorem Known.fresh {names : Names} {v : Variable} (h : names.Known v) (name : String) :
    (names.fresh name).2.Known v := by
  have h' : v.id < names.given.size := h
  simp only [Known, Names.fresh, Array.size_push]
  omega

/-- A variable is written with a question mark before its name. -/
def text (names : Names) (v : Variable) : String := "?" ++ names.nameOf v

/-- A variable written with its number too, which tells variables of one name apart. -/
def numbered (names : Names) (v : Variable) : String := names.text v ++ "#" ++ toString v.id

example : (ofNames ["x", "y"]).text ⟨1⟩ = "?y" := by decide
example : ((ofNames ["x"]).renamed ⟨0⟩).2.numbered ⟨1⟩ = "?x#1" := by decide

end Names

end TermUnification
