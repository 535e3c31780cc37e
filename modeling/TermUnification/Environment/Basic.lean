import TermUnification.Term.Equality
import TermUnification.Term.Printer

/-! Environments: finite maps from variables to terms, kept as a list that is strictly increasing in the
variables. Environments with the same bindings are therefore equal, in whatever order the bindings
were made. -/
namespace TermUnification

/-- A binding of a variable to a term. -/
abbrev Binding := Variable × Term

/-- A finite map from variables to terms. -/
structure Environment where
  bindings : List Binding
  increasing : bindings.Pairwise fun a b => a.1 < b.1
  deriving DecidableEq

namespace Environment

/-- The first binding of a variable in a list. -/
def find? (v : Variable) : List Binding → Option Term
  | [] => none
  | (w, t) :: bs => if v = w then some t else find? v bs

/-- Puts a binding into an increasing list, in place of one for the same variable. -/
def place (v : Variable) (t : Term) : List Binding → List Binding
  | [] => [(v, t)]
  | (w, u) :: bs =>
    if v < w then (v, t) :: (w, u) :: bs
    else if v = w then (v, t) :: bs
    else (w, u) :: place v t bs

theorem mem_place {v : Variable} {t : Term} {bs : List Binding} {b : Binding}
    (h : b ∈ place v t bs) : b = (v, t) ∨ b ∈ bs := by
  induction bs with
  | nil => simpa [place] using h
  | cons c bs ih =>
    obtain ⟨w, u⟩ := c
    simp only [place] at h
    split at h
    · simpa using h
    · split at h
      · rcases List.mem_cons.1 h with rfl | h
        · exact .inl rfl
        · exact .inr (List.mem_cons_of_mem _ h)
      · rcases List.mem_cons.1 h with rfl | h
        · exact .inr List.mem_cons_self
        · exact (ih h).imp_right (List.mem_cons_of_mem _)

theorem increasing_place {v : Variable} {t : Term} {bs : List Binding}
    (h : bs.Pairwise fun a b => a.1 < b.1) :
    (place v t bs).Pairwise fun a b => a.1 < b.1 := by
  induction bs with
  | nil => simp [place]
  | cons c bs ih =>
    obtain ⟨w, u⟩ := c
    obtain ⟨hw, hbs⟩ := List.pairwise_cons.1 h
    simp only [place]
    split
    · next hv =>
      refine List.pairwise_cons.2 ⟨fun b hb => ?_, h⟩
      rcases List.mem_cons.1 hb with rfl | hb
      · exact hv
      · exact Nat.lt_trans hv (hw b hb)
    · next hv =>
      split
      · next he => subst he; exact List.pairwise_cons.2 ⟨hw, hbs⟩
      · next he =>
        refine List.pairwise_cons.2 ⟨fun b hb => ?_, ih hbs⟩
        rcases mem_place hb with rfl | hb
        · exact Nat.lt_of_le_of_ne (Nat.le_of_not_lt hv) fun h => he (by
            cases v; cases w; exact congrArg Variable.mk h.symm)
        · exact hw b hb

theorem find?_place (v w : Variable) (t : Term) (bs : List Binding) :
    find? w (place v t bs) = if w = v then some t else find? w bs := by
  induction bs with
  | nil => rfl
  | cons c bs ih =>
    obtain ⟨x, u⟩ := c
    simp only [place]
    split
    · rfl
    · split
      · next he => subst he; simp only [find?]; split <;> rfl
      · next he =>
        simp only [find?, ih]
        by_cases hx : w = x
        · subst hx; simp [Ne.symm he]
        · simp [hx]

/-- The environment without bindings. -/
def empty : Environment := ⟨[], .nil⟩

/-- The term bound to a variable. -/
def lookup? (env : Environment) (v : Variable) : Option Term := find? v env.bindings

/-- A variable is fresh when it has no binding. -/
def isFresh (env : Environment) (v : Variable) : Bool := (env.lookup? v).isNone

def size (env : Environment) : Nat := env.bindings.length

def isEmpty (env : Environment) : Bool := env.bindings.isEmpty

/-- Binds a variable to a term, whatever it was bound to before. -/
def set (env : Environment) (v : Variable) (t : Term) : Environment :=
  ⟨place v t env.bindings, increasing_place env.increasing⟩

/-- Binds a variable, unless the term is the wildcard, which is never bound. -/
def bind (env : Environment) (v : Variable) (t : Term) : Environment :=
  if t.isWildcard then env else env.set v t

/-- Binds in order, so that the last of several bindings of one variable stands. -/
def extend (env : Environment) (bs : List Binding) : Environment :=
  bs.foldl (fun e b => e.bind b.1 b.2) env

def ofList (bs : List Binding) : Environment := empty.extend bs

@[simp] theorem lookup?_empty (v : Variable) : empty.lookup? v = none := rfl

@[simp] theorem lookup?_set (env : Environment) (v w : Variable) (t : Term) :
    (env.set v t).lookup? w = if w = v then some t else env.lookup? w :=
  find?_place v w t env.bindings

theorem lookup?_bind {t : Term} (h : t.isWildcard = false) (env : Environment) (v w : Variable) :
    (env.bind v t).lookup? w = if w = v then some t else env.lookup? w := by
  simp [bind, h]

@[simp] theorem bind_wildcard (env : Environment) (v : Variable) : env.bind v .wildcard = env := rfl

@[simp] theorem extend_nil (env : Environment) : env.extend [] = env := rfl

@[simp] theorem extend_cons (env : Environment) (b : Binding) (bs : List Binding) :
    env.extend (b :: bs) = (env.bind b.1 b.2).extend bs := rfl

theorem extend_append (env : Environment) (bs cs : List Binding) :
    env.extend (bs ++ cs) = (env.extend bs).extend cs := by
  simp [extend]

/-- Environments are compared by their bindings, and the bound terms structurally. -/
protected def beq (d e : Environment) : Bool := d.bindings == e.bindings

instance : BEq Environment := ⟨Environment.beq⟩

/-- The bindings in braces, in the order of the variables. -/
def render (names : Names) (env : Environment) : String :=
  if env.isEmpty then "\x7b\x7d"
  else
    let line (b : Binding) := names.text b.1 ++ " => " ++ b.2.render names
    "\x7b " ++ ", ".intercalate (env.bindings.map line) ++ " \x7d"

example : (ofList [(⟨1⟩, .nil), (⟨0⟩, .wildcard), (⟨1⟩, .int 2)]).bindings = [(⟨1⟩, .int 2)] := by
  decide
example : (ofList [(⟨1⟩, .nil), (⟨0⟩, .int 1)]).render (Names.ofNames ["x", "y"]) =
    "\x7b ?x => 1, ?y => nil \x7d" := by decide

end Environment

end TermUnification
