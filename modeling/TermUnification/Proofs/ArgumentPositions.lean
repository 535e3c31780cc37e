import TermUnification.Proofs.Arguments

/-! Arguments read by position. The reading moves along the arguments by one or two positions at a time and
looks at the one it stands on, at the operand after an option, and at what may be a level. It never looks
past the last one, it comes to an end, and there it asks for what the arguments from its first position on
are read as. -/
namespace TermUnification

namespace Options

/-- Where a reading stands: at a position, with what is asked for so far. -/
structure Cursor where
  position : Nat
  options : Options
  deriving DecidableEq, Repr

/-- How a reading ends: with what is asked for, or astray, at a position that has no argument. -/
inductive Ending where
  | request (r : Request)
  | astray
  deriving DecidableEq, Repr

/-- What one turn of the reading comes to. -/
inductive Turn where
  | next (c : Cursor)
  | stop (e : Ending)
  deriving DecidableEq, Repr

/-- The turn of an option that needs an operand: the argument after it, whatever that looks like. -/
def operandTurn (args : List String) (c : Cursor) (missing : Refusal) (put : String → Options) : Turn :=
  if c.position + 1 < args.length then
    match args[c.position + 1]? with
    | .none => .stop .astray
    | some file => .next ⟨c.position + 2, put file⟩
  else .stop (.request (.refused missing))

/-- The turn of the trace option. There need not be an argument after it. -/
def traceTurn (args : List String) (c : Cursor) : Turn :=
  match args[c.position + 1]?.bind fun next => byte? next.toList with
  | some n => .next ⟨c.position + 2, { c.options with trace := some n }⟩
  | .none => .next ⟨c.position + 1, { c.options with trace := some 1 }⟩

/-- The turn of an argument, by the option that it is. -/
def turnOf (args : List String) (c : Cursor) (arg : String) : Option Flag → Turn
  | .none => .stop (.request (.refused (.unknown arg)))
  | some .help => .stop (.request .help)
  | some .version => .stop (.request .version)
  | some .output => operandTurn args c .missingOutput fun file => { c.options with output := some file }
  | some .config => operandTurn args c .missingConfig fun file => { c.options with config := some file }
  | some .trace => traceTurn args c
  | some .occursCheck => .next ⟨c.position + 1, { c.options with occursCheck := true }⟩

/-- One turn of the reading. -/
def turn (args : List String) (c : Cursor) : Turn :=
  if c.position < args.length then
    match args[c.position]? with
    | .none => .stop .astray
    | some arg => turnOf args c arg (Flag.ofText? arg)
  else .stop (.request (.run c.options))

/-- A reading that comes to an end, turn after turn. -/
inductive Runs (args : List String) : Cursor → Ending → Prop
  | stop {c : Cursor} {e : Ending} (h : turn args c = .stop e) : Runs args c e
  | next {c c' : Cursor} {e : Ending} (h : turn args c = .next c') (tail : Runs args c' e) : Runs args c e

/-- What is asked for from a cursor on: the arguments from its position, read on top of what is asked for
so far. -/
def Cursor.request (args : List String) (c : Cursor) : Request := c.options.read (args.drop c.position)

/-- What a turn may come to: a cursor further on, up to the end of the arguments, from which the same is
asked for, or a stop that asks for it. -/
inductive Turn.Keeps (args : List String) (c : Cursor) : Turn → Prop
  | next {c' : Cursor} (further : c.position < c'.position) (within : c'.position ≤ args.length)
    (same : c.request args = c'.request args) : Keeps args c (.next c')
  | stop {r : Request} (same : c.request args = r) : Keeps args c (.stop (.request r))

section Turns

variable {args : List String} {c : Cursor} (hlt : c.position < args.length)
include hlt

/-- The arguments from a cursor on begin with the one it stands on. -/
theorem Cursor.request_of_lt :
    c.request args = c.options.read (args[c.position] :: args.drop (c.position + 1)) := by
  rw [request, List.drop_eq_getElem_cons hlt]

theorem operandTurn_keeps {missing : Refusal} {put : String → Options}
    (hmissing : Settles [args[c.position]] (.refused missing))
    (hput : ∀ file rest, c.options.read (args[c.position] :: file :: rest) = (put file).read rest) :
    (operandTurn args c missing put).Keeps args c := by
  have hrequest := Cursor.request_of_lt hlt
  unfold operandTurn
  by_cases hnext : c.position + 1 < args.length
  · rw [List.drop_eq_getElem_cons hnext, hput] at hrequest
    rw [if_pos hnext, List.getElem?_eq_getElem hnext]
    exact .next (by simp) hnext hrequest
  · rw [List.drop_eq_nil_of_le (Nat.le_of_not_lt hnext), hmissing.read_eq] at hrequest
    rw [if_neg hnext]
    exact .stop hrequest

theorem traceTurn_keeps (htrace : args[c.position] ∈ Flag.trace.spellings) :
    (traceTurn args c).Keeps args c := by
  have hrequest := Cursor.request_of_lt hlt
  unfold traceTurn
  cases hlevel : args[c.position + 1]?.bind fun next => byte? next.toList with
  | none =>
    have hbare : (OptionGroup.trace .none).MayPrecede (args.drop (c.position + 1)) := by
      intro _ next hnext
      rw [List.head?_drop] at hnext
      simpa [Option.mem_def.1 hnext] using hlevel
    exact .next (by simp) hlt (hrequest.trans (read_append (.bare htrace) hbare _))
  | some n =>
    obtain ⟨next, hnext, hn⟩ := Option.bind_eq_some_iff.1 hlevel
    obtain ⟨hlt', rfl⟩ := List.getElem?_eq_some_iff.1 hnext
    rw [List.drop_eq_getElem_cons hlt'] at hrequest
    exact .next (by simp) hlt' (hrequest.trans (read_append (.level htrace hn) nofun _))

theorem turnOf_keeps : (turnOf args c args[c.position] (Flag.ofText? args[c.position])).Keeps args c := by
  have hrequest := Cursor.request_of_lt hlt
  cases hflag : Flag.ofText? args[c.position] with
  | none =>
    have hunknown := Flag.ofText?_eq_none_iff.1 hflag
    exact .stop (hrequest.trans ((Settles.unknown hunknown _).read_eq _))
  | some f =>
    have hf := Flag.ofText?_eq_some_iff.1 hflag
    cases f with
    | help => exact .stop (hrequest.trans ((Settles.help hf _).read_eq _))
    | version => exact .stop (hrequest.trans ((Settles.version hf _).read_eq _))
    | output =>
      exact operandTurn_keeps hlt (.noOutput hf) fun file rest => read_append (.output hf file) nofun _
    | config =>
      exact operandTurn_keeps hlt (.noConfig hf) fun file rest => read_append (.config hf file) nofun _
    | trace => exact traceTurn_keeps hlt hf
    | occursCheck => exact .next (by simp) hlt (hrequest.trans (read_append (.occursCheck hf) nofun _))

end Turns

/-- No turn goes astray: each keeps what is asked for. -/
theorem turn_keeps (args : List String) (c : Cursor) : (turn args c).Keeps args c := by
  unfold turn
  by_cases hlt : c.position < args.length
  · rw [if_pos hlt, List.getElem?_eq_getElem hlt]
    exact turnOf_keeps hlt
  · rw [if_neg hlt]
    exact .stop (by rw [Cursor.request, List.drop_eq_nil_of_le (Nat.le_of_not_lt hlt), read])

variable {args : List String} {c : Cursor} {e : Ending}

theorem Runs.end_eq (h : Runs args c e) : e = .request (c.request args) := by
  induction h with
  | @stop c e h =>
    cases h ▸ turn_keeps args c with
    | stop same => rw [same]
  | @next c c' e h _ ih =>
    cases h ▸ turn_keeps args c with
    | next _ _ same => rw [ih, same]

theorem runs_request (args : List String) (c : Cursor) : Runs args c (.request (c.request args)) := by
  -- On the number of positions that are left.
  induction hn : args.length - c.position using Nat.strongRecOn generalizing c with
  | ind n ih =>
    have hkeeps := turn_keeps args c
    generalize hturn : turn args c = t at hkeeps
    cases hkeeps with
    | next further within same =>
      rw [same]
      exact .next hturn (ih _ (by omega) _ rfl)
    | stop same =>
      rw [same]
      exact .stop hturn

/-- A reading comes to one end: what the arguments from its first position on ask for. -/
theorem runs_iff : Runs args c e ↔ e = .request (c.request args) :=
  ⟨Runs.end_eq, fun h => h ▸ runs_request args c⟩

end Options

end TermUnification
