import TermUnification.Trace.Event

/-! Computations that report what they do and may fail. -/
namespace TermUnification

/-- How a computation ends: with a value, with a clash, or not at all. -/
inductive Outcome (α : Type) where
  | done (value : α)
  | clash (cause : Clash)
  | endless
  deriving DecidableEq

/-- A computation as the reports that it makes, in order, and its outcome. -/
structure Attempt (α : Type) where
  log : List Event
  outcome : Outcome α
  deriving DecidableEq

namespace Attempt

/-- A clash, without a report. -/
def fail {α : Type} (cause : Clash) : Attempt α := ⟨[], .clash cause⟩

/-- A computation that never ends. -/
def endless {α : Type} : Attempt α := ⟨[], .endless⟩

/-- One report. -/
def report (e : Event) : Attempt Unit := ⟨[e], .done ()⟩

protected def pure {α : Type} (a : α) : Attempt α := ⟨[], .done a⟩

/-- Goes on with the value of a computation, and ends where it ends if it has none. -/
protected def bind {α β : Type} (x : Attempt α) (f : α → Attempt β) : Attempt β :=
  match x.outcome with
  | .done a => ⟨x.log ++ (f a).log, (f a).outcome⟩
  | .clash cause => ⟨x.log, .clash cause⟩
  | .endless => ⟨x.log, .endless⟩

instance : Monad Attempt where
  pure := Attempt.pure
  bind := Attempt.bind

@[simp] theorem pure_def {α : Type} (a : α) : (pure a : Attempt α) = ⟨[], .done a⟩ := rfl

theorem bind_def {α β : Type} (x : Attempt α) (f : α → Attempt β) : x >>= f = x.bind f := rfl

@[simp] theorem done_bind {α β : Type} (log : List Event) (a : α) (f : α → Attempt β) :
    (⟨log, .done a⟩ : Attempt α) >>= f = ⟨log ++ (f a).log, (f a).outcome⟩ := rfl

@[simp] theorem clash_bind {α β : Type} (log : List Event) (cause : Clash) (f : α → Attempt β) :
    (⟨log, .clash cause⟩ : Attempt α) >>= f = ⟨log, .clash cause⟩ := rfl

@[simp] theorem endless_bind {α β : Type} (log : List Event) (f : α → Attempt β) :
    (⟨log, .endless⟩ : Attempt α) >>= f = ⟨log, .endless⟩ := rfl

theorem map_id_eq {α : Type} (x : Attempt α) : id <$> x = x := by
  obtain ⟨log, outcome⟩ := x
  cases outcome <;> simp [Functor.map, Attempt.bind, Attempt.pure]

theorem bind_assoc_eq {α β γ : Type} (x : Attempt α) (f : α → Attempt β) (g : β → Attempt γ) :
    x >>= f >>= g = x >>= fun a => f a >>= g := by
  obtain ⟨log, outcome⟩ := x
  cases outcome with
  | done a => cases h : (f a).outcome <;> simp [bind_def, Attempt.bind, h]
  | clash cause => rfl
  | endless => rfl

instance : LawfulMonad Attempt :=
  LawfulMonad.mk' Attempt map_id_eq (fun a f => by simp) bind_assoc_eq

/-- Does the computation end with a value? -/
def succeeds {α : Type} (x : Attempt α) : Bool :=
  match x.outcome with
  | .done _ => true
  | _ => false

/-- Turns a clash into an answer: the value is whether there was one. -/
def test {α : Type} (x : Attempt α) : Attempt Bool :=
  match x.outcome with
  | .done _ => ⟨x.log, .done true⟩
  | .clash _ => ⟨x.log, .done false⟩
  | .endless => ⟨x.log, .endless⟩

end Attempt

end TermUnification
