/-! How much is reported while terms are unified. -/
namespace TermUnification

/-- The verbosity of reports. Zero is silent. -/
structure TraceLevel where
  value : UInt8
  deriving DecidableEq, Repr

namespace TraceLevel

def silent : TraceLevel := ⟨0⟩

/-- One report at the start of each call. -/
def calls : TraceLevel := ⟨1⟩

/-- A report also of how each call ends. -/
def results : TraceLevel := ⟨2⟩

def isSilent (l : TraceLevel) : Bool := decide (l.value = 0)

/-- The next level up, if there is one. -/
def raise (l : TraceLevel) : TraceLevel := if l.value = 255 then l else ⟨l.value + 1⟩

/-- The given level, or else the next one up. -/
def trace (l : TraceLevel) (level : Option UInt8) : TraceLevel :=
  match level with
  | some n => ⟨n⟩
  | none => l.raise

/-- Does this level report what asks for the wanted one? Silence reports nothing, not even what asks
for silence. -/
def shows (l wanted : TraceLevel) : Bool := !l.isSilent && decide (wanted.value ≤ l.value)

/-- What a level shows, every higher level shows too. -/
theorem shows_mono {l k wanted : TraceLevel} (h : l.value ≤ k.value)
    (hl : l.shows wanted = true) : k.shows wanted = true := by
  simp only [shows, isSilent, Bool.and_eq_true, Bool.not_eq_true', decide_eq_false_iff_not,
    decide_eq_true_eq] at *
  refine ⟨fun hk => hl.1 ?_, UInt8.le_trans hl.2 h⟩
  rw [hk] at h
  exact UInt8.le_antisymm h (UInt8.zero_le)

example : (silent.raise, calls.raise, (⟨255⟩ : TraceLevel).raise) = (calls, results, ⟨255⟩) := by
  decide

end TraceLevel

end TermUnification
