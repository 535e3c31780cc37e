import Mathlib.Data.List.Basic

/-! Folds in which steps overwrite a value. What comes out is what was written last. -/
namespace TermUnification

variable {σ α β : Type} (value : σ → Option β) {step : σ → α → σ}

/-- Where each step overwrites a value or leaves it as it was, the last one that overwrites it counts. -/
theorem foldl_last_write {set? : α → Option β} (h : ∀ s a, value (step s a) = (set? a).or (value s))
    (s : σ) (as : List α) :
    value (as.foldl step s) = (as.filterMap set?).getLast?.or (value s) := by
  induction as generalizing s with
  | nil => rfl
  | cons a as ih =>
    rw [List.foldl_cons, ih, h, List.filterMap_cons]
    cases set? a with
    | none => rfl
    | some b => cases hb : (as.filterMap set?).getLast? <;> simp [List.getLast?_cons, hb]

theorem foldl_last_write_of_filter {p : α → Bool} {f : α → β}
    (h : ∀ s a, value (step s a) = if p a then some (f a) else value s) (s : σ) (as : List α) :
    value (as.foldl step s) = ((as.filter p).getLast?.map f).or (value s) := by
  have hset : ∀ s a, value (step s a) = (if p a then some (f a) else none : Option β).or (value s) := by
    intro s a
    rw [h]
    split <;> rfl
  rw [foldl_last_write value hset, ← List.getLast?_map, ← List.filterMap_eq_map, List.filterMap_filter]
  rfl

end TermUnification
