import TermUnification.Environment.Rename
import TermUnification.Proofs.Acyclic

/-! The run of a renaming. Its state is determined by the occurrences that it has seen, and each of them
is replaced by what the variable stands for in the state just after it. -/
namespace TermUnification

/-- A later table, which knows all the variables of an earlier one under the same names. -/
structure Names.Grows (earlier later : Names) : Prop where
  known : ∀ v, earlier.Known v → later.Known v
  nameOf : ∀ v, earlier.Known v → later.nameOf v = earlier.nameOf v

namespace Names

theorem Grows.refl (names : Names) : names.Grows names := ⟨fun _ h => h, fun _ _ => rfl⟩

theorem Grows.trans {a b c : Names} (h : a.Grows b) (h' : b.Grows c) : a.Grows c :=
  ⟨fun v hv => h'.known v (h.known v hv),
    fun v hv => (h'.nameOf v (h.known v hv)).trans (h.nameOf v hv)⟩

theorem grows_renamed (names : Names) (v : Variable) : names.Grows (names.renamed v).2 :=
  ⟨fun _ h => h.fresh _, fun _ h => nameOf_fresh_of_known h _⟩

theorem known_renamed (names : Names) (v : Variable) : (names.renamed v).2.Known names.next := by
  simp [Known, renamed, fresh, next]

end Names

/-- Have all variables of the environment been made with the table? -/
def Environment.KnownTo (env : Environment) (names : Names) : Prop :=
  ∀ v t, env.lookup? v = some t → names.Known v ∧ ∀ w, t.occurs w = true → names.Known w

namespace Environment

variable {env : Environment} {names : Names}

theorem KnownTo.mono (h : env.KnownTo names) {later : Names} (hgrows : names.Grows later) :
    env.KnownTo later := by
  intro v t hv
  obtain ⟨hkv, hkt⟩ := h v t hv
  exact ⟨hgrows.known v hkv, fun w hw => hgrows.known w (hkt w hw)⟩

theorem KnownTo.set (h : env.KnownTo names) {v : Variable} {t : Term} (hv : names.Known v)
    (ht : ∀ w, t.occurs w = true → names.Known w) : (env.set v t).KnownTo names := by
  intro w u hw
  rcases lookup?_set_cases hw with ⟨rfl, rfl⟩ | hold
  · exact ⟨hv, ht⟩
  · exact h w u hold

theorem knownTo_single {v : Variable} {t : Term} (hv : names.Known v)
    (ht : ∀ w ∈ t.occurrences, names.Known w) : (ofList [(v, t)]).KnownTo names := by
  have hempty : empty.KnownTo names := fun w u hw => by simp at hw
  rw [ofList, extend_cons, extend_nil, bind]
  split
  · exact hempty
  · exact hempty.set hv fun w hw => ht w (Term.mem_occurrences.2 hw)

end Environment

namespace Renaming
open Environment

/-- The state after an occurrence of a variable. -/
def see (r : Renaming) (v : Variable) : Renaming :=
  match r.env.lookup? v with
  | some _ => r
  | none => ⟨(r.names.renamed v).2, r.env.set v (.var r.names.next), r.made ++ [(v, r.names.next)]⟩

/-- The state after a list of occurrences. -/
def seeAll (r : Renaming) (vs : List Variable) : Renaming := vs.foldl see r

@[simp] theorem seeAll_nil (r : Renaming) : r.seeAll [] = r := rfl

@[simp] theorem seeAll_cons (r : Renaming) (v : Variable) (vs : List Variable) :
    r.seeAll (v :: vs) = (r.see v).seeAll vs := rfl

@[simp] theorem seeAll_append (r : Renaming) (vs ws : List Variable) :
    r.seeAll (vs ++ ws) = (r.seeAll vs).seeAll ws := List.foldl_append

section See

variable {r : Renaming} {v : Variable}

theorem see_of_bound {t : Term} (h : r.env.lookup? v = some t) : r.see v = r := by
  simp [see, h]

theorem see_of_fresh (h : r.env.lookup? v = none) :
    r.see v = ⟨(r.names.renamed v).2, r.env.set v (.var r.names.next),
      r.made ++ [(v, r.names.next)]⟩ := by
  simp [see, h]

theorem extends_see (r : Renaming) (v : Variable) : (r.see v).env.Extends r.env := by
  cases h : r.env.lookup? v with
  | some t => rw [see_of_bound h]; exact .refl _
  | none => rw [see_of_fresh h]; exact extends_set h _

theorem grows_see (r : Renaming) (v : Variable) : r.names.Grows (r.see v).names := by
  cases h : r.env.lookup? v with
  | some t => rw [see_of_bound h]; exact .refl _
  | none => rw [see_of_fresh h]; exact r.names.grows_renamed v

theorem lookup?_see_of_ne {w : Variable} (h : w ≠ v) :
    (r.see v).env.lookup? w = r.env.lookup? w := by
  cases hv : r.env.lookup? v with
  | some t => rw [see_of_bound hv]
  | none => simp [see_of_fresh hv, h]

end See

section SeeAll

variable {r : Renaming} {vs : List Variable} {v w : Variable}

theorem extends_seeAll (r : Renaming) (vs : List Variable) :
    (r.seeAll vs).env.Extends r.env := by
  induction vs generalizing r with
  | nil => exact .refl _
  | cons x vs ih => exact (ih (r.see x)).trans (extends_see r x)

theorem grows_seeAll (r : Renaming) (vs : List Variable) :
    r.names.Grows (r.seeAll vs).names := by
  induction vs generalizing r with
  | nil => exact .refl _
  | cons x vs ih => exact (grows_see r x).trans (ih (r.see x))

theorem lookup?_seeAll_of_not_mem (h : v ∉ vs) :
    (r.seeAll vs).env.lookup? v = r.env.lookup? v := by
  induction vs generalizing r with
  | nil => rfl
  | cons x vs ih =>
    obtain ⟨hx, hvs⟩ := List.ne_and_not_mem_of_not_mem_cons h
    rw [seeAll_cons, ih hvs, lookup?_see_of_ne hx]

/-- The first occurrence of a fresh variable binds it to a new variable of the same name. -/
theorem lookup?_seeAll_of_mem (hv : v ∈ vs) (hfresh : r.env.lookup? v = none)
    (hknown : r.names.Known v) :
    ∃ w, (r.seeAll vs).env.lookup? v = some (.var w) ∧ ¬ r.names.Known w ∧
      (r.seeAll vs).names.nameOf w = r.names.nameOf v := by
  induction vs generalizing r with
  | nil => cases hv
  | cons x vs ih =>
    by_cases hx : v = x
    · subst hx
      refine ⟨r.names.next, extends_seeAll _ vs v _ ?_, r.names.not_known_next, ?_⟩
      · simp [see_of_fresh hfresh]
      · rw [seeAll_cons, (grows_seeAll _ vs).nameOf, see_of_fresh hfresh]
        · exact r.names.nameOf_fresh _
        · rw [see_of_fresh hfresh]
          exact r.names.known_renamed v
    · obtain ⟨w, hw, hnew, hname⟩ := ih (r := r.see x) (List.mem_of_ne_of_mem hx hv)
        ((lookup?_see_of_ne hx).trans hfresh) ((grows_see r x).known v hknown)
      exact ⟨w, hw, fun h => hnew ((grows_see r x).known w h),
        hname.trans ((grows_see r x).nameOf v hknown)⟩

end SeeAll

/-- A state without cycles of bindings, whose variables have all been made. -/
structure Sound (r : Renaming) : Prop where
  acyclic : r.env.Acyclic
  known : r.env.KnownTo r.names

namespace Sound

variable {r : Renaming} (hr : r.Sound) {v : Variable}

include hr

theorem lookup?_of_not_known (hv : ¬ r.names.Known v) : r.env.lookup? v = none := by
  cases h : r.env.lookup? v with
  | none => rfl
  | some t => exact absurd (hr.known v t h).1 hv

theorem assignable (hv : r.names.Known v) (hfresh : r.env.lookup? v = none) :
    r.env.Assignable v (.var r.names.next) := by
  have hnext := r.names.not_known_next
  refine ⟨hfresh, fun w hw => ?_, rfl⟩
  rw [Term.occurs_var] at hw
  subst hw
  exact ⟨fun h => hnext (h ▸ hv), hr.lookup?_of_not_known hnext⟩

protected theorem see (hv : r.names.Known v) : (r.see v).Sound := by
  cases hl : r.env.lookup? v with
  | some t => rwa [see_of_bound hl]
  | none =>
    rw [see_of_fresh hl]
    refine ⟨(hr.assignable hv hl).acyclic hr.acyclic, ?_⟩
    refine (hr.known.mono (r.names.grows_renamed v)).set ((r.names.grows_renamed v).known v hv) ?_
    intro w hw
    rw [Term.occurs_var] at hw
    exact hw ▸ r.names.known_renamed v

protected theorem seeAll {vs : List Variable} (hvs : ∀ v ∈ vs, r.names.Known v) :
    (r.seeAll vs).Sound := by
  induction vs generalizing r with
  | nil => exact hr
  | cons x vs ih =>
    obtain ⟨hx, hvs⟩ := List.forall_mem_cons.1 hvs
    exact ih (hr.see hx) fun v hv => (grows_see r x).known v (hvs v hv)

/-- An occurrence is replaced by what the variable stands for in the state after it. -/
theorem replace_run (hv : r.names.Known v) :
    (replace v).run r = some ((r.see v).env.value v, r.see v) := by
  cases hl : r.env.lookup? v with
  | some t =>
    have hrun : (replace v).run r = (r.env.instantiate? t).map fun u => (u, r) := by
      simp [replace, StateT.run, hl]
    rw [hrun, hr.acyclic.instantiate?_eq, see_of_bound hl, hr.acyclic.value_of_bound hl]
    rfl
  | none =>
    have hrun : (replace v).run r = some (.var r.names.next, r.see v) := by
      simp only [replace, StateT.run, hl, see_of_fresh hl]
      rfl
    rw [hrun, see_of_fresh hl, (hr.assignable hv hl).value_set hr.acyclic]

end Sound

end Renaming

end TermUnification
