import TermUnification.Proofs.Substitution

/-! Terms put in place of the variables of a term, where each occurrence may be given a term of its own.
Substitutions are the case in which a variable is given one term throughout; a walk with a state gives
what it finds on its way. -/
namespace TermUnification

namespace Term

/-- Is the second term the first one with related terms in place of its variables? -/
inductive Replaced (R : Variable → Term → Prop) : Term → Term → Prop
  | var {v : Variable} {u : Term} (h : R v u) : Replaced R (var v) u
  | node {t : Term} {us : List Term} (ht : t.isVar = false)
      (h : List.Forall₂ (Replaced R) t.members us) : Replaced R t (t.withMembers us)

theorem interleave_pairUp {us : List Term} {es : List (Term × Term)}
    (h : us.length = (interleave es).length) : interleave (pairUp us) = us := by
  induction es generalizing us with
  | nil => rw [List.eq_nil_of_length_eq_zero h]; rfl
  | cons e es ih =>
    match us, h with
    | k :: x :: us, h =>
      rw [pairUp, interleave_cons, ih (by simpa using h)]

theorem members_withMembers {t : Term} {us : List Term} (ht : t.isVar = false)
    (h : us.length = t.members.length) : (t.withMembers us).members = us := by
  cases t with
  | var v => cases ht
  | wildcard => exact (List.eq_nil_of_length_eq_zero h).symm
  | scalar s => exact (List.eq_nil_of_length_eq_zero h).symm
  | seq ts => rfl
  | map es => exact interleave_pairUp h
  | composite l ts => rfl

namespace Replaced

variable {R S : Variable → Term → Prop} {t u : Term}

theorem of_var {v : Variable} (h : Replaced R (Term.var v) u) : R v u := by
  cases h with
  | var h => exact h
  | node ht _ => cases ht

theorem members (h : Replaced R t u) (ht : t.isVar = false) :
    ∃ us, u = t.withMembers us ∧ List.Forall₂ (Replaced R) t.members us := by
  cases h with
  | var h => cases ht
  | node _ h => exact ⟨_, rfl, h⟩

theorem imp (h : Replaced R t u) (hRS : ∀ v x, t.occurs v = true → R v x → S v x) :
    Replaced S t u := by
  induction t using nodeInduction generalizing u with
  | var v => exact .var (hRS v u (by simp) h.of_var)
  | node t ht ih =>
    obtain ⟨us, rfl, hus⟩ := h.members ht
    refine .node ht (forall₂_imp (fun m hm x hx => ?_) hus)
    exact ih m hm hx fun v y hv => hRS v y (occurs_of_member hm hv)

/-- What is found for each variable is a substitution. -/
theorem eq_subst {σ : Variable → Term} (h : Replaced (fun v x => x = σ v) t u) : u = t.subst σ := by
  induction t using nodeInduction generalizing u with
  | var v => exact h.of_var
  | node t ht ih =>
    obtain ⟨us, rfl, hus⟩ := h.members ht
    have hmap : List.Forall₂ (· = ·) (t.members.map (subst σ)) us :=
      List.forall₂_map_left_iff.2 (forall₂_imp (fun m hm x hx => (ih m hm hx).symm) hus)
    rw [List.forall₂_eq_eq_eq] at hmap
    rw [subst_node σ ht, hmap]

/-- A substitution in the result is one in what the variables have been replaced by. -/
theorem subst (h : Replaced R t u) (τ : Variable → Term) :
    Replaced (fun v x => ∃ y, R v y ∧ x = y.subst τ) t (u.subst τ) := by
  induction t using nodeInduction generalizing u with
  | var v => exact .var ⟨u, h.of_var, rfl⟩
  | node t ht ih =>
    obtain ⟨us, rfl, hus⟩ := h.members ht
    rw [subst_node τ (by simpa using ht), members_withMembers ht hus.length_eq.symm,
      withMembers_withMembers]
    exact .node ht (List.forall₂_map_right_iff.2 (forall₂_imp (fun m hm _ hx => ih m hm hx) hus))

theorem occurs (h : Replaced R t u) {w : Variable} (hw : u.occurs w = true) :
    ∃ v x, t.occurs v = true ∧ R v x ∧ x.occurs w = true := by
  induction t using nodeInduction generalizing u with
  | var v => exact ⟨v, u, by simp, h.of_var, hw⟩
  | node t ht ih =>
    obtain ⟨us, rfl, hus⟩ := h.members ht
    rw [occurs_node (by simpa using ht), members_withMembers ht hus.length_eq.symm] at hw
    obtain ⟨x, hx, hxw⟩ := hw
    obtain ⟨m, hm, hmx⟩ := exists_of_forall₂ hus hx
    obtain ⟨v, y, hv, hvy, hyw⟩ := ih m hm hmx hxw
    exact ⟨v, y, (occurs_node ht v).2 ⟨m, hm, hv⟩, hvy, hyw⟩

end Replaced

theorem replaced_subst (σ : Variable → Term) (t : Term) :
    Replaced (fun v x => x = σ v) t (t.subst σ) := by
  induction t using nodeInduction with
  | var v => exact .var rfl
  | node t ht ih =>
    rw [subst_node σ ht]
    exact .node ht (List.forall₂_map_right_iff.2 (List.forall₂_same.2 ih))

section Walk

variable {S : Type} {f : Variable → StateT S Option Term} {I : S → Prop}
  {R : Variable → Term → Prop}

theorem replacedList_of_traverse {ts us : List Term} {s s' : S}
    (hts : ∀ t ∈ ts, ∀ u s s', I s → (t.traverse f).run s = some (u, s') → Replaced R t u ∧ I s')
    (hs : I s) (h : (traverseList f ts).run s = some (us, s')) :
    List.Forall₂ (Replaced R) ts us ∧ I s' := by
  induction ts generalizing us s with
  | nil =>
    obtain ⟨rfl, rfl⟩ : us = [] ∧ s' = s := by simpa [traverseList, eq_comm] using h
    exact ⟨.nil, hs⟩
  | cons t ts ih =>
    obtain ⟨ht, hts⟩ := List.forall_mem_cons.1 hts
    simp only [traverseList, StateT.run_bind, StateT.run_pure, Option.bind_eq_bind, Option.pure_def,
      Option.bind_eq_some_iff, Option.some.injEq, Prod.mk.injEq] at h
    obtain ⟨⟨u, s₁⟩, hu, ⟨us, s₂⟩, hus, rfl, rfl⟩ := h
    obtain ⟨htu, hs₁⟩ := ht u s s₁ hs hu
    obtain ⟨htsus, hs₂⟩ := ih hts hs₁ hus
    exact ⟨.cons htu htsus, hs₂⟩

/-- Where a callback keeps an invariant of its state and gives related terms, a walk with it keeps the
invariant and puts these terms in place of the variables. -/
theorem replaced_of_traverse
    (hf : ∀ v s x s', I s → (f v).run s = some (x, s') → R v x ∧ I s') {t u : Term} {s s' : S}
    (hs : I s) (h : (t.traverse f).run s = some (u, s')) : Replaced R t u ∧ I s' := by
  induction t using nodeInduction generalizing u s s' with
  | var v =>
    obtain ⟨hx, hs'⟩ := hf v s u s' hs h
    exact ⟨.var hx, hs'⟩
  | node t ht ih =>
    rw [traverse_node f ht, StateT.run_map] at h
    obtain ⟨⟨us, s₁⟩, hus, he⟩ := Option.map_eq_some_iff.1 h
    obtain ⟨rfl, rfl⟩ := Prod.mk.inj he
    obtain ⟨htus, hs'⟩ :=
      replacedList_of_traverse (fun m hm x r r' hr hx => ih m hm hr hx) hs hus
    exact ⟨.node ht htus, hs'⟩

end Walk

end Term

end TermUnification
