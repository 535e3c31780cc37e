import TermUnification.Proofs.Substitution
import TermUnification.Term.Equality

/-! Structural equality as a partial equivalence: it is symmetric and transitive, and substitutions
that agree on the variables of a term agree on the term. -/
namespace TermUnification

theorem Binary64.beq_trans {x y z : Binary64} (h : (x == y) = true) (h' : (y == z) = true) :
    (x == z) = true := by
  simp only [beq_def, Bool.and_eq_true, Bool.or_eq_true, decide_eq_true_eq] at *
  refine ⟨⟨h.1.1, h'.1.2⟩, ?_⟩
  rcases h.2 with rfl | hxy
  · exact h'.2
  · rcases h'.2 with rfl | hyz
    · exact .inr hxy
    · exact .inr ⟨hxy.1, hyz.2⟩

theorem Scalar.beq_trans {a b c : Scalar} (h : (a == b) = true) (h' : (b == c) = true) :
    (a == c) = true := by
  cases a <;> cases b <;> simp [BEq.beq, Scalar.beq] at h <;>
    cases c <;> simp_all [BEq.beq, Scalar.beq]
  exact Binary64.beq_trans h h'

namespace Term

/-- Two terms that are taken apart in the same way: two sequences, two maps, or two composites of one
tag. -/
def Alike : Term → Term → Prop
  | seq _, seq _ => True
  | map _, map _ => True
  | composite l _, composite k _ => l.tag = k.tag
  | _, _ => False

theorem Alike.symm {a b : Term} (h : Alike a b) : Alike b a := by
  cases a <;> cases b <;> simp_all [Alike]

theorem Alike.trans {a b c : Term} (h : Alike a b) (h' : Alike b c) : Alike a c := by
  cases a <;> cases b <;> cases c <;> simp_all [Alike]

theorem Alike.isVar_eq_false {a b : Term} (h : Alike a b) : a.isVar = false := by
  cases a <;> simp_all [Alike, isVar]

theorem Alike.isComposite {a b : Term} (h : Alike a b) : a.isComposite = true := by
  cases a <;> simp_all [Alike, Term.isComposite]

theorem alike_self {t : Term} (h : t.isComposite = true) : Alike t t := by
  cases t <;> simp_all [Alike, isComposite]

theorem Alike.subst {a b : Term} (h : Alike a b) (σ τ : Variable → Term) :
    Alike (a.subst σ) (b.subst τ) := by
  cases a <;> cases b <;> simp_all [Alike]

/-- Structural equality as a relation. -/
def Same (a b : Term) : Prop := (a == b) = true

theorem beq_list_iff (ts us : List Term) : (ts == us) = true ↔ List.Forall₂ Same ts us := by
  induction ts generalizing us with
  | nil => cases us <;> simp
  | cons t ts ih => cases us <;> simp [ih, Same]

theorem beq_entries_iff (es fs : List (Term × Term)) :
    (es == fs) = true ↔ List.Forall₂ Same (interleave es) (interleave fs) := by
  induction es generalizing fs with
  | nil => cases fs <;> simp
  | cons e es ih =>
    cases fs with
    | nil => simp
    | cons f fs =>
      rw [List.cons_beq_cons, Bool.and_eq_true, ih]
      change (e.1 == f.1 && e.2 == f.2) = true ∧ _ ↔ _
      simp [Same, and_assoc]

theorem same_iff_of_alike {a b : Term} (h : Alike a b) :
    Same a b ↔ List.Forall₂ Same a.members b.members := by
  cases a <;> cases b <;>
    simp_all [Alike, Same, beq_list_iff, beq_entries_iff]

/-- The ways in which two terms can be equal. -/
theorem Same.cases {a b : Term} (h : Same a b) :
    (∃ v, a = var v ∧ b = var v) ∨ (a = wildcard ∧ b = wildcard) ∨
    (∃ s t, a = scalar s ∧ b = scalar t ∧ (s == t) = true) ∨
    (Alike a b ∧ List.Forall₂ Same a.members b.members) := by
  have hm : Alike a b → List.Forall₂ Same a.members b.members :=
    fun ha => (same_iff_of_alike ha).1 h
  cases a <;> cases b <;> simp_all [Same, Alike, beq_eq, Term.beq]

theorem Same.symm {a b : Term} (h : Same a b) : Same b a := by
  induction a using memberInduction generalizing b with
  | step a ih =>
    rcases h.cases with ⟨v, rfl, rfl⟩ | ⟨rfl, rfl⟩ | ⟨s, t, rfl, rfl, hst⟩ | ⟨ha, hm⟩
    · exact h
    · exact h
    · simpa [Same, Scalar.beq_comm t s] using hst
    · have hmembers : List.Forall₂ (fun m x => Same x m) a.members b.members :=
        forall₂_imp (fun m hmem _ => ih m hmem) hm
      apply (same_iff_of_alike ha.symm).2
      exact hmembers.flip

theorem Same.trans {a b c : Term} (h : Same a b) (h' : Same b c) : Same a c := by
  induction a using memberInduction generalizing b c with
  | step a ih =>
    rcases h.cases with ⟨v, rfl, rfl⟩ | ⟨rfl, rfl⟩ | ⟨s, t, rfl, rfl, hst⟩ | ⟨ha, hm⟩
    · exact h'
    · exact h'
    · rcases h'.cases with ⟨v, hv, -⟩ | ⟨hw, -⟩ | ⟨t', u, ht, rfl, htu⟩ | ⟨hb, -⟩
      · cases hv
      · cases hw
      · cases ht
        simpa [Same] using Scalar.beq_trans hst htu
      · simp [Alike] at hb
    · rcases h'.cases with ⟨v, rfl, -⟩ | ⟨rfl, -⟩ | ⟨t, u, rfl, -, -⟩ | ⟨hb, hm'⟩
      · simpa [Alike, isVar] using ha.symm.isVar_eq_false
      · cases a <;> simp [Alike] at ha
      · cases a <;> simp [Alike] at ha
      · apply (same_iff_of_alike (ha.trans hb)).2
        exact forall₂_trans hm hm' fun m hmem _ _ _ _ => ih m hmem

instance : PartialEquivBEq Term where
  symm := Same.symm
  trans := Same.trans

/-- Both sides of an equality equal themselves, so neither holds a value that is no number. -/
theorem Same.left {a b : Term} (h : Same a b) : Same a a := h.trans h.symm

theorem Same.right {a b : Term} (h : Same a b) : Same b b := h.symm.trans h

theorem heightList_eq_of_forall₂ {ts us : List Term}
    (h : List.Forall₂ (fun t u => t.height = u.height) ts us) : heightList ts = heightList us := by
  induction h with
  | nil => rfl
  | cons ht _ ih => rw [heightList, heightList, ht, ih]

theorem Same.height_eq {a b : Term} (h : Same a b) : a.height = b.height := by
  induction a using memberInduction generalizing b with
  | step a ih =>
    rcases h.cases with ⟨v, rfl, rfl⟩ | ⟨rfl, rfl⟩ | ⟨s, t, rfl, rfl, -⟩ | ⟨ha, hm⟩
    · rfl
    · rfl
    · rfl
    · have hheights := heightList_eq_of_forall₂ (forall₂_imp (fun m hmem _ => ih m hmem) hm)
      rw [height_of_isComposite ha.isComposite, height_of_isComposite ha.symm.isComposite, hheights]

/-- No variable equals a larger term that holds it, whatever is put for it. -/
theorem not_same_subst_of_occurs {t : Term} {v : Variable} (ht : t.isVar = false)
    (hv : t.occurs v = true) (σ : Variable → Term) : ¬ Same (σ v) (t.subst σ) := by
  intro h
  have hlt := height_lt_subst σ ht hv
  exact Nat.ne_of_lt hlt h.height_eq

/-- Substitutions that are equal at each variable of a term make equal terms of it, provided that the
first of these equals itself. -/
theorem same_subst_of_forall {σ τ : Variable → Term} {t : Term}
    (h : Same (t.subst σ) (t.subst σ))
    (hστ : ∀ v, t.occurs v = true → Same (σ v) (σ v) → Same (σ v) (τ v)) :
    Same (t.subst σ) (t.subst τ) := by
  induction t using nodeInduction with
  | var v => exact hστ v (by simp) h
  | node t ht ih =>
    cases hc : t.isComposite with
    | false => cases t <;> simp_all [isVar, isComposite]
    | true =>
      have ha : Alike t t := alike_self hc
      have hms := (same_iff_of_alike (ha.subst σ σ)).1 h
      rw [same_iff_of_alike (ha.subst σ τ), members_subst σ ht, members_subst τ ht]
      rw [members_subst σ ht, List.forall₂_same] at hms
      rw [List.forall₂_map_left_iff, List.forall₂_map_right_iff, List.forall₂_same]
      intro m hm
      exact ih m hm (hms _ (List.mem_map_of_mem hm)) fun v hv =>
        hστ v (occurs_of_member hm hv)

end Term

end TermUnification
