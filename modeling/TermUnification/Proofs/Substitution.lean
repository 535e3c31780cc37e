import Mathlib.Data.List.Forall2
import TermUnification.Term.Walk

/-! Substitutions, that is maps from variables to terms, applied once throughout a term. All walks
treat a term through its members, whatever its kind. Heights show that a variable inside a larger term
never stands for as high a term as the whole. Renamings put variables for variables. -/
namespace TermUnification.Term

/-- The entries of a list in which each key stands before its value. -/
def pairUp : List Term → List (Term × Term)
  | k :: x :: ts => (k, x) :: pairUp ts
  | _ => []

@[simp] theorem pairUp_interleave (es : List (Term × Term)) : pairUp (interleave es) = es := by
  induction es with
  | nil => rfl
  | cons e es ih => simp [pairUp, ih]

/-- The term put together again from other members. -/
def withMembers : Term → List Term → Term
  | seq _, ts => seq ts
  | map _, ts => map (pairUp ts)
  | composite l _, ts => composite l.rebuild ts
  | t, _ => t

@[simp] theorem withMembers_withMembers (t : Term) (ts us : List Term) :
    (t.withMembers ts).withMembers us = t.withMembers us := by
  cases t <;> simp [withMembers]

@[simp] theorem isVar_withMembers (t : Term) (ts : List Term) :
    (t.withMembers ts).isVar = t.isVar := by
  cases t <;> rfl

/-- Induction over a term through its members, with the variables apart. -/
theorem nodeInduction {motive : Term → Prop} (var : ∀ v, motive (var v))
    (node : ∀ t, t.isVar = false → (∀ m ∈ t.members, motive m) → motive t) (t : Term) :
    motive t := by
  induction t using memberInduction with
  | step t ih =>
    cases t with
    | var v => exact var v
    | _ => exact node _ rfl ih

/-- What holds of related lists member by member, given that it follows from the relation. -/
theorem forall₂_imp {R S : Term → Term → Prop} {ts us : List Term}
    (hRS : ∀ t ∈ ts, ∀ u, R t u → S t u) (h : List.Forall₂ R ts us) : List.Forall₂ S ts us :=
  ((List.forall₂_and_left _ _).2 ⟨hRS, h⟩).imp fun _ _ htu => htu.1 _ htu.2

theorem forall₂_trans {R S T : Term → Term → Prop} {ts us vs : List Term}
    (h : List.Forall₂ R ts us) (h' : List.Forall₂ S us vs)
    (hRST : ∀ t ∈ ts, ∀ u ∈ us, ∀ v ∈ vs, R t u → S u v → T t v) : List.Forall₂ T ts vs := by
  induction h generalizing vs with
  | nil =>
    cases h'
    exact .nil
  | cons htu _ ih =>
    cases h' with
    | cons huv hrest =>
      refine .cons (hRST _ (by simp) _ (by simp) _ (by simp) htu huv) (ih hrest ?_)
      exact fun t ht u hu v hv => hRST t (by simp [ht]) u (by simp [hu]) v (by simp [hv])

theorem exists_of_forall₂ {R : Term → Term → Prop} {ts us : List Term} (h : List.Forall₂ R ts us)
    {u : Term} (hu : u ∈ us) : ∃ t ∈ ts, R t u := by
  induction h with
  | nil => cases hu
  | cons htu _ ih =>
    rcases List.mem_cons.1 hu with rfl | hu
    · exact ⟨_, List.mem_cons_self, htu⟩
    · obtain ⟨t, ht, htu⟩ := ih hu
      exact ⟨t, List.mem_cons_of_mem _ ht, htu⟩

section Walk

variable {m : Type → Type} [Monad m] [LawfulMonad m]

theorem traverseEntries_eq (f : Variable → m Term) (es : List (Term × Term)) :
    traverseEntries f es = pairUp <$> traverseList f (interleave es) := by
  induction es with
  | nil => simp [traverseEntries, traverseList, pairUp]
  | cons e es ih => simp [traverseEntries, traverseList, ih, pairUp]

/-- The walk through a term that is no variable walks through its members. -/
theorem traverse_node (f : Variable → m Term) {t : Term} (h : t.isVar = false) :
    t.traverse f = t.withMembers <$> traverseList f t.members := by
  cases t with
  | var v => cases h
  | wildcard => simp [traverse, traverseList, withMembers]
  | scalar s => simp [traverse, traverseList, withMembers]
  | seq ts => simp [traverse]; rfl
  | map es => simp [traverse, traverseEntries_eq]; rfl
  | composite l ts => simp [traverse]; rfl

end Walk

/-- The term with `σ v` in place of each variable `v`: the walk through it without effects. -/
def subst (σ : Variable → Term) (t : Term) : Term := Id.run (t.traverse fun v => pure (σ v))

@[simp] theorem subst_var (σ : Variable → Term) (v : Variable) : (var v).subst σ = σ v := rfl

@[simp] theorem subst_wildcard (σ : Variable → Term) : wildcard.subst σ = wildcard := rfl

@[simp] theorem subst_scalar (σ : Variable → Term) (s : Scalar) :
    (scalar s).subst σ = scalar s := rfl

theorem traverseList_id (σ : Variable → Term) (ts : List Term) :
    Id.run (traverseList (fun v => pure (σ v)) ts) = ts.map (subst σ) := by
  induction ts with
  | nil => rfl
  | cons t ts ih => rw [List.map_cons, ← ih]; rfl

theorem subst_node (σ : Variable → Term) {t : Term} (h : t.isVar = false) :
    t.subst σ = t.withMembers (t.members.map (subst σ)) := by
  rw [← traverseList_id, subst, traverse_node _ h]
  rfl

@[simp] theorem subst_seq (σ : Variable → Term) (ts : List Term) :
    (seq ts).subst σ = seq (ts.map (subst σ)) := subst_node σ rfl

@[simp] theorem subst_composite (σ : Variable → Term) (l : Label) (ts : List Term) :
    (composite l ts).subst σ = composite l.rebuild (ts.map (subst σ)) := subst_node σ rfl

theorem interleave_map (f : Term → Term) (es : List (Term × Term)) :
    interleave (es.map fun e => (f e.1, f e.2)) = (interleave es).map f := by
  induction es with
  | nil => rfl
  | cons e es ih => simp [ih]

@[simp] theorem subst_map (σ : Variable → Term) (es : List (Term × Term)) :
    (map es).subst σ = map (es.map fun e => (e.1.subst σ, e.2.subst σ)) := by
  rw [subst_node σ rfl, members_map, ← interleave_map]
  simp [withMembers]

theorem isVar_subst (σ : Variable → Term) {t : Term} (h : t.isVar = false) :
    (t.subst σ).isVar = false := by
  rw [subst_node σ h, isVar_withMembers, h]

theorem members_subst (σ : Variable → Term) {t : Term} (h : t.isVar = false) :
    (t.subst σ).members = t.members.map (subst σ) := by
  cases t with
  | var v => cases h
  | wildcard => rfl
  | scalar s => rfl
  | seq ts => simp
  | map es => simp [interleave_map]
  | composite l ts => simp

theorem occurs_node {t : Term} (h : t.isVar = false) (v : Variable) :
    t.occurs v = true ↔ ∃ m ∈ t.members, m.occurs v = true := by
  cases t <;> simp_all [isVar, occurs, occursList_eq, occursEntries_eq]

theorem occurs_of_member {t m : Term} (hm : m ∈ t.members) {v : Variable}
    (hv : m.occurs v = true) : t.occurs v = true := by
  have ht : t.isVar = false := by cases t <;> simp_all [isVar]
  exact (occurs_node ht v).2 ⟨m, hm, hv⟩

@[simp] theorem occurs_var (v w : Variable) : (var w).occurs v = true ↔ w = v := by
  simp [occurs]

@[simp] theorem occurs_wildcard (v : Variable) : wildcard.occurs v = false := rfl

@[simp] theorem occurs_scalar (v : Variable) (s : Scalar) : (scalar s).occurs v = false := rfl

theorem traverseList_eq_some_iff {f : Variable → Option Term} {ts us : List Term} :
    traverseList f ts = some us ↔ List.Forall₂ (fun t u => t.traverse f = some u) ts us := by
  induction ts generalizing us with
  | nil => simp [traverseList, eq_comm]
  | cons t ts ih =>
    rw [List.forall₂_cons_left_iff]
    simp only [traverseList, bind, pure, Option.bind_eq_some_iff, Option.some.injEq]
    constructor
    · rintro ⟨u, hu, us, hus, rfl⟩
      exact ⟨u, us, hu, ih.1 hus, rfl⟩
    · rintro ⟨u, us, hu, hus, rfl⟩
      exact ⟨u, hu, us, ih.2 hus, rfl⟩

/-- A walk that may fail succeeds as soon as it finds a term for every variable. -/
theorem traverse_eq_some {f : Variable → Option Term} {σ : Variable → Term} {t : Term}
    (h : ∀ v, t.occurs v = true → f v = some (σ v)) : t.traverse f = some (t.subst σ) := by
  induction t using nodeInduction with
  | var v => exact h v (by simp)
  | node t ht ih =>
    have hlist : traverseList f t.members = some (t.members.map (subst σ)) := by
      rw [traverseList_eq_some_iff, List.forall₂_map_right_iff, List.forall₂_same]
      exact fun m hm => ih m hm fun v hv => h v (occurs_of_member hm hv)
    rw [traverse_node f ht, hlist, subst_node σ ht]
    rfl

/-- A walk that succeeds has found a term for every variable. -/
theorem isSome_of_traverse_eq_some {f : Variable → Option Term} {t u : Term}
    (h : t.traverse f = some u) {v : Variable} (hv : t.occurs v = true) : (f v).isSome := by
  induction t using nodeInduction generalizing u with
  | var w =>
    obtain rfl := (occurs_var v w).1 hv
    exact Option.isSome_iff_exists.2 ⟨u, h⟩
  | node t ht ih =>
    obtain ⟨m, hm, hvm⟩ := (occurs_node ht v).1 hv
    rw [traverse_node f ht] at h
    obtain ⟨us, hus, -⟩ := Option.map_eq_some_iff.1 h
    obtain ⟨u', -, hu'⟩ := exists_of_forall₂ (traverseList_eq_some_iff.1 hus).flip hm
    exact ih m hm hu' hvm

theorem subst_congr {σ τ : Variable → Term} {t : Term}
    (h : ∀ v, t.occurs v = true → σ v = τ v) : t.subst σ = t.subst τ := by
  have hσ : t.traverse (fun v => some (σ v)) = some (t.subst τ) :=
    traverse_eq_some fun v hv => congrArg some (h v hv)
  exact Option.some.inj ((traverse_eq_some fun _ _ => rfl).symm.trans hσ)

/-- Two substitutions in turn are one. -/
theorem subst_subst (σ τ : Variable → Term) (t : Term) :
    (t.subst σ).subst τ = t.subst fun v => (σ v).subst τ := by
  induction t using nodeInduction with
  | var v => rfl
  | node t ht ih =>
    rw [subst_node τ (isVar_subst σ ht), members_subst σ ht, List.map_map, subst_node σ ht,
      withMembers_withMembers, subst_node _ ht]
    exact congrArg _ (List.map_congr_left ih)

theorem occurs_subst (σ : Variable → Term) (t : Term) (w : Variable) :
    (t.subst σ).occurs w = true ↔ ∃ v, t.occurs v = true ∧ (σ v).occurs w = true := by
  induction t using nodeInduction with
  | var v => simp
  | node t ht ih =>
    rw [occurs_node (isVar_subst σ ht), members_subst σ ht]
    constructor
    · intro h
      obtain ⟨u, hu, hw⟩ := h
      obtain ⟨m, hm, rfl⟩ := List.mem_map.1 hu
      obtain ⟨v, hv, hvw⟩ := (ih m hm).1 hw
      exact ⟨v, (occurs_node ht v).2 ⟨m, hm, hv⟩, hvw⟩
    · rintro ⟨v, hv, hw⟩
      obtain ⟨m, hm, hvm⟩ := (occurs_node ht v).1 hv
      exact ⟨m.subst σ, List.mem_map_of_mem hm, (ih m hm).2 ⟨v, hvm, hw⟩⟩

theorem subst_eq_self_of_mem {σ : Variable → Term} {t m : Term} (h : t.subst σ = t)
    (hm : m ∈ t.members) : m.subst σ = m := by
  have ht : t.isVar = false := by
    cases t <;> simp_all [isVar]
  have hmap : t.members.map (subst σ) = t.members.map id := by
    rw [List.map_id, ← members_subst σ ht, h]
  exact List.map_inj_left.1 hmap m hm

theorem occurrences_node {t : Term} (h : t.isVar = false) :
    t.occurrences = t.members.flatMap occurrences := by
  cases t <;> simp_all [isVar, occurrences, occurrencesList_eq, occurrencesEntries_eq]

theorem mem_occurrences {t : Term} {v : Variable} :
    v ∈ t.occurrences ↔ t.occurs v = true := by
  induction t using nodeInduction with
  | var w =>
    rw [occurs_var, occurrences, List.mem_singleton]
    exact eq_comm
  | node t ht ih =>
    rw [occurrences_node ht, occurs_node ht, List.mem_flatMap]
    exact exists_congr fun m => and_congr_right (ih m)

theorem mem_vars {t : Term} {v : Variable} : v ∈ t.vars ↔ t.occurs v = true := by
  rw [vars, List.mem_eraseDups, mem_occurrences]

theorem heightEntries_eq (es : List (Term × Term)) :
    heightEntries es = heightList (interleave es) := by
  induction es with
  | nil => rfl
  | cons e es ih => simp [heightEntries, heightList, ih]

theorem height_of_isComposite {t : Term} (h : t.isComposite = true) :
    t.height = heightList t.members + 1 := by
  cases t <;> simp_all [isComposite, height, heightEntries_eq]

theorem height_le_heightList {m : Term} {ts : List Term} (h : m ∈ ts) :
    m.height ≤ heightList ts := by
  induction ts with
  | nil => simp at h
  | cons t ts ih =>
    rw [heightList]
    rcases List.mem_cons.1 h with rfl | h
    · omega
    · have := ih h
      omega

theorem heightList_le {ts : List Term} {n : Nat} (h : ∀ m ∈ ts, m.height ≤ n) :
    heightList ts ≤ n := by
  induction ts with
  | nil => exact Nat.zero_le n
  | cons t ts ih =>
    have ht := h t List.mem_cons_self
    have hts := ih fun m hm => h m (List.mem_cons_of_mem _ hm)
    rw [heightList]
    omega

theorem isComposite_of_mem {m t : Term} (h : m ∈ t.members) : t.isComposite = true := by
  cases t <;> simp_all [isComposite]

theorem height_lt_of_mem {m t : Term} (h : m ∈ t.members) : m.height < t.height := by
  rw [height_of_isComposite (isComposite_of_mem h)]
  exact Nat.lt_succ_of_le (height_le_heightList h)

theorem isComposite_subst (σ : Variable → Term) {t : Term} (h : t.isVar = false) :
    (t.subst σ).isComposite = t.isComposite := by
  cases t <;> simp_all [isVar, isComposite]

theorem subst_mem_members (σ : Variable → Term) {m t : Term} (h : m ∈ t.members) :
    m.subst σ ∈ (t.subst σ).members := by
  have ht : t.isVar = false := by cases t <;> simp_all [isVar]
  rw [members_subst σ ht]
  exact List.mem_map_of_mem h

/-- What a substitution puts in makes a term higher by no more than its own height. -/
theorem height_subst_le {σ : Variable → Term} {t : Term} {n : Nat}
    (h : ∀ v, t.occurs v = true → (σ v).height ≤ n) : (t.subst σ).height ≤ t.height + n := by
  induction t using nodeInduction with
  | var v => exact Nat.le_trans (h v (by simp)) (Nat.le_add_left _ _)
  | node t ht ih =>
    cases hc : t.isComposite with
    | false => cases t <;> simp_all [isVar, isComposite, height]
    | true =>
      have hs : heightList (t.subst σ).members ≤ heightList t.members + n := by
        apply heightList_le
        intro u hu
        rw [members_subst σ ht] at hu
        obtain ⟨m, hm, rfl⟩ := List.mem_map.1 hu
        have hsub := ih m hm fun v hv => h v (occurs_of_member hm hv)
        have hmt := height_le_heightList hm
        omega
      rw [height_of_isComposite hc, height_of_isComposite ((isComposite_subst σ ht).trans hc)]
      omega

theorem height_le_subst (σ : Variable → Term) {t : Term} {v : Variable}
    (h : t.occurs v = true) : (σ v).height ≤ (t.subst σ).height := by
  induction t using nodeInduction with
  | var w =>
    obtain rfl := (occurs_var v w).1 h
    exact Nat.le_refl _
  | node t ht ih =>
    obtain ⟨m, hm, hv⟩ := (occurs_node ht v).1 h
    have hlt := height_lt_of_mem (subst_mem_members σ hm)
    exact Nat.le_trans (ih m hm hv) (Nat.le_of_lt hlt)

/-- A variable inside a larger term stays strictly lower than it under every substitution. -/
theorem height_lt_subst (σ : Variable → Term) {t : Term} {v : Variable}
    (ht : t.isVar = false) (h : t.occurs v = true) : (σ v).height < (t.subst σ).height := by
  obtain ⟨m, hm, hv⟩ := (occurs_node ht v).1 h
  exact Nat.lt_of_le_of_lt (height_le_subst σ hv) (height_lt_of_mem (subst_mem_members σ hm))

/-- The term with its variables renamed. -/
def rename (ρ : Variable → Variable) (t : Term) : Term := t.subst fun v => var (ρ v)

section Rename

variable (ρ : Variable → Variable)

@[simp] theorem rename_var (v : Variable) : (var v).rename ρ = var (ρ v) := rfl

@[simp] theorem rename_wildcard : wildcard.rename ρ = wildcard := rfl

@[simp] theorem rename_scalar (s : Scalar) : (scalar s).rename ρ = scalar s := rfl

@[simp] theorem rename_seq (ts : List Term) :
    (seq ts).rename ρ = seq (ts.map (rename ρ)) := subst_seq _ ts

@[simp] theorem rename_map (es : List (Term × Term)) :
    (map es).rename ρ = map (es.map fun e => (e.1.rename ρ, e.2.rename ρ)) := subst_map _ es

@[simp] theorem rename_composite (l : Label) (ts : List Term) :
    (composite l ts).rename ρ = composite l.rebuild (ts.map (rename ρ)) := subst_composite _ l ts

theorem occurs_rename {t : Term} {w : Variable} :
    (t.rename ρ).occurs w = true ↔ ∃ v, t.occurs v = true ∧ ρ v = w := by
  simp [rename, occurs_subst]

theorem rename_subst (σ : Variable → Term) (t : Term) :
    (t.rename ρ).subst σ = t.subst fun v => σ (ρ v) := subst_subst _ σ t

theorem subst_rename (σ : Variable → Term) (t : Term) :
    (t.subst σ).rename ρ = t.subst fun v => (σ v).rename ρ := subst_subst σ _ t

end Rename

end TermUnification.Term
