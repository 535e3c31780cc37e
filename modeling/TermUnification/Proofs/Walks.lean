import TermUnification.Proofs.GroundTerms

/-! Walks through one term agree. Whether a walk puts the term together again, visits its variables, collects them or
only tests for them, it goes by the same occurrences in the same order. Walks without effects are substitutions,
and so they compose, and the walk that keeps every variable changes nothing but the labels. -/
namespace TermUnification.Term

section Visit

variable {m : Type → Type} [Monad m]

mutual

/-- Runs an action at each occurrence of a variable, without putting anything together. -/
def visit (f : Variable → m Unit) : Term → m Unit
  | var v => f v
  | wildcard => pure ()
  | scalar _ => pure ()
  | seq ts => visitList f ts
  | map es => visitEntries f es
  | composite _ ts => visitList f ts

def visitList (f : Variable → m Unit) : List Term → m Unit
  | [] => pure ()
  | t :: ts => do
    visit f t
    visitList f ts

def visitEntries (f : Variable → m Unit) : List (Term × Term) → m Unit
  | [] => pure ()
  | (k, x) :: es => do
    visit f k
    visit f x
    visitEntries f es

end

theorem visitList_eq (f : Variable → m Unit) (ts : List Term) : visitList f ts = ts.forM (visit f) := by
  induction ts with
  | nil => rfl
  | cons t ts ih => rw [visitList, ih]; rfl

theorem visitEntries_eq (f : Variable → m Unit) (es : List (Term × Term)) :
    visitEntries f es = (interleave es).forM (visit f) := by
  induction es with
  | nil => rfl
  | cons e es ih => obtain ⟨k, x⟩ := e; rw [visitEntries, ih]; rfl

theorem visit_node (f : Variable → m Unit) {t : Term} (h : t.isVar = false) :
    t.visit f = t.members.forM (visit f) := by
  cases t with
  | var v => cases h
  | wildcard => rfl
  | scalar s => rfl
  | seq ts => exact visitList_eq f ts
  | map es => exact visitEntries_eq f es
  | composite l ts => exact visitList_eq f ts

end Visit

section Effects

variable {m : Type → Type} [Monad m] [LawfulMonad m] {ts : List Term}

theorem traverseList_eq (f : Variable → m Term) (ts : List Term) : traverseList f ts = ts.mapM (traverse f) := by
  induction ts with
  | nil => simp [traverseList]
  | cons t ts ih => simp [traverseList, ih]

theorem mapM_congr {F G : Term → m Term} (h : ∀ t ∈ ts, F t = G t) : ts.mapM F = ts.mapM G := by
  induction ts with
  | nil => rfl
  | cons t ts ih =>
    obtain ⟨ht, hts⟩ := List.forall_mem_cons.1 h
    rw [List.mapM_cons, List.mapM_cons, ht, ih hts]

omit [LawfulMonad m] in
theorem forM_congr {F G : Term → m Unit} (h : ∀ t ∈ ts, F t = G t) : ts.forM F = ts.forM G := by
  induction ts with
  | nil => rfl
  | cons t ts ih =>
    obtain ⟨ht, hts⟩ := List.forall_mem_cons.1 h
    change (F t >>= fun _ => ts.forM F) = G t >>= fun _ => ts.forM G
    rw [ht, ih hts]

theorem forM_flatMap (g : Term → List Variable) (f : Variable → m Unit) (ts : List Term) :
    (ts.flatMap g).forM f = ts.forM fun t => (g t).forM f := by
  induction ts with
  | nil => rfl
  | cons t ts ih => simp_all

/-- The effects of a list of computations, without what they give. -/
theorem map_mapM_eq_forM (F : Term → m Term) (ts : List Term) :
    (fun _ => ()) <$> ts.mapM F = ts.forM fun t => (fun _ => ()) <$> F t := by
  induction ts with
  | nil => simp
  | cons t ts ih => simp_all

/-- The action is run at the listed occurrences, in this order. -/
theorem visit_eq_forM (f : Variable → m Unit) (t : Term) : t.visit f = t.occurrences.forM f := by
  induction t using nodeInduction with
  | var v => simp [visit, occurrences]
  | node t ht ih => rw [visit_node f ht, forM_congr ih, occurrences_node ht, forM_flatMap]

/-- Putting a term together again runs its callback just where a visit does. -/
theorem map_traverse_eq_visit (f : Variable → m Term) (t : Term) :
    (fun _ => ()) <$> t.traverse f = t.visit fun v => (fun _ => ()) <$> f v := by
  induction t using nodeInduction with
  | var v => rfl
  | node t ht ih =>
    rw [traverse_node f ht, Functor.map_map, traverseList_eq, map_mapM_eq_forM, forM_congr ih, visit_node _ ht]

/-- A walk with a callback without effects has none either. -/
theorem traverse_pure (σ : Variable → Term) (t : Term) :
    t.traverse (fun v => (pure (σ v) : m Term)) = pure (t.subst σ) := by
  induction t using nodeInduction with
  | var v => rfl
  | node t ht ih =>
    rw [traverse_node _ ht, traverseList_eq, mapM_congr ih, List.mapM_pure, map_pure, subst_node σ ht]

/-- A walk through what has been put together walks through what has been put in, occurrence by occurrence. -/
theorem traverse_subst (σ : Variable → Term) (g : Variable → m Term) (t : Term) :
    (t.subst σ).traverse g = t.traverse fun v => (σ v).traverse g := by
  induction t using nodeInduction with
  | var v => rfl
  | node t ht ih =>
    have hhead : (t.subst σ).withMembers = t.withMembers := by
      rw [subst_node σ ht]
      exact funext (withMembers_withMembers t _)
    have hmembers : t.members.mapM (traverse g ∘ subst σ) =
        t.members.mapM (traverse fun v => (σ v).traverse g) := mapM_congr ih
    rw [traverse_node g (isVar_subst σ ht), members_subst σ ht, traverseList_eq, List.mapM_map, hmembers, hhead,
      traverse_node _ ht, traverseList_eq]

theorem traverse_congr {f g : Variable → m Term} {t : Term} (h : ∀ v ∈ t.occurrences, f v = g v) :
    t.traverse f = t.traverse g := by
  induction t using nodeInduction with
  | var v => exact h v (by simp [occurrences])
  | node t ht ih =>
    have hmembers : ∀ m ∈ t.members, m.traverse f = m.traverse g := by
      refine fun m hm => ih m hm fun v hv => h v ?_
      exact mem_occurrences.2 (occurs_of_member hm (mem_occurrences.1 hv))
    rw [traverse_node f ht, traverse_node g ht, traverseList_eq, traverseList_eq, mapM_congr hmembers]

end Effects

/-- The variables that have been met, as a set and in the order in which they were met. -/
structure Seen where
  met : Std.HashSet Variable
  inOrder : List Variable

namespace Seen

def nothing : Seen := ⟨∅, []⟩

/-- Notes a variable unless it has been met before. -/
def note (s : Seen) (v : Variable) : Seen :=
  if v ∈ s.met then s else ⟨s.met.insert v, s.inOrder ++ [v]⟩

/-- The set tells what has been met, and each variable is listed where it was met first. -/
theorem foldl_note (vs : List Variable) :
    (∀ v, v ∈ (vs.foldl note nothing).met ↔ v ∈ vs) ∧ (vs.foldl note nothing).inOrder = vs.eraseDups := by
  induction vs using List.reverseRecOn with
  | nil => simp [nothing]
  | append_singleton vs w ih =>
    obtain ⟨hmet, hlist⟩ := ih
    rw [List.foldl_append, List.foldl_cons, List.foldl_nil, note, List.eraseDups_append]
    by_cases hw : w ∈ vs
    · rw [if_pos ((hmet w).2 hw)]
      refine ⟨fun v => ?_, by simp [hlist, List.removeAll, hw]⟩
      rw [hmet, List.mem_append, List.mem_singleton, or_iff_left_of_imp]
      exact fun hvw => hvw ▸ hw
    · rw [if_neg (mt (hmet w).1 hw)]
      refine ⟨fun v => ?_, by simp [hlist, List.removeAll, hw, List.eraseDups_cons]⟩
      rw [Std.HashSet.mem_insert, hmet, List.mem_append, List.mem_singleton, or_comm, beq_iff_eq, eq_comm]

/-- The state after a visit that notes what it meets. -/
theorem forM_note (vs : List Variable) (s : Seen) :
    (vs.forM fun v => (modify fun s => s.note v : StateM Seen Unit)).run s = ((), vs.foldl note s) := by
  induction vs generalizing s with
  | nil => rfl
  | cons v vs ih => exact ih (s.note v)

end Seen

/-- The distinct variables, collected on a visit. -/
def collect (t : Term) : List Variable :=
  ((t.visit fun v => (modify fun s => s.note v : StateM Seen Unit)).run Seen.nothing).2.inOrder

theorem collect_eq_vars (t : Term) : t.collect = t.vars := by
  rw [collect, visit_eq_forM, Seen.forM_note, (Seen.foldl_note _).2, vars]

section Relabel

variable (f : Label → Label)

mutual

/-- The term with other labels on its composites, and nothing else changed. -/
def relabel : Term → Term
  | var v => var v
  | wildcard => wildcard
  | scalar s => scalar s
  | seq ts => seq (relabelList ts)
  | map es => map (relabelEntries es)
  | composite l ts => composite (f l) (relabelList ts)

def relabelList : List Term → List Term
  | [] => []
  | t :: ts => relabel t :: relabelList ts

def relabelEntries : List (Term × Term) → List (Term × Term)
  | [] => []
  | (k, x) :: es => (relabel k, relabel x) :: relabelEntries es

end

theorem relabelList_eq (ts : List Term) : relabelList f ts = ts.map (relabel f) := by
  induction ts with
  | nil => rfl
  | cons t ts ih => rw [relabelList, ih, List.map_cons]

theorem relabelEntries_eq (es : List (Term × Term)) :
    relabelEntries f es = es.map fun e => (e.1.relabel f, e.2.relabel f) := by
  induction es with
  | nil => rfl
  | cons e es ih => rw [relabelEntries, ih, List.map_cons]

theorem relabel_rebuild_node {t : Term} (h : t.isVar = false) :
    t.relabel Label.rebuild = t.withMembers (t.members.map (relabel Label.rebuild)) := by
  cases t with
  | var v => cases h
  | wildcard => rfl
  | scalar s => rfl
  | seq ts => exact congrArg seq (relabelList_eq _ ts)
  | map es => simp only [relabel, relabelEntries_eq, withMembers, members_map, ← interleave_map, pairUp_interleave]
  | composite l ts => exact congrArg (composite l.rebuild) (relabelList_eq _ ts)

/-- A walk that keeps every variable changes the labels and nothing else. -/
theorem subst_var_eq_relabel (t : Term) : t.subst var = t.relabel Label.rebuild := by
  induction t using nodeInduction with
  | var v => rfl
  | node t ht ih => rw [subst_node var ht, relabel_rebuild_node ht, List.map_congr_left ih]

end Relabel

theorem var_mem_parts {t : Term} {v : Variable} : var v ∈ t.parts ↔ v ∈ t.occurrences := by
  induction t using nodeInduction with
  | var w => simp [parts, occurrences]
  | node t ht ih =>
    rw [parts_eq, occurrences_node ht, List.mem_cons, List.mem_flatMap, List.mem_flatMap]
    have hne : var v ≠ t := by
      rintro rfl
      cases ht
    simp only [hne, false_or]
    exact exists_congr fun m => and_congr_right (ih m)

theorem isGround_iff_occurrences {t : Term} :
    t.isGround = true ↔ t.occurrences = [] ∧ wildcard ∉ t.parts := by
  rw [isGround_iff, List.eq_nil_iff_forall_not_mem]
  constructor
  · intro h
    exact ⟨fun v hv => by simpa [isVar] using (h _ (var_mem_parts.2 hv)).1,
      fun hw => by simpa [isWildcard] using (h _ hw).2⟩
  · rintro ⟨hvars, hwild⟩ s hs
    cases s with
    | var v => exact absurd (var_mem_parts.1 hs) (hvars v)
    | wildcard => exact absurd hs hwild
    | _ => exact ⟨rfl, rfl⟩

/-- A walk that puts a term together again runs its callback at the occurrences that a visit comes to, in their
order. The variables are collected from these without repetition, and the tests look for one of them. Walks
without effects compose, and the one that keeps every variable changes labels only. Callbacks that agree on the
occurrences cannot be told apart. -/
theorem walks_agree {m : Type → Type} [Monad m] [LawfulMonad m] (t : Term) :
    (∀ f : Variable → m Term, (fun _ => ()) <$> t.traverse f = t.visit fun v => (fun _ => ()) <$> f v) ∧
    (∀ f : Variable → m Unit, t.visit f = t.occurrences.forM f) ∧
    t.vars = t.collect ∧ t.collect = t.occurrences.eraseDups ∧
    (∀ v, t.occurs v = true ↔ v ∈ t.occurrences) ∧
    (t.isGround = true ↔ t.occurrences = [] ∧ wildcard ∉ t.parts) ∧
    (∀ σ : Variable → Term, t.traverse (fun v => (pure (σ v) : m Term)) = pure (t.subst σ)) ∧
    (∀ (σ : Variable → Term) (g : Variable → m Term),
      (t.subst σ).traverse g = t.traverse fun v => (σ v).traverse g) ∧
    t.subst var = t.relabel Label.rebuild ∧
    ∀ f g : Variable → m Term, (∀ v ∈ t.occurrences, f v = g v) → t.traverse f = t.traverse g :=
  ⟨fun f => map_traverse_eq_visit f t, fun f => visit_eq_forM f t, t.collect_eq_vars.symm, t.collect_eq_vars,
    fun _ => mem_occurrences.symm, isGround_iff_occurrences, fun σ => traverse_pure σ t,
    fun σ g => traverse_subst σ g t, subst_var_eq_relabel t, fun _ _ => traverse_congr⟩

/-- The calls are listed for a term with a variable in a key, one twice, and a foreign composite without any, which
nonetheless is put together again. The callbacks differ at a variable that does not occur. -/
theorem walks_agree_listed :
    let x : Variable := ⟨0⟩
    let y : Variable := ⟨1⟩
    let z : Variable := ⟨2⟩
    let pair (rebuilt : Bool) : Term := .composite (.foreign "pair" (some 3) rebuilt) [.int 1]
    let t : Term := .map [(.compound "f" [.var x], .seq [.var y, .var x, .wildcard]), (pair false, .var y)]
    let list (v : Variable) : StateM (List Variable) Unit := modify fun vs => vs ++ [v]
    let f (v : Variable) : StateM (List Variable) Term := do
      list v
      return .seq [.var v]
    let g (v : Variable) : StateM (List Variable) Term := if v = z then pure .wildcard else f v
    (t.visit list).run [] = ((), [x, y, x, y]) ∧ ((t.traverse f).run []).2 = [x, y, x, y] ∧
      t.collect = [x, y] ∧ t.occurs x = true ∧ ¬ t.occurs z = true ∧ ¬ t.isGround = true ∧
      t.subst var =
        .map [(.compound "f" [.var x], .seq [.var y, .var x, .wildcard]), (pair true, .var y)] ∧
      (∀ v ∈ t.occurrences, f v = g v) ∧ t.traverse f = t.traverse g := by
  intro x y z pair t list f g
  obtain ⟨heffects, hvisit, -, hcollect, hoccurs, hground, -, -, hlabels, hcongr⟩ :=
    walks_agree (m := StateM (List Variable)) t
  have hlisted : ((fun _ => ()) <$> t.traverse f).run [] = ((), [x, y, x, y]) := by
    rw [heffects, hvisit]
    rfl
  have hz : z ∉ t.occurrences := by decide
  have hfg : ∀ v ∈ t.occurrences, f v = g v := by
    intro v hv
    have hne : v ≠ z := fun he => hz (he ▸ hv)
    simp only [g, if_neg hne]
  refine ⟨?_, congrArg Prod.snd hlisted, ?_, ?_, ?_, ?_, ?_, hfg, hcongr f g hfg⟩
  · rw [hvisit]
    rfl
  · rw [hcollect]
    decide
  · rw [hoccurs]
    decide
  · rwa [hoccurs]
  · rw [hground]
    exact fun h => absurd h.1 (by decide)
  · rw [hlabels]
    decide

end TermUnification.Term
