import TermUnification.Proofs.NewVariables

/-! The fresh variables that a term leads to. They are read off the instance of the term; here they are compared
with the paths of bindings from the term, and with a walk through the term that never builds an instance. -/
namespace TermUnification

/-- What is left after later duplicates have been dropped stands in the order of first occurrences. -/
theorem pairwise_idxOf_eraseDups (vs : List Variable) :
    vs.eraseDups.Pairwise fun v w => vs.idxOf v < vs.idxOf w := by
  -- From the right: a further element changes no first occurrence, and comes after all of them if it is new.
  induction vs using List.reverseRecOn with
  | nil => exact .nil
  | append_singleton vs x ih =>
    have hold : vs.eraseDups.Pairwise fun v w => (vs ++ [x]).idxOf v < (vs ++ [x]).idxOf w := by
      refine ih.imp_of_mem fun hv hw h => ?_
      rwa [List.idxOf_append_of_mem (List.mem_eraseDups.1 hv),
        List.idxOf_append_of_mem (List.mem_eraseDups.1 hw)]
    rw [List.eraseDups_append]
    by_cases hx : x ∈ vs
    · simpa [List.removeAll, hx] using hold
    · have hnew : ∀ v ∈ vs, (vs ++ [x]).idxOf v < (vs ++ [x]).idxOf x := by
        intro v hv
        rw [List.idxOf_append_of_mem hv, List.idxOf_append_of_notMem hx]
        exact Nat.lt_add_right _ (List.idxOf_lt_length_of_mem hv)
      simpa [List.removeAll, hx, List.eraseDups_cons, List.pairwise_append] using ⟨hold, hnew⟩

namespace Environment
open Relation Term

/-- A walk through terms from left to right, with map keys before their values, in which every bound variable
is expanded in place to the term bound to it. It lists the occurrences of fresh variables that it meets. -/
inductive Walk (env : Environment) : List Term → List Variable → Prop
  | nil : Walk env [] []
  | fresh {v : Variable} {ts : List Term} {vs : List Variable} (unbound : env.lookup? v = none)
      (rest : Walk env ts vs) : Walk env (var v :: ts) (v :: vs)
  | bound {v : Variable} {t : Term} {ts : List Term} {vs : List Variable}
      (binding : env.lookup? v = some t) (rest : Walk env (t :: ts) vs) : Walk env (var v :: ts) vs
  | node {t : Term} {ts : List Term} {vs : List Variable} (notVar : t.isVar = false)
      (rest : Walk env (t.members ++ ts) vs) : Walk env (t :: ts) vs

section Walk

variable {env : Environment} {t : Term} {ts : List Term} {vs ws : List Variable}

theorem Walk.unique (h : env.Walk ts vs) (h' : env.Walk ts ws) : vs = ws := by
  induction h generalizing ws with
  | nil =>
    cases h'
    rfl
  | fresh unbound _ ih =>
    cases h' with
    | fresh _ rest => rw [ih rest]
    | bound binding _ => simp [unbound] at binding
    | node notVar _ => cases notVar
  | bound binding _ ih =>
    cases h' with
    | fresh unbound _ => simp [unbound] at binding
    | bound binding' rest =>
      obtain rfl := Option.some.inj (binding.symm.trans binding')
      exact ih rest
    | node notVar _ => cases notVar
  | node notVar _ ih =>
    cases h' with
    | fresh _ _ => cases notVar
    | bound _ _ => cases notVar
    | node _ rest => exact ih rest

/-- Does a walk that comes to the term list these variables before it goes on? -/
def Lists (env : Environment) (t : Term) (vs : List Variable) : Prop :=
  ∀ ts ws, env.Walk ts ws → env.Walk (t :: ts) (vs ++ ws)

theorem walk_append {f : Term → List Variable} (h : ∀ t ∈ ts, env.Lists t (f t)) {us : List Term}
    (hus : env.Walk us ws) : env.Walk (ts ++ us) (ts.flatMap f ++ ws) := by
  induction ts with
  | nil => exact hus
  | cons t ts ih =>
    obtain ⟨ht, hts⟩ := List.forall_mem_cons.1 h
    rw [List.cons_append, List.flatMap_cons, List.append_assoc]
    exact ht _ _ (ih hts)

/-- A walk comes from the variables of a term to what is put in their places. -/
theorem lists_subst {σ : Variable → Term}
    (h : ∀ v, t.occurs v = true → env.Lists (var v) (σ v).occurrences) :
    env.Lists t (t.subst σ).occurrences := by
  induction t using nodeInduction with
  | var v => exact h v (by simp)
  | node t ht ih =>
    intro ts ws hts
    rw [occurrences_node (isVar_subst σ ht), members_subst σ ht, List.flatMap_map]
    exact .node ht (walk_append (fun m hm => ih m hm fun v hv => h v (occurs_of_member hm hv)) hts)

/-- Where no cycle lies ahead of a variable, a walk lists the occurrences in what it stands for. -/
theorem Ends.lists {v : Variable} (h : env.Ends v) : env.Lists (var v) (env.value v).occurrences := by
  induction h using Ends.induction with
  | step v h ih =>
    intro ts ws hts
    cases hv : env.lookup? v with
    | none =>
      rw [value_of_fresh hv]
      exact .fresh hv hts
    | some t =>
      rw [value_of_ends h hv]
      exact .bound hv (lists_subst (fun w hw => ih w ⟨t, hv, hw⟩) ts ws hts)

theorem walk_iff (h : env.TermEnds t) : env.Walk [t] ws ↔ ws = (t.subst env.value).occurrences := by
  have hwalk : env.Walk [t] (t.subst env.value).occurrences := by
    simpa using lists_subst (fun v hv => (h v hv).lists) [] [] .nil
  exact ⟨fun hws => hws.unique hwalk, fun hws => hws ▸ hwalk⟩

end Walk

/-- The variables reported for a term are the fresh ones that bindings lead to from it, each of them once, in the
order in which a walk through the term meets them first. -/
theorem freshVars?_reachable (env : Environment) (henv : env.Acyclic) (t : Term) :
    ∃ vs ws, env.freshVars? t = some vs ∧ vs.Nodup ∧
      (∀ v, v ∈ vs ↔ env.isFresh v = true ∧ env.Reaches t v) ∧
      (∀ xs, env.Walk [t] xs ↔ xs = ws) ∧ vs.Pairwise fun v w => ws.idxOf v < ws.idxOf w := by
  have hi := henv.instantiate?_eq t
  have hvars : env.freshVars? t = some (t.subst env.value).vars := by rw [freshVars?, hi]; rfl
  refine ⟨_, _, hvars, nodup_eraseDups _, fun v => ?_, fun xs => walk_iff (henv.termEnds t),
    pairwise_idxOf_eraseDups _⟩
  rw [mem_vars, occurs_of_instantiate? hi, isFresh_iff, and_comm]

/-- The variable w is bound to [x, z] and x to f(y). The walk through the map of z to w and of x to y meets y
behind x three times, and z comes first although it was made later. -/
theorem freshVars?_reachable_shared :
    let x : Variable := ⟨0⟩
    let y : Variable := ⟨1⟩
    let z : Variable := ⟨2⟩
    let w : Variable := ⟨3⟩
    let env := (ofList [(w, .seq [.var x, .var z])]).set x (.compound "f" [.var y])
    let t : Term := .map [(.var z, .var w), (.var x, .var y)]
    env.Acyclic ∧ env.freshVars? t = some [z, y] ∧ env.Walk [t] [z, y, z, y, y] ∧
      [z, y].Pairwise (fun v w => [z, y, z, y, y].idxOf v < [z, y, z, y, y].idxOf w) ∧
      env.isFresh y = true ∧ env.Reaches t y ∧ ¬ (env.isFresh x = true ∧ env.Reaches t x) := by
  intro x y z w env t
  have henv : env.Acyclic := by
    refine (acyclic_single (by decide)).set fun v hv => ?_
    obtain rfl : y = v := by simpa [occurs, occursList, compound] using hv
    exact ⟨by decide, by decide⟩
  have hvs : env.freshVars? t = some [z, y] := by decide
  have hx : env.lookup? x = some (.compound "f" [.var y]) := by decide
  have hw : env.lookup? w = some (.seq [.var x, .var z]) := by decide
  have hy : env.lookup? y = none := by decide
  have hz : env.lookup? z = none := by decide
  have hkey : env.Walk [.var x, .var y] [y, y] :=
    .bound hx (.node rfl (.fresh hy (.fresh hy .nil)))
  have hwalk : env.Walk [t] [z, y, z, y, y] :=
    .node rfl (.fresh hz (.bound hw (.node rfl (.bound hx (.node rfl (.fresh hy (.fresh hz hkey)))))))
  obtain ⟨vs, ws, hvars, -, hmem, hunique, horder⟩ := freshVars?_reachable env henv t
  obtain rfl := Option.some.inj (hvs.symm.trans hvars)
  obtain rfl := (hunique _).1 hwalk
  obtain ⟨hfresh, hreach⟩ := (hmem y).1 (by simp)
  exact ⟨henv, hvs, hwalk, horder, hfresh, hreach, fun h => absurd ((hmem x).2 h) (by decide)⟩

end Environment

end TermUnification
