import TermUnification.Proofs.Termination

/-! The reports of a unification. Its level has no influence on the outcome. What is reported follows the
tree of the calls: each call opens, reports everything that its own calls report, and closes. Lower levels
leave out reports and add none. -/
namespace TermUnification

/-- The outcome of a computation that ends. -/
def Outcome.ofExcept {α : Type} : Except Clash α → Outcome α
  | .ok a => .done a
  | .error cause => .clash cause

theorem Outcome.ofExcept_injective {α : Type} {r s : Except Clash α}
    (h : Outcome.ofExcept r = Outcome.ofExcept s) : r = s := by
  cases r <;> cases s <;> simp_all [Outcome.ofExcept]

theorem Outcome.exists_ofExcept {α : Type} {x : Outcome α} (h : x ≠ .endless) :
    ∃ r, x = .ofExcept r := by
  cases x with
  | done a => exact ⟨.ok a, rfl⟩
  | clash cause => exact ⟨.error cause, rfl⟩
  | endless => exact absurd rfl h

namespace Unifier
open Environment Relation

section Level

variable {u w : Unifier} (h : w.occursCheck = u.occursCheck)

include h

/-- The rules ask for the occurs-check only, and not for the level. -/
theorem Resolves.congr {ps : List (Term × Term)} {env : Environment} {out : Outcome Environment}
    (hrun : Resolves u ps env out) : Resolves w ps env out := by
  induction hrun with
  | nil => exact .nil
  | settled ha hb step _ ih => exact .settled ha hb step ih
  | assign ha hb step check _ ih => exact .assign ha hb step (h ▸ check) ih
  | members ha hb step _ ih => exact .members ha hb step ih
  | occurs ha hb step check => exact .occurs ha hb step (h ▸ check)
  | clash ha hb step => exact .clash ha hb step

theorem unify_outcome_congr (a b : Term) (env : Environment) :
    (w.unify a b env).outcome = (u.unify a b env).outcome := by
  by_cases hu : (u.unify a b env).outcome = .endless
  · by_cases hw : (w.unify a b env).outcome = .endless
    · rw [hu, hw]
    · exact (resolves_singleton_iff.1 ((resolves_unify hw).congr h.symm)).1.symm
  · exact (resolves_singleton_iff.1 ((resolves_unify hu).congr h)).1

end Level

/-- What comes of a call. -/
def Call.run (u : Unifier) (c : Call) : Attempt Environment := u.unify c.left c.right c.env

/-- The calls for pairs in turn, each in the environment that the one before has led to, up to the first
that fails. -/
def callsFor (u : Unifier) : List (Term × Term) → Environment → List Call
  | [], _ => []
  | p :: ps, env =>
    ⟨p.1, p.2, env⟩ ::
      match (u.unify p.1 p.2 env).outcome with
      | .done e => callsFor u ps e
      | _ => []

/-- The calls that a step takes. -/
def callsOf (u : Unifier) (env : Environment) : Step → List Call
  | .members pairs => u.callsFor pairs env
  | _ => []

/-- The calls that a call makes itself, in order. -/
def Call.made (u : Unifier) (c : Call) : List Call :=
  match c.env.instantiate? c.left, c.env.instantiate? c.right with
  | some a, some b => u.callsOf c.env (Step.between a b)
  | _, _ => []

section Calls

variable {u w : Unifier} {ps : List (Term × Term)} {env : Environment} {c d : Call}

theorem exists_of_mem_callsFor (h : d ∈ u.callsFor ps env) :
    ∃ before p after, ps = before ++ p :: after ∧
      (u.unifyAll before env).outcome = .done d.env ∧ d = ⟨p.1, p.2, d.env⟩ := by
  induction ps generalizing env with
  | nil => simp [callsFor] at h
  | cons p ps ih =>
    rcases List.mem_cons.1 h with rfl | h
    · exact ⟨[], p, ps, rfl, rfl, rfl⟩
    · cases hp : (u.unify p.1 p.2 env).outcome with
      | done e =>
        obtain ⟨before, q, after, rfl, hdone, hd⟩ := ih (by rwa [hp] at h)
        refine ⟨p :: before, q, after, rfl, ?_, hd⟩
        rw [unifyAll, foldlM_cons_outcome, hp]
        exact hdone
      | clash cause => simp [hp] at h
      | endless => simp [hp] at h

theorem invokes_of_mem_made (h : d ∈ c.made u) : u.Invokes c d := by
  unfold Call.made at h
  split at h
  · next a b ha hb =>
    cases step : Step.between a b with
    | members pairs =>
      rw [step] at h
      obtain ⟨before, p, after, rfl, hdone, hd⟩ := exists_of_mem_callsFor h
      rw [hd]
      exact .member ha hb step hdone
    | _ => simp [step, callsOf] at h
  · simp at h

/-- A call takes a step, or it is stuck. -/
theorem run_cases (u : Unifier) (c : Call) :
    (∃ step, c.run u = u.reporting c.left c.right (u.proceed c.env step) ∧
      c.made u = u.callsOf c.env step) ∨
    (c.run u = u.reporting c.left c.right .endless ∧ c.made u = []) := by
  by_cases hends : c.env.TermEnds c.left ∧ c.env.TermEnds c.right
  · have ha := instantiate?_eq_some_iff.2 ⟨hends.1, rfl⟩
    have hb := instantiate?_eq_some_iff.2 ⟨hends.2, rfl⟩
    exact .inl ⟨_, unify_eq u ha hb, by rw [Call.made, ha, hb]⟩
  · refine .inr ⟨unify_of_not_ends hends, ?_⟩
    rw [← isSome_instantiate?_iff, ← isSome_instantiate?_iff] at hends
    unfold Call.made
    split
    · next ha hb => simp [ha, hb] at hends
    · rfl

theorem callsFor_congr (h : w.occursCheck = u.occursCheck) : w.callsFor ps env = u.callsFor ps env := by
  induction ps generalizing env with
  | nil => rfl
  | cons p ps ih =>
    rw [callsFor, callsFor, unify_outcome_congr h]
    simp only [ih]

theorem made_congr (h : w.occursCheck = u.occursCheck) : c.made w = c.made u := by
  have hstep (step : Step) : w.callsOf c.env step = u.callsOf c.env step := by
    cases step with
    | members pairs => exact callsFor_congr h
    | _ => rfl
  simp only [Call.made, hstep]

/-- When unification of a list fails, it is its last call that has failed. -/
theorem callsFor_of_clash {cause : Clash} (h : (u.unifyAll ps env).outcome = .clash cause) :
    ∃ before d, u.callsFor ps env = before ++ [d] ∧ (d.run u).outcome = .clash cause := by
  induction ps generalizing env with
  | nil => cases h
  | cons p ps ih =>
    rw [unifyAll, foldlM_cons_outcome] at h
    rw [callsFor]
    cases hp : (u.unify p.1 p.2 env).outcome with
    | done e =>
      obtain ⟨before, d, hd, hcause⟩ := ih (by rwa [hp] at h)
      exact ⟨⟨p.1, p.2, env⟩ :: before, d, by simp [hd], hcause⟩
    | clash cause' => exact ⟨[], ⟨p.1, p.2, env⟩, rfl, by rw [hp] at h; exact hp.trans h⟩
    | endless => simp [hp] at h

/-- A call that fails has made no calls, or it fails as the last of these. -/
theorem made_of_clash {cause : Clash} (h : (c.run u).outcome = .clash cause) :
    c.made u = [] ∨ ∃ before d, c.made u = before ++ [d] ∧ (d.run u).outcome = .clash cause := by
  rcases run_cases u c with ⟨step, hrun, hmade⟩ | ⟨hrun, -⟩
  · rw [hrun, reporting_outcome] at h
    rw [hmade]
    cases step with
    | members pairs => exact .inr (callsFor_of_clash h)
    | _ => exact .inl rfl
  · rw [hrun] at h
    cases h

theorem unifyAll_log : (u.unifyAll ps env).log =
    (u.callsFor ps env).flatMap fun d => (d.run u).log := by
  induction ps generalizing env with
  | nil => rfl
  | cons p ps ih =>
    rw [unifyAll_cons, callsFor, List.flatMap_cons, Attempt.bind_def, Attempt.bind]
    cases hp : (u.unify p.1 p.2 env).outcome with
    | done e => simp only [ih, Call.run]
    | _ => simp [Call.run]

theorem proceed_log (step : Step) :
    (u.proceed env step).log = (u.callsOf env step).flatMap fun d => (d.run u).log := by
  cases step with
  | settled => rfl
  | assign v t =>
    simp only [proceed, assign]
    split <;> rfl
  | members pairs => exact unifyAll_log
  | clash cause => rfl

/-- A call reports its beginning, then everything that its own calls report, and then its end. -/
theorem run_log (u : Unifier) (c : Call) : (c.run u).log =
    (if u.level.shows .calls then [.unifying c.left c.right] else []) ++
      (c.made u).flatMap (fun d => (d.run u).log) ++
      if u.level.shows .results then ending c.left c.right (c.run u).outcome else [] := by
  rcases run_cases u c with ⟨step, hrun, hmade⟩ | ⟨hrun, hmade⟩
  · rw [hmade, ← proceed_log, hrun]
    rfl
  · rw [hmade, hrun]
    rfl

end Calls

/-- A call with its result and the trees of the calls that it makes. -/
inductive CallTree where
  | node (call : Call) (result : Except Clash Environment) (members : List CallTree)

namespace CallTree

def call : CallTree → Call
  | node c _ _ => c

@[simp] theorem call_node (c : Call) (r : Except Clash Environment) (ts : List CallTree) :
    (node c r ts).call = c := rfl

mutual

/-- What is written for the calls of a tree, from outside to inside and from left to right, when something is
written before and after each call. -/
def walk {α : Type} (before : Call → List α) (after : Call → Except Clash Environment → List α) :
    CallTree → List α
  | node c r ts => before c ++ walkList before after ts ++ after c r

def walkList {α : Type} (before : Call → List α)
    (after : Call → Except Clash Environment → List α) : List CallTree → List α
  | [] => []
  | t :: ts => walk before after t ++ walkList before after ts

end

/-- All calls, in the order in which they begin. -/
def calls (t : CallTree) : List Call := t.walk (fun c => [c]) fun _ _ => []

/-- The report at the beginning of a call. -/
def opening (c : Call) : Event := .unifying c.left c.right

/-- The report at the end of a call. -/
def closing (c : Call) : Except Clash Environment → Event
  | .ok e => .unified c.left c.right e
  | .error cause => .failed cause

/-- The report on all calls: the reports on the calls that a call makes stand between its own two. -/
def report (t : CallTree) : List Event := t.walk (fun c => [opening c]) fun c r => [closing c r]

mutual

/-- The calls that are open when the last one of all begins, from outside to inside. -/
def spine : CallTree → List Call
  | node c _ ts => c :: spineLast ts

def spineLast : List CallTree → List Call
  | [] => []
  | [t] => spine t
  | _ :: t :: ts => spineLast (t :: ts)

end

theorem spineLast_append (ts : List CallTree) (t : CallTree) : spineLast (ts ++ [t]) = t.spine := by
  induction ts with
  | nil => rfl
  | cons s ts ih => cases ts <;> exact ih

theorem spine_node_append (c : Call) (r : Except Clash Environment) (ts : List CallTree)
    (t : CallTree) : (node c r (ts ++ [t])).spine = c :: t.spine := by
  rw [spine, spineLast_append]

theorem memberInduction {motive : CallTree → Prop}
    (step : ∀ c r ts, (∀ t ∈ ts, motive t) → motive (node c r ts)) (t : CallTree) : motive t := by
  refine @CallTree.rec motive (fun ts => ∀ t ∈ ts, motive t) step ?_ ?_ t
  · simp
  · intro t ts ht hts
    exact List.forall_mem_cons.2 ⟨ht, hts⟩

section Walk

variable {α β : Type} (before : Call → List α) (after : Call → Except Clash Environment → List α)

theorem walkList_eq (ts : List CallTree) :
    walkList before after ts = ts.flatMap (walk before after) := by
  induction ts with
  | nil => rfl
  | cons t ts ih => simp [walkList, ih]

theorem walk_node (c : Call) (r : Except Clash Environment) (ts : List CallTree) :
    (node c r ts).walk before after = before c ++ ts.flatMap (walk before after) ++ after c r := by
  rw [walk, walkList_eq]

theorem report_node (c : Call) (r : Except Clash Environment) (ts : List CallTree) :
    (node c r ts).report = opening c :: (ts.flatMap report ++ [closing c r]) := walk_node _ _ c r ts

theorem walk_nil (t : CallTree) : t.walk (fun _ => ([] : List α)) (fun _ _ => []) = [] := by
  induction t using memberInduction with
  | step c r ts ih => simpa [walk_node] using ih

theorem map_walk (f : α → β) (t : CallTree) :
    (t.walk before after).map f = t.walk (fun c => (before c).map f) fun c r => (after c r).map f := by
  induction t using memberInduction with
  | step c r ts ih =>
    rw [walk_node, walk_node, List.map_append, List.map_append, List.map_flatMap,
      List.flatMap_congr ih]

theorem filter_walk (p : α → Bool) (t : CallTree) :
    (t.walk before after).filter p =
      t.walk (fun c => (before c).filter p) fun c r => (after c r).filter p := by
  induction t using memberInduction with
  | step c r ts ih =>
    rw [walk_node, walk_node, List.filter_append, List.filter_append, List.filter_flatMap,
      List.flatMap_congr ih]

end Walk

/-- Is this the tree of all calls that a call makes? -/
inductive Made (u : Unifier) : CallTree → Prop
  | node {c : Call} {r : Except Clash Environment} {ts : List CallTree}
      (outcome : (c.run u).outcome = .ofExcept r) (calls : ts.map call = c.made u)
      (members : ∀ t ∈ ts, Made u t) : Made u (node c r ts)

section Made

variable {u w : Unifier} {t t' : CallTree}

theorem exists_trees {cs : List Call} (h : ∀ c ∈ cs, ∃ t : CallTree, t.Made u ∧ t.call = c) :
    ∃ ts : List CallTree, (∀ t ∈ ts, t.Made u) ∧ ts.map call = cs := by
  induction cs with
  | nil => exact ⟨[], by simp⟩
  | cons c cs ih =>
    obtain ⟨⟨t, ht, rfl⟩, hcs⟩ := List.forall_mem_cons.1 h
    obtain ⟨ts, hts, rfl⟩ := ih hcs
    exact ⟨t :: ts, List.forall_mem_cons.2 ⟨ht, hts⟩, rfl⟩

theorem exists_made (hu : u.occursCheck = true) {c : Call} (hc : c.env.Acyclic) :
    ∃ t : CallTree, t.Made u ∧ t.call = c := by
  induction c using (wellFounded_invokes u).induction with
  | _ c ih =>
    obtain ⟨ts, hts, hmade⟩ : ∃ ts : List CallTree, (∀ t ∈ ts, t.Made u) ∧ ts.map call = c.made u := by
      refine exists_trees fun d hd => ?_
      have hinvokes := invokes_of_mem_made hd
      exact ih d hinvokes (hinvokes.acyclic hu hc)
    obtain ⟨r, hr⟩ := Outcome.exists_ofExcept (unify_ne_endless hu hc)
    exact ⟨.node c r ts, .node hr hmade hts, rfl⟩

theorem eq_of_map_call {ts ts' : List CallTree}
    (h : ∀ t ∈ ts, ∀ t' : CallTree, t'.Made u → t.call = t'.call → t = t')
    (hts' : ∀ t ∈ ts', t.Made u) (hcalls : ts.map call = ts'.map call) : ts = ts' := by
  induction ts generalizing ts' with
  | nil => simpa [eq_comm] using hcalls
  | cons t ts ih =>
    cases ts' with
    | nil => simp at hcalls
    | cons t' ts' =>
      obtain ⟨ht, hts⟩ := List.forall_mem_cons.1 h
      obtain ⟨ht', hts'⟩ := List.forall_mem_cons.1 hts'
      obtain ⟨hcall, hcalls⟩ := List.cons.inj hcalls
      rw [ht t' ht' hcall, ih hts hts' hcalls]

/-- A call has one tree. -/
theorem Made.unique (h : t.Made u) (h' : t'.Made u) (hcall : t.call = t'.call) : t = t' := by
  induction h generalizing t' with
  | @node c r ts outcome calls _ ih =>
    cases h' with
    | @node c' r' ts' outcome' calls' members' =>
      obtain rfl : c = c' := hcall
      rw [Outcome.ofExcept_injective (outcome.symm.trans outcome'),
        eq_of_map_call (fun t ht t' => ih t ht) members' (calls.trans calls'.symm)]

/-- The log follows the tree. The level only decides which of the two reports on a call are made. -/
theorem Made.log (h : t.Made u) (hw : w.occursCheck = u.occursCheck) :
    (t.call.run w).log = t.walk (fun c => if w.level.shows .calls then [opening c] else [])
      fun c r => if w.level.shows .results then [closing c r] else [] := by
  induction h with
  | @node c r ts outcome calls _ ih =>
    have hend : ending c.left c.right (c.run w).outcome = [closing c r] := by
      rw [Call.run, unify_outcome_congr hw]
      rw [Call.run] at outcome
      rw [outcome]
      cases r <;> rfl
    rw [call_node, run_log, walk_node, made_congr hw, ← calls, List.flatMap_map, List.flatMap_congr ih,
      hend]
    rfl

/-- A report on a failure ends with the last call that has begun, and the failure of each call that was open
then. -/
theorem Made.report_of_clash {cause : Clash} (h : t.Made u)
    (hcause : (t.call.run u).outcome = .clash cause) :
    (∀ c ∈ t.spine, (c.run u).outcome = .clash cause) ∧
    ∃ before inner, t.spine.getLast? = some inner ∧
      t.report = before ++ opening inner :: List.replicate t.spine.length (.failed cause) := by
  induction h with
  | @node c r ts outcome calls members ih =>
    have hr : closing c r = .failed cause := by
      have hout := outcome.symm.trans hcause
      cases r with
      | ok e => cases hout
      | error cause' =>
        obtain rfl := Outcome.clash.inj hout
        rfl
    rcases made_of_clash hcause with hnone | ⟨before, d, hmade, hd⟩
    · obtain rfl : ts = [] := List.map_eq_nil_iff.1 (calls.trans hnone)
      exact ⟨by simpa [spine, spineLast] using hcause, [], c, rfl,
        by simp [report_node, spine, spineLast, hr]⟩
    · obtain ⟨ss, ts', rfl, -, hlast⟩ := List.map_eq_append_iff.1 (calls.trans hmade)
      obtain ⟨t, rfl, rfl⟩ := List.map_eq_singleton_iff.1 hlast
      obtain ⟨hspine, inside, inner, hinner, hreport⟩ := ih t (by simp) hd
      refine ⟨?_, opening c :: ss.flatMap report ++ inside, inner, ?_, ?_⟩
      · rw [spine_node_append]
        exact List.forall_mem_cons.2 ⟨hcause, hspine⟩
      · rw [spine_node_append, List.getLast?_cons, hinner]
        rfl
      · rw [spine_node_append, List.length_cons, List.replicate_succ', report_node, hr,
          List.flatMap_append, List.flatMap_singleton, hreport]
        simp

end Made

end CallTree

open CallTree

theorem shows_of_two_le {n : UInt8} (h : 2 ≤ n) :
    (⟨n⟩ : TraceLevel).shows .calls = true ∧ (⟨n⟩ : TraceLevel).shows .results = true :=
  ⟨TraceLevel.shows_mono (l := .results) h rfl, TraceLevel.shows_mono (l := .results) h rfl⟩

/-- The level of a unifier has no influence on the outcome. It decides which of the reports on the tree of
the calls are made: none, the one at the beginning of each call, or both. Then the reports on a call
enclose those on the calls that it makes, and when it fails, all calls that are open report this at the end. -/
theorem unify_log_tree (u : Unifier) (hu : u.occursCheck = true) (env : Environment)
    (henv : env.Acyclic) (a b : Term) :
    let run (n : UInt8) : Attempt Environment := (u.withLevel ⟨n⟩).unify a b env
    (∀ m n, (run m).outcome = (run n).outcome) ∧
    ∃ tree : CallTree, (∀ t : CallTree, t.Made u ∧ t.call = ⟨a, b, env⟩ ↔ t = tree) ∧
      (run 0).log = [] ∧ (run 1).log = tree.calls.map opening ∧
      ∀ n, 2 ≤ n → (run n).log = tree.report ∧
        (run n).log.filter (fun e => e.severity != .trace) = (run 1).log ∧
        ∀ cause, (run n).outcome = .clash cause →
          (∀ c ∈ tree.spine, (c.run u).outcome = .clash cause) ∧
          ∃ before inner, tree.spine.getLast? = some inner ∧ (run n).log =
            before ++ opening inner :: List.replicate tree.spine.length (.failed cause) := by
  intro run
  have hout (n : UInt8) : (run n).outcome = (u.unify a b env).outcome :=
    unify_outcome_congr (w := u.withLevel ⟨n⟩) (u := u) rfl a b env
  refine ⟨fun m n => (hout m).trans (hout n).symm, ?_⟩
  obtain ⟨tree, hmade, hcall⟩ := exists_made hu (c := ⟨a, b, env⟩) henv
  have hlog (n : UInt8) : (run n).log = _ := hcall ▸ hmade.log (w := u.withLevel ⟨n⟩) rfl
  have hcalls : (run 1).log = tree.calls.map opening := by
    rw [hlog, calls, map_walk]
    rfl
  refine ⟨tree, fun t => ⟨fun ht => ht.1.unique hmade (ht.2.trans hcall.symm), ?_⟩,
    (hlog 0).trans (walk_nil tree), hcalls, fun n hn => ?_⟩
  · rintro rfl
    exact ⟨hmade, hcall⟩
  · obtain ⟨hfirst, hsecond⟩ := shows_of_two_le hn
    have hreport : (run n).log = tree.report := by
      rw [hlog]
      simp only [withLevel, hfirst, hsecond, if_true]
      rfl
    refine ⟨hreport, ?_, fun cause hcause => ?_⟩
    · have hclosing (c : Call) (r : Except Clash Environment) :
          [closing c r].filter (fun e => e.severity != .trace) = [] := by
        cases r <;> rfl
      rw [hreport, hcalls, report, calls, filter_walk, map_walk]
      simp only [hclosing]
      rfl
    · rw [hreport]
      exact hmade.report_of_clash (hcall ▸ (hout n).symm.trans hcause)

/-- Unification of [x, [f(x, 2)]] with [1, [f(y, 3)]] fails four calls deep. -/
theorem unify_log_tree_failing :
    let x : Variable := ⟨0⟩
    let y : Variable := ⟨1⟩
    let f (s t : Term) : Term := .compound "f" [s, t]
    let a : Term := .seq [.var x, .seq [f (.var x) (.int 2)]]
    let b : Term := .seq [.int 1, .seq [f (.var y) (.int 3)]]
    let u := plain.withOccursCheck true
    let run (n : UInt8) : Attempt Environment := (u.withLevel ⟨n⟩).unify a b .empty
    let cause : Clash := .mismatch (.int 2) (.int 3)
    empty.Acyclic ∧ (2 : UInt8) ≤ 7 ∧ (run 7).outcome = .clash cause ∧
      (run 0).outcome = (run 7).outcome ∧ (run 0).log = [] ∧
      ∃ tree : CallTree, tree.Made u ∧ tree.call = ⟨a, b, .empty⟩ ∧
        (run 1).log = tree.calls.map opening ∧ tree.calls.length = 6 ∧
        (run 7).log = tree.report ∧
        (run 7).log.filter (fun e => e.severity != .trace) = (run 1).log ∧
        ∃ before inner, tree.spine.getLast? = some inner ∧
          (run 7).log = before ++ opening inner :: List.replicate tree.spine.length (.failed cause) := by
  intro x y f a b u run cause
  have hlevel : (2 : UInt8) ≤ 7 := by decide
  have hcause : (run 7).outcome = .clash cause := by decide
  have hlength : (run 1).log.length = 6 := by decide
  obtain ⟨hsame, tree, htree, hsilent, hcalls, hreport⟩ :=
    unify_log_tree u rfl empty acyclic_empty a b
  obtain ⟨hmade, hcall⟩ := (htree tree).2 rfl
  obtain ⟨hlog, hfilter, hfail⟩ := hreport 7 hlevel
  refine ⟨acyclic_empty, hlevel, hcause, hsame 0 7, hsilent, tree, hmade, hcall, hcalls, ?_, hlog,
    hfilter, (hfail cause hcause).2⟩
  rw [← hlength, hcalls, List.length_map]

end Unifier

end TermUnification
