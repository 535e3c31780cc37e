import Mathlib.Algebra.Group.Nat.Defs
import TermUnification.Proofs.Run

/-! The bound on the levels of unification is never met, with the occurs-check or without it. What still
has to be instantiated stays within a budget: each new binding at most doubles the heights, and uses up
one of the variables. So unification calls itself as though there were no bound. -/
namespace TermUnification

namespace Environment

/-- The instance, if there is one, has variables among the given ones only, and at most the given
height. -/
structure Fits (env : Environment) (X : Finset Variable) (n : Nat) (t : Term) : Prop where
  vars : ∀ i, env.instantiate? t = some i → ∀ v, i.occurs v = true → v ∈ X
  height : ∀ i, env.instantiate? t = some i → i.height ≤ n

theorem Fits.mono {env : Environment} {X : Finset Variable} {m n : Nat} {t : Term}
    (h : env.Fits X m t) (hmn : m ≤ n) : env.Fits X n t :=
  ⟨h.vars, fun i hi => (h.height i hi).trans hmn⟩

theorem fits_of_instantiate? {env : Environment} {X : Finset Variable} {n : Nat} {t i : Term}
    (hi : env.instantiate? t = some i) (hX : ∀ v, i.occurs v = true → v ∈ X) (hn : i.height ≤ n) :
    env.Fits X n t := by
  constructor <;> intro j hj <;> obtain rfl := Option.some.inj (hi.symm.trans hj)
  · exact hX
  · exact hn

/-- The members of an instance are instantiated already, and lower than the instance. -/
theorem Fits.member {env : Environment} {X : Finset Variable} {n : Nat} {t i m : Term}
    (h : env.Fits X (n + 1) t) (hi : env.instantiate? t = some i) (hm : m ∈ i.members) :
    env.Fits X n m := by
  refine fits_of_instantiate? (instantiate?_member hi hm) (fun v hv => ?_) ?_
  · exact h.vars i hi v (Term.occurs_of_member hm hv)
  · have hlt := Term.height_lt_of_mem hm
    have hle := h.height i hi
    omega

/-- The way from one environment and its budget to a later one. -/
structure Advance (d : Environment) (X : Finset Variable) (m : Nat)
    (e : Environment) (Y : Finset Variable) (n : Nat) : Prop where
  fits : ∀ t, d.Fits X m t → e.Fits Y n t
  balance : n * 2 ^ Y.card = m * 2 ^ X.card
  progress : (e = d ∧ Y = X ∧ n = m) ∨ (Y.card < X.card ∧ 2 * m ≤ n)

theorem Advance.refl (d : Environment) (X : Finset Variable) (m : Nat) : d.Advance X m d X m :=
  ⟨fun _ h => h, rfl, .inl ⟨rfl, rfl, rfl⟩⟩

theorem Advance.trans {d e f : Environment} {X Y Z : Finset Variable} {l m n : Nat}
    (h : d.Advance X l e Y m) (h' : e.Advance Y m f Z n) : d.Advance X l f Z n := by
  refine ⟨fun t ht => h'.fits t (h.fits t ht), h'.balance.trans h.balance, ?_⟩
  rcases h.progress with ⟨rfl, rfl, rfl⟩ | ⟨hY, hm⟩
  · exact h'.progress
  · rcases h'.progress with ⟨rfl, rfl, rfl⟩ | ⟨hZ, hn⟩
    · exact .inr ⟨hY, hm⟩
    · exact .inr ⟨hZ.trans hY, by omega⟩

section New

variable {env : Environment} {v : Variable} {t : Term} (hv : env.lookup? v = none)
  (ht : ∀ w, t.occurs w = true → env.lookup? w = none) (hanew : t.subst .var = t)

include hv ht hanew

/-- An instance after a new binding is one from before, with the bound term at its variable. -/
theorem exists_instance_of_set {s j : Term} (hj : (env.set v t).instantiate? s = some j) :
    ∃ i, env.instantiate? s = some i ∧ j = i.subst (env.set v t).value ∧
      ∀ w, i.occurs w = true → (env.set v t).value w = .var w ∧ w ≠ v ∨
        (env.set v t).value w = t ∧ t.occurs v = false := by
  have hext := extends_set hv t
  obtain ⟨hends, rfl⟩ := instantiate?_eq_some_iff.1 hj
  have hi := instantiate?_eq_some_iff.2 ⟨hext.termEnds hends, rfl⟩
  refine ⟨_, hi, (hext.subst_subst_of_ends hends).symm, fun w hw => ?_⟩
  obtain ⟨⟨x, hx, hxw⟩, hfresh⟩ := (occurs_of_instantiate? hi).1 hw
  by_cases hwv : w = v
  · subst hwv
    have hw' : (env.set w t).Ends w := fun y hwy =>
      hends x hx y (.trans (Relation.ReflTransGen.mono hext.edge_le x w hxw) hwy)
    exact .inr (value_set_self ht hanew hw').symm
  · exact .inl ⟨value_of_fresh (by simp [hwv, hfresh]), hwv⟩

/-- A new binding takes its variable away and doubles the heights at most. -/
theorem Fits.set {X : Finset Variable} {m : Nat} (htX : ∀ w, t.occurs w = true → w ∈ X)
    (hm : t.height ≤ m) {s : Term} (hs : env.Fits X m s) :
    (env.set v t).Fits (X.erase v) (2 * m) s := by
  constructor
  · intro j hj y hy
    obtain ⟨i, hi, rfl, hvalue⟩ := exists_instance_of_set hv ht hanew hj
    obtain ⟨w, hw, hwy⟩ := (Term.occurs_subst _ _ _).1 hy
    rcases hvalue w hw with ⟨hval, hwv⟩ | ⟨hval, hself⟩
    · rw [hval, Term.occurs_var] at hwy
      subst hwy
      exact Finset.mem_erase.2 ⟨hwv, hs.vars i hi _ hw⟩
    · rw [hval] at hwy
      refine Finset.mem_erase.2 ⟨?_, htX y hwy⟩
      rintro rfl
      simp [hself] at hwy
  · intro j hj
    obtain ⟨i, hi, rfl, hvalue⟩ := exists_instance_of_set hv ht hanew hj
    have hle : (i.subst (env.set v t).value).height ≤ i.height + m := by
      apply Term.height_subst_le
      intro w hw
      rcases hvalue w hw with ⟨hval, -⟩ | ⟨hval, -⟩
      · rw [hval]
        exact Nat.zero_le m
      · rwa [hval]
    have := hs.height i hi
    omega

theorem advance_set {X : Finset Variable} {m : Nat} (hvX : v ∈ X)
    (htX : ∀ w, t.occurs w = true → w ∈ X) (hm : t.height ≤ m) :
    env.Advance X m (env.set v t) (X.erase v) (2 * m) := by
  have hcard := Finset.card_erase_add_one hvX
  refine ⟨fun s hs => hs.set hv ht hanew htX hm, ?_, .inr ⟨by omega, le_rfl⟩⟩
  rw [← hcard, Nat.pow_succ, Nat.mul_comm 2 m, Nat.mul_assoc, Nat.mul_comm 2]

end New

end Environment

namespace Unifier
open Environment

/-- Both terms of each pair fit the budget. -/
def FitsAll (env : Environment) (X : Finset Variable) (n : Nat) (ps : List (Term × Term)) : Prop :=
  ∀ p ∈ ps, env.Fits X n p.1 ∧ env.Fits X n p.2

theorem FitsAll.members {env : Environment} {X : Finset Variable} {n : Nat} {a b a' b' : Term}
    (hfa : env.Fits X (n + 1) a) (hfb : env.Fits X (n + 1) b) (ha : env.instantiate? a = some a')
    (hb : env.instantiate? b = some b') {qs : List (Term × Term)}
    (step : Step.between a' b' = .members qs) : FitsAll env X n qs := by
  obtain ⟨-, -, rfl⟩ := Step.between_members step
  intro p hp
  obtain ⟨h1, h2⟩ := List.of_mem_zip hp
  exact ⟨hfa.member ha h1, hfb.member hb h2⟩

theorem Resolves.advance {u : Unifier} {ps : List (Term × Term)} {env e : Environment}
    {out : Outcome Environment} (h : Resolves u ps env out) (hout : out = .done e)
    {X : Finset Variable} {m : Nat} (hps : FitsAll env X m ps) : ∃ Y n, env.Advance X m e Y n := by
  induction h generalizing X m with
  | nil =>
    obtain rfl := Outcome.done.inj hout
    exact ⟨X, m, .refl _ X m⟩
  | settled _ _ _ _ ih => exact ih hout (List.forall_mem_cons.1 hps).2
  | @assign env a b a' b' v t ps out ha hb step _ _ ih =>
    obtain ⟨⟨hfa, hfb⟩, hrest⟩ := List.forall_mem_cons.1 hps
    obtain ⟨hv, ht, hanew⟩ := new_of_assign ha hb step
    have hadv : env.Advance X m (env.set v t) (X.erase v) (2 * m) := by
      obtain ⟨⟨rfl, rfl⟩ | ⟨rfl, rfl⟩, -, -⟩ := Step.between_assign step
      · exact advance_set hv ht hanew (hfa.vars _ ha v (by simp)) (hfb.vars _ hb) (hfb.height _ hb)
      · exact advance_set hv ht hanew (hfb.vars _ hb v (by simp)) (hfa.vars _ ha) (hfa.height _ ha)
    rw [Step.bind_eq_set step] at ih
    obtain ⟨Y, n, hnext⟩ := ih hout fun p hp =>
      ⟨hadv.fits _ (hrest p hp).1, hadv.fits _ (hrest p hp).2⟩
    exact ⟨Y, n, hadv.trans hnext⟩
  | members ha hb step _ ih =>
    obtain ⟨⟨hfa, hfb⟩, hrest⟩ := List.forall_mem_cons.1 hps
    have hqs := FitsAll.members (hfa.mono (Nat.le_succ m)) (hfb.mono (Nat.le_succ m)) ha hb step
    exact ih hout (List.forall_mem_append.2 ⟨hqs, hrest⟩)
  | occurs => cases hout
  | clash => cases hout

/-- Are `n` levels enough for terms of height `h`, when nothing is higher than `m` and `c` variables are
left? -/
def Enough (n h m c : Nat) : Prop := h + 1 + c + 2 * (m * 2 ^ c) ≤ n + 2 * m

theorem Enough.pos {n h m c : Nat} (hn : Enough n h m c) : 0 < n := by
  unfold Enough at hn
  have hpow : m ≤ m * 2 ^ c := Nat.le_mul_of_pos_right m (Nat.two_pow_pos _)
  omega

theorem enough_of_le {n m c l : Nat} (hc : c ≤ l) (hn : (m + 1) * 2 ^ (l + 1) ≤ n) :
    Enough n m m c := by
  unfold Enough
  have hpow : 2 ^ c ≤ 2 ^ l := Nat.pow_le_pow_right (by omega) hc
  have hmul : m * 2 ^ c ≤ m * 2 ^ l := Nat.mul_le_mul_left m hpow
  have hlt : c < 2 ^ c := Nat.lt_two_pow_self
  rw [Nat.pow_succ, Nat.add_mul, Nat.one_mul, ← Nat.mul_assoc] at hn
  omega

/-- A level down there is one level less and one unit of height less, or a variable has been bound. -/
theorem Enough.advance {d e : Environment} {X Y : Finset Variable} {k l m n : Nat}
    (h : Enough (n + 1) (k + 1) m X.card) (hadv : d.Advance X m e Y l) :
    (e = d ∧ Y = X ∧ l = m ∧ Enough n k m X.card) ∨ Enough n l l Y.card := by
  unfold Enough at h ⊢
  rcases hadv.progress with ⟨rfl, rfl, rfl⟩ | ⟨hY, hl⟩
  · exact .inl ⟨rfl, rfl, rfl, by omega⟩
  · right
    rw [hadv.balance]
    omega

/-- Are `n` levels enough for two terms by the count, if they can be instantiated at all? -/
def Suffices (n : Nat) (a b : Term) (env : Environment) : Prop :=
  0 < n ∧ (env.TermEnds a → env.TermEnds b → ∃ (h m : Nat) (X : Finset Variable),
    env.Fits X h a ∧ env.Fits X h b ∧ h ≤ m ∧ Enough n h m X.card)

/-- One level less suffices for the members, in the environments that the members before them lead
to. -/
theorem Suffices.member {u : Unifier} {n : Nat} {a b a' b' : Term} {env e : Environment}
    {before after : List (Term × Term)} {p : Term × Term} (h : Suffices (n + 1) a b env)
    (ha : env.instantiate? a = some a') (hb : env.instantiate? b = some b')
    (step : Step.between a' b' = .members (before ++ p :: after))
    (run : Resolves u before env (.done e)) : Suffices n p.1 p.2 e := by
  obtain ⟨-, hbudget⟩ := h
  obtain ⟨h, m, X, hfa, hfb, hm, henough⟩ :=
    hbudget (instantiate?_eq_some_iff.1 ha).1 (instantiate?_eq_some_iff.1 hb).1
  obtain ⟨k, rfl⟩ : ∃ k, h = k + 1 := by
    have hpos := hfa.height a' ha
    rw [Term.height_of_isComposite (Step.between_members step).1.isComposite] at hpos
    exact ⟨h - 1, by omega⟩
  have hqs := FitsAll.members hfa hfb ha hb step
  obtain ⟨hp1, hp2⟩ := hqs p (by simp)
  have hkm : k ≤ m := Nat.le_of_succ_le hm
  obtain ⟨Y, l, hadv⟩ := run.advance rfl (X := X) (m := m) fun q hq => by
    obtain ⟨h1, h2⟩ := hqs q (List.mem_append_left _ hq)
    exact ⟨h1.mono hkm, h2.mono hkm⟩
  rcases henough.advance hadv with ⟨rfl, rfl, rfl, hn⟩ | hn
  · exact ⟨hn.pos, fun _ _ => ⟨k, _, _, hp1, hp2, hkm, hn⟩⟩
  · have hfit1 := hadv.fits _ (hp1.mono hkm)
    have hfit2 := hadv.fits _ (hp2.mono hkm)
    exact ⟨hn.pos, fun _ _ => ⟨l, l, Y, hfit1, hfit2, le_rfl, hn⟩⟩

theorem suffices_of_depthBound_le {n : Nat} {a b : Term} {env : Environment}
    (hn : depthBound env a b ≤ n) : Suffices n a b env := by
  unfold depthBound at hn
  constructor
  · split at hn
    · exact (Nat.mul_pos (Nat.succ_pos _) (Nat.two_pow_pos _)).trans_le hn
    · exact hn
  · intro hea heb
    have ha := instantiate?_eq_some_iff.2 ⟨hea, rfl⟩
    have hb := instantiate?_eq_some_iff.2 ⟨heb, rfl⟩
    simp only [ha, hb] at hn
    generalize a.subst env.value = a' at ha hn
    generalize b.subst env.value = b' at hb hn
    have hfa : env.Fits (a'.vars ++ b'.vars).toFinset (max a'.height b'.height) a :=
      fits_of_instantiate? ha (fun v hv => by simp [Term.mem_vars, hv]) (le_max_left _ _)
    have hfb : env.Fits (a'.vars ++ b'.vars).toFinset (max a'.height b'.height) b :=
      fits_of_instantiate? hb (fun v hv => by simp [Term.mem_vars, hv]) (le_max_right _ _)
    exact ⟨_, _, _, hfa, hfb, le_rfl, enough_of_le (List.toFinset_card_le _) hn⟩

/-- Steps that agree in every environment that they come to agree on the whole list. -/
theorem foldlM_congr {f g : Environment → Term × Term → Attempt Environment}
    {ps : List (Term × Term)} {env : Environment}
    (h : ∀ before p after e, ps = before ++ p :: after →
      (before.foldlM f env).outcome = .done e → g e p = f e p) :
    ps.foldlM g env = ps.foldlM f env := by
  induction ps generalizing env with
  | nil => rfl
  | cons p ps ih =>
    have hp : g env p = f env p := h [] p ps env rfl rfl
    rw [List.foldlM_cons, List.foldlM_cons, hp, Attempt.bind_def, Attempt.bind_def, Attempt.bind,
      Attempt.bind]
    cases hout : (f env p).outcome with
    | done e =>
      have hrest : ps.foldlM g e = ps.foldlM f e := by
        refine ih fun before q after e' hps hdone => h (p :: before) q after e' (by simp [hps]) ?_
        rw [foldlM_cons_outcome, hout]
        exact hdone
      simp only [hrest]
    | clash cause => rfl
    | endless => rfl

theorem resolves_of_unifyAll {u : Unifier} {ps : List (Term × Term)} {env e : Environment}
    (h : (u.unifyAll ps env).outcome = .done e) : Resolves u ps env (.done e) :=
  h ▸ resolves_unifyAll (by simp [h])

section Levels

variable {u : Unifier} {a b a' b' : Term} {env : Environment}

/-- Any two numbers of levels that suffice give the same. -/
theorem unifyWithin_congr {m n : Nat} (hm : Suffices m a b env) (hn : Suffices n a b env) :
    u.unifyWithin m a b env = u.unifyWithin n a b env := by
  induction n generalizing m a b env with
  | zero => exact absurd hn.1 (Nat.lt_irrefl 0)
  | succ n ih =>
    obtain ⟨m, rfl⟩ := Nat.exists_eq_add_one.2 hm.1
    rw [unifyWithin, unifyWithin]
    congr 1
    cases ha : env.instantiate? a with
    | none => rfl
    | some a' =>
      cases hb : env.instantiate? b with
      | none => rfl
      | some b' =>
        dsimp only
        cases step : Step.between a' b' with
        | members qs =>
          apply foldlM_congr
          rintro before p after e rfl hdone
          have run : Resolves u before env (.done e) :=
            hdone ▸ resolves_foldlM (n := fun _ _ => n) (by simp [hdone])
          exact ih (hm.member ha hb step run) (hn.member ha hb step run)
        | _ => rfl

/-- The bound on the levels is never met. -/
theorem unifyWithin_eq_unify {n : Nat} (hn : depthBound env a b ≤ n) :
    u.unifyWithin n a b env = u.unify a b env :=
  unifyWithin_congr (suffices_of_depthBound_le hn) (suffices_of_depthBound_le le_rfl)

/-- What is done about two terms that have been compared, without any bound on the levels. -/
def proceed (u : Unifier) (env : Environment) : Step → Attempt Environment
  | .settled => pure env
  | .assign v t => u.assign v t env
  | .members pairs => u.unifyAll pairs env
  | .clash cause => .fail cause

/-- Unification calls itself through the members. -/
theorem unify_eq (u : Unifier) (ha : env.instantiate? a = some a')
    (hb : env.instantiate? b = some b') :
    u.unify a b env = u.reporting a b (u.proceed env (Step.between a' b')) := by
  have hn : Suffices (depthBound env a b + 1) a b env := suffices_of_depthBound_le (Nat.le_succ _)
  rw [← unifyWithin_eq_unify (Nat.le_succ _), unifyWithin, ha, hb]
  dsimp only
  cases step : Step.between a' b' with
  | members qs =>
    congr 1
    apply foldlM_congr
    rintro before p after e rfl hdone
    have run := resolves_of_unifyAll hdone
    exact unifyWithin_congr (hn.member ha hb step run) (suffices_of_depthBound_le le_rfl)
  | _ => rfl

theorem unify_of_not_ends (h : ¬ (env.TermEnds a ∧ env.TermEnds b)) :
    u.unify a b env = u.reporting a b .endless := by
  rw [← isSome_instantiate?_iff, ← isSome_instantiate?_iff] at h
  rw [← unifyWithin_eq_unify (Nat.le_succ _), unifyWithin]
  congr 1
  cases ha : env.instantiate? a with
  | none => rfl
  | some a' =>
    cases hb : env.instantiate? b with
    | none => rfl
    | some b' => simp [ha, hb] at h

end Levels

theorem unifyAll_singleton_outcome (u : Unifier) (a b : Term) (env : Environment) :
    (u.unifyAll [(a, b)] env).outcome = (u.unify a b env).outcome := by
  rw [unifyAll, foldlM_cons_outcome]
  cases (u.unify a b env).outcome <;> rfl

theorem unifyAll_cons_outcome {u : Unifier} {a b a' b' : Term} {env : Environment}
    (ha : env.instantiate? a = some a') (hb : env.instantiate? b = some b')
    (ps : List (Term × Term)) :
    (u.unifyAll ((a, b) :: ps) env).outcome =
      match (u.proceed env (Step.between a' b')).outcome with
      | .done e => (u.unifyAll ps e).outcome
      | .clash cause => .clash cause
      | .endless => .endless := by
  rw [unifyAll, foldlM_cons_outcome, unify_eq u ha hb, reporting_outcome]
  rfl

theorem unifyAll_append_outcome (u : Unifier) (ps qs : List (Term × Term)) (env : Environment) :
    (u.unifyAll (ps ++ qs) env).outcome =
      match (u.unifyAll ps env).outcome with
      | .done e => (u.unifyAll qs e).outcome
      | .clash cause => .clash cause
      | .endless => .endless :=
  foldlM_append_outcome _ ps qs env

/-- What the rules lead to is what unification computes. -/
theorem Resolves.unifyAll_outcome {u : Unifier} {ps : List (Term × Term)} {env : Environment}
    {out : Outcome Environment} (h : Resolves u ps env out) :
    (u.unifyAll ps env).outcome = out ∧ out ≠ .endless := by
  induction h with
  | nil => simp
  | settled ha hb step _ ih =>
    rw [unifyAll_cons_outcome ha hb, step]
    exact ih
  | assign ha hb step check _ ih =>
    rw [unifyAll_cons_outcome ha hb, step]
    simpa [proceed, Unifier.assign, check] using ih
  | members ha hb step _ ih =>
    rw [unifyAll_append_outcome] at ih
    rw [unifyAll_cons_outcome ha hb, step]
    exact ih
  | occurs ha hb step check =>
    rw [unifyAll_cons_outcome ha hb, step]
    simp [proceed, Unifier.assign, check, Attempt.fail]
  | clash ha hb step =>
    rw [unifyAll_cons_outcome ha hb, step]
    simp [proceed, Attempt.fail]

theorem resolves_iff {u : Unifier} {ps : List (Term × Term)} {env : Environment}
    {out : Outcome Environment} :
    Resolves u ps env out ↔ (u.unifyAll ps env).outcome = out ∧ out ≠ .endless := by
  refine ⟨Resolves.unifyAll_outcome, ?_⟩
  rintro ⟨rfl, hout⟩
  exact resolves_unifyAll hout

theorem resolves_singleton_iff {u : Unifier} {a b : Term} {env : Environment}
    {out : Outcome Environment} :
    Resolves u [(a, b)] env out ↔ (u.unify a b env).outcome = out ∧ out ≠ .endless := by
  rw [resolves_iff, unifyAll_singleton_outcome]

end Unifier

end TermUnification
