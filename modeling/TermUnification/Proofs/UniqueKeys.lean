import TermUnification.Proofs.Closed

/-! Maps whose keys are pairwise different. A map built from entries is such a map, but one put together
again from other members need not be: two keys that hold variables can become equal. An instance has
unique keys exactly when no two keys of one map do, and whatever is done to maps whose keys hold no
variables leaves their keys different. -/
namespace TermUnification

namespace Term

/-- The keys of a list of entries. -/
def keysOf (es : List (Term × Term)) : List Term := es.map Prod.fst

@[simp] theorem keysOf_nil : keysOf [] = [] := rfl

@[simp] theorem keysOf_cons (e : Term × Term) (es : List (Term × Term)) :
    keysOf (e :: es) = e.1 :: keysOf es := rfl

@[simp] theorem keysOf_append (es fs : List (Term × Term)) :
    keysOf (es ++ fs) = keysOf es ++ keysOf fs := List.map_append

/-- Are no two keys of a map equal? -/
def hasUniqueKeys : Term → Bool
  | map es => decide ((keysOf es).Pairwise fun k l => (k == l) = false)
  | _ => true

/-- Do the keys of a map hold no variables? -/
def hasClosedKeys : Term → Bool
  | map es => (keysOf es).all fun k => k.occurrences.isEmpty
  | _ => true

/-- Are the keys of a map pairwise different and free of variables? -/
def hasLiteralKeys (t : Term) : Bool := t.hasUniqueKeys && t.hasClosedKeys

theorem hasUniqueKeys_map {es : List (Term × Term)} : (map es).hasUniqueKeys = true ↔
    (keysOf es).Pairwise fun k l => (k == l) = false := decide_eq_true_iff

theorem hasClosedKeys_map {es : List (Term × Term)} :
    (map es).hasClosedKeys = true ↔ ∀ k ∈ keysOf es, k.Closed := by
  simp [hasClosedKeys, closed_iff_occurrences]

section Entries

variable {key value : Term} {es : List (Term × Term)}

theorem keysOf_insertEntry (key value : Term) (es : List (Term × Term)) :
    keysOf (insertEntry key value es) =
      if (keysOf es).any (· == key) then keysOf es else keysOf es ++ [key] := by
  induction es with
  | nil => rfl
  | cons e es ih =>
    obtain ⟨l, x⟩ := e
    rw [insertEntry, keysOf_cons, List.any_cons]
    cases hl : l == key with
    | true => rfl
    | false =>
      rw [if_neg Bool.false_ne_true, keysOf_cons, ih, Bool.false_or]
      split <;> rfl

theorem pairwise_insertEntry (h : (keysOf es).Pairwise fun k l => (k == l) = false) :
    (keysOf (insertEntry key value es)).Pairwise fun k l => (k == l) = false := by
  rw [keysOf_insertEntry]
  split
  · exact h
  · next hnew =>
    have hne : ∀ k ∈ keysOf es, (k == key) = false := by simpa using hnew
    exact List.pairwise_append.2 ⟨h, List.pairwise_singleton _ _, by simpa using hne⟩

theorem hasUniqueKeys_ofEntries (es : List (Term × Term)) : (ofEntries es).hasUniqueKeys = true := by
  rw [ofEntries, hasUniqueKeys_map]
  exact List.foldlRecOn (motive := fun fs => (keysOf fs).Pairwise fun k l => (k == l) = false) es _
    List.Pairwise.nil fun _ h _ _ => pairwise_insertEntry h

end Entries

section Replaced

variable {R : Variable → Term → Prop} {a b t u : Term}

/-- There is one way to put a closed term together again. -/
theorem Replaced.of_closed (h : Replaced R t u) (ht : t.Closed) : u = t.subst .var :=
  (h.imp fun v _ hv _ => absurd hv (by simp [ht v])).eq_subst

/-- Putting closed terms together again makes no difference to their equality. -/
theorem same_subst_iff (ha : a.Closed) (hb : b.Closed) (σ τ : Variable → Term) :
    Same (a.subst σ) (b.subst τ) ↔ Same a b := by
  induction a using memberInduction generalizing b with
  | step a ih =>
    have hav := ha.isVar_eq_false
    have hbv := hb.isVar_eq_false
    by_cases halike : Alike a b
    · rw [same_iff_of_alike (halike.subst σ τ), same_iff_of_alike halike, members_subst σ hav,
        members_subst τ hbv, List.forall₂_map_left_iff, List.forall₂_map_right_iff,
        List.forall₂_iff_zip, List.forall₂_iff_zip]
      refine and_congr_right fun _ => forall₂_congr fun x y => imp_congr_right fun hxy => ?_
      obtain ⟨hx, hy⟩ := List.of_mem_zip hxy
      exact ih x hx (ha.member hx) (hb.member hy)
    · clear ih ha hb
      cases a <;> cases b <;> simp_all [Same, Alike, isVar, beq_eq, Term.beq]

theorem beq_subst_of_closed (ha : a.Closed) (hb : b.Closed) (σ τ : Variable → Term) :
    (a.subst σ == b.subst τ) = (a == b) :=
  Bool.eq_iff_iff.2 (same_subst_iff ha hb σ τ)

theorem forall₂_keysOf_pairUp {P : Term → Term → Prop} {es : List (Term × Term)} {us : List Term}
    (h : List.Forall₂ P (interleave es) us) : List.Forall₂ P (keysOf es) (keysOf (pairUp us)) := by
  induction es generalizing us with
  | nil =>
    cases h
    exact .nil
  | cons e es ih =>
    cases h with
    | cons hk h =>
      cases h with
      | cons _ h => exact .cons hk (ih h)

/-- Keys without variables are put together again one by one. -/
theorem Replaced.keysOf_eq {es : List (Term × Term)} (h : Replaced R (map es) u)
    (hes : ∀ k ∈ keysOf es, k.Closed) :
    ∃ fs, u = map fs ∧ keysOf fs = (keysOf es).map (Term.subst .var) := by
  obtain ⟨us, rfl, hus⟩ := h.members rfl
  refine ⟨pairUp us, rfl, ?_⟩
  have hkeys := forall₂_imp (fun k hk l hkl => (Replaced.of_closed hkl (hes k hk)).symm)
    (forall₂_keysOf_pairUp hus)
  have hmap : List.Forall₂ (· = ·) ((keysOf es).map (Term.subst .var)) (keysOf (pairUp us)) :=
    List.forall₂_map_left_iff.2 hkeys
  rw [List.forall₂_eq_eq_eq] at hmap
  exact hmap.symm

theorem headTest_hasLiteralKeys : HeadTest hasLiteralKeys := by
  refine ⟨fun _ => rfl, fun {R t u} ht h hp => ?_⟩
  cases t with
  | map es =>
    rw [hasLiteralKeys, Bool.and_eq_true, hasUniqueKeys_map, hasClosedKeys_map] at hp
    obtain ⟨hunique, hclosed⟩ := hp
    obtain ⟨fs, rfl, hfs⟩ := h.keysOf_eq hclosed
    rw [hasLiteralKeys, Bool.and_eq_true, hasUniqueKeys_map, hasClosedKeys_map, hfs]
    refine ⟨List.pairwise_map.2 (hunique.imp_of_mem fun hk hl hkl => ?_), ?_⟩
    · rwa [beq_subst_of_closed (hclosed _ hk) (hclosed _ hl)]
    · rw [List.forall_mem_map]
      exact fun k hk => (hclosed k hk).subst _
  | _ =>
    obtain ⟨us, rfl, -⟩ := h.members ht
    rfl

end Replaced

theorem keysOf_subst (σ : Variable → Term) (es : List (Term × Term)) :
    keysOf (es.map fun e => (e.1.subst σ, e.2.subst σ)) = (keysOf es).map (subst σ) := by
  simp [keysOf]

end Term

namespace Environment
open Term

/-- An instance has unique keys when what it is put together from has, and it makes no two keys of one
map equal. -/
theorem hasUniqueKeys_of_instantiate?_iff {env : Environment} {t i : Term}
    (hi : env.instantiate? t = some i) :
    i.Every hasUniqueKeys ↔ (∀ v, t.occurs v = true → (env.value v).Every hasUniqueKeys) ∧
      ∀ es, map es ∈ t.parts →
        (keysOf es).Pairwise fun k l => (k.subst env.value == l.subst env.value) = false := by
  obtain ⟨-, rfl⟩ := instantiate?_eq_some_iff.1 hi
  rw [every_subst_iff]
  refine and_congr_right fun _ => ⟨fun h es hes => ?_, fun h s hs hvar => ?_⟩
  · have hmap := h (map es) hes rfl
    rwa [subst_map, hasUniqueKeys_map, keysOf_subst, List.pairwise_map] at hmap
  · cases s with
    | var v => cases hvar
    | map es =>
      rw [subst_map, hasUniqueKeys_map, keysOf_subst, List.pairwise_map]
      exact h es hs
    | _ => simp [hasUniqueKeys]

end Environment

namespace Unifier
open Term Environment

/-- An instance has unique keys exactly when what is inserted has and no two keys of one map become equal. Keys
that hold no variables stay pairwise different under all that is done to terms: instantiation, renaming, walks
with a state whose callback returns such terms, and unification. -/
theorem literal_keys_kept (env : Environment) (t : Term) :
    (∀ i, env.instantiate? t = some i →
      (i.Every hasUniqueKeys ↔ (∀ v, t.occurs v = true → (env.value v).Every hasUniqueKeys) ∧
        ∀ es, map es ∈ t.parts →
          (keysOf es).Pairwise fun k l => (k.subst env.value == l.subst env.value) = false)) ∧
    (env.Every hasLiteralKeys → t.Every hasLiteralKeys →
      (∀ i, env.instantiate? t = some i → i.Every hasLiteralKeys) ∧
      (∀ names r s, env.rename? names t = some (r, s) →
        r.Every hasLiteralKeys ∧ s.env.Every hasLiteralKeys) ∧
      (∀ (S : Type) (f : Variable → StateT S Option Term),
        (∀ v s x s', (f v).run s = some (x, s') → x.Every hasLiteralKeys) →
        ∀ s r s', (t.traverse f).run s = some (r, s') → r.Every hasLiteralKeys) ∧
      ∀ (u : Unifier) (b : Term) (e : Environment), b.Every hasLiteralKeys →
        (u.unify t b env).outcome = .done e → e.Every hasLiteralKeys) := by
  have hp := headTest_hasLiteralKeys
  refine ⟨fun i hi => hasUniqueKeys_of_instantiate?_iff hi, fun henv ht => ?_⟩
  refine ⟨fun i hi => henv.instantiate? hp ht hi, fun names r s hr => henv.rename? hp ht hr,
    fun S f hf s r s' hr => ?_, fun u b e hb he => ?_⟩
  · have hwalk := ht.traverse (I := fun _ => True) hp
      (fun v s x s' _ hx => ⟨hf v s x s' hx, trivial⟩) trivial hr
    exact hwalk.1
  · have hrun : Resolves u [(t, b)] env (.done e) := resolves_singleton_iff.2 ⟨he, by simp⟩
    exact hrun.every hp rfl henv (by simp [ht, hb])

/-- The map from f(:k), 1 and 2 to x, y and 3 is unified with one whose keys are f(:k), 1.0 and 2. The keys x and y
of another map hold variables, but what they stand for is different. -/
theorem literal_keys_kept_nested :
    let x : Variable := ⟨0⟩
    let y : Variable := ⟨1⟩
    let z : Variable := ⟨2⟩
    let k : Term := .compound "f" [.atom "k"]
    let inner (v : Term) : Term := .map [(.text "k", v), (.wildcard, .nil)]
    let env := ofList [(x, inner (.var y))]
    let t : Term := .map [(k, .var x), (.int 1, .var y), (.int 2, .int 3)]
    let one : Term := .scalar (.float ⟨0x3ff0000000000000⟩)
    let b : Term := .map [(k, .var z), (one, inner k), (.int 2, .wildcard)]
    let i : Term := .map [(k, inner (.var y)), (.int 1, .var y), (.int 2, .int 3)]
    let e := ofList [(x, inner (.var y)), (y, inner k), (z, inner (.var y))]
    let es := [(Term.var x, k), (.var y, .nil)]
    let j : Term := .map [(inner (.var y), k), (.var y, .nil)]
    env.Every hasLiteralKeys ∧ t.Every hasLiteralKeys ∧ b.Every hasLiteralKeys ∧
      env.instantiate? t = some i ∧ i.Every hasLiteralKeys ∧
      (plain.unify t b env).outcome = .done e ∧ e.Every hasLiteralKeys ∧
      ¬ (Term.map es).Every hasLiteralKeys ∧ env.instantiate? (.map es) = some j ∧ j.Every hasUniqueKeys := by
  intro x y z k inner env t one b i e es j
  have henv : env.Every hasLiteralKeys := by unfold Environment.Every; decide
  have ht : t.Every hasLiteralKeys := by unfold Term.Every; decide
  have hb : b.Every hasLiteralKeys := by unfold Term.Every; decide
  have hi : env.instantiate? t = some i := by decide
  have he : (plain.unify t b env).outcome = .done e := by decide
  have hes : ¬ (Term.map es).Every hasLiteralKeys := by unfold Term.Every; decide
  have hj : env.instantiate? (.map es) = some j := by decide
  obtain ⟨-, hkept⟩ := literal_keys_kept env t
  obtain ⟨hinst, -, -, hunify⟩ := hkept henv ht
  refine ⟨henv, ht, hb, hi, hinst i hi, he, hunify plain b e hb he, hes, hj, ?_⟩
  have hvalues : ∀ v ∈ (Term.map es).occurrences, (env.value v).Every hasUniqueKeys := by
    unfold Term.Every
    decide
  refine ((literal_keys_kept env (.map es)).1 j hj).2 ⟨fun v hv => hvalues v (mem_occurrences.2 hv), ?_⟩
  intro fs hfs
  obtain rfl : fs = es := by
    simpa [es, k, compound, atom, nil, Term.parts, partsList, partsEntries] using hfs
  decide

/-- Where x and y are bound to :k, the map from x and y to 1 and 2 has the key :k twice when it is
instantiated, renamed or bound; and so it has when a walk puts :k in place of each variable. -/
theorem unique_keys_lost :
    let x : Variable := ⟨0⟩
    let y : Variable := ⟨1⟩
    let z : Variable := ⟨2⟩
    let names := Names.ofNames ["x", "y", "z"]
    let env := ofList [(x, .atom "k"), (y, .atom "k")]
    let t : Term := .map [(.var x, .int 1), (.var y, .int 2)]
    let i : Term := .map [(.atom "k", .int 1), (.atom "k", .int 2)]
    env.Acyclic ∧ env.Every hasUniqueKeys ∧ t.Every hasUniqueKeys ∧ i.hasUniqueKeys = false ∧
      env.instantiate? t = some i ∧ env.rename? names t = some (i, Renaming.start names env) ∧
      Id.run (t.traverse fun _ => pure (.atom "k")) = i ∧
      ((plain.withOccursCheck true).unify (.var z) t env).outcome = .done (env.set z i) := by
  intro x y z names env t i
  have henv : ((ofList [(x, .atom "k")]).set y (.atom "k")).Acyclic :=
    (acyclic_single rfl).set fun w hw => by simp [Term.atom] at hw
  exact ⟨henv, by unfold Environment.Every; decide, by unfold Term.Every; decide, by decide,
    by decide, by decide, by decide, by decide⟩

end Unifier

end TermUnification
