import TermUnification.Environment.Rename
import TermUnification.Proofs.Replacement
import TermUnification.Proofs.Run

/-! The parts that a term holds, and tests that look at each part. Instantiation, renaming and
unification put terms together from parts that were there before. -/
namespace TermUnification

namespace Term

mutual

/-- The term itself and everything inside it. -/
def parts : Term → List Term
  | var v => [var v]
  | wildcard => [wildcard]
  | scalar s => [scalar s]
  | seq ts => seq ts :: partsList ts
  | map es => map es :: partsEntries es
  | composite l ts => composite l ts :: partsList ts

def partsList : List Term → List Term
  | [] => []
  | t :: ts => parts t ++ partsList ts

def partsEntries : List (Term × Term) → List Term
  | [] => []
  | (k, x) :: es => parts k ++ (parts x ++ partsEntries es)

end

theorem partsList_eq (ts : List Term) : partsList ts = ts.flatMap parts := by
  induction ts with
  | nil => rfl
  | cons t ts ih => simp [partsList, ih]

theorem partsEntries_eq (es : List (Term × Term)) :
    partsEntries es = (interleave es).flatMap parts := by
  induction es with
  | nil => rfl
  | cons e es ih => obtain ⟨k, x⟩ := e; simp [partsEntries, ih]

theorem parts_eq (t : Term) : t.parts = t :: t.members.flatMap parts := by
  cases t <;> simp [parts, partsList_eq, partsEntries_eq]

theorem mem_parts_self (t : Term) : t ∈ t.parts := by
  rw [parts_eq]
  exact List.mem_cons_self

theorem mem_parts_of_member {s m t : Term} (hm : m ∈ t.members) (hs : s ∈ m.parts) :
    s ∈ t.parts := by
  rw [parts_eq]
  exact List.mem_cons_of_mem _ (List.mem_flatMap.2 ⟨m, hm, hs⟩)

/-- A value that is no number. -/
def isNaN : Term → Bool
  | scalar s => s.isNaN
  | _ => false

/-- Is the term anything but a value that is no number? -/
def notNaN (t : Term) : Bool := !t.isNaN

def isInt : Term → Bool
  | scalar (.int _) => true
  | _ => false

def isFloat : Term → Bool
  | scalar (.float _) => true
  | _ => false

/-- Does a composite state as many arguments as it has? -/
def hasTrueArity : Term → Bool
  | composite l ts => decide (l.arity ts.length = ts.length)
  | _ => true

theorem length_interleave (es : List (Term × Term)) : (interleave es).length = 2 * es.length := by
  induction es with
  | nil => rfl
  | cons e es ih =>
    rw [interleave_cons, List.length_cons, List.length_cons, ih, List.length_cons]
    omega

/-- Terms that state their true arities have one arity when they have as many members. -/
theorem sameArity_iff {a b : Term} (h : Alike a b) (ha : a.hasTrueArity = true)
    (hb : b.hasTrueArity = true) : SameArity a b ↔ a.members.length = b.members.length := by
  cases a <;> cases b <;> simp only [Alike] at h
  case seq.seq => exact Iff.rfl
  case map.map =>
    simp only [SameArity, members_map, length_interleave]
    omega
  case composite.composite =>
    simp only [hasTrueArity, decide_eq_true_eq] at ha hb
    simp only [SameArity, members_composite, ha, hb]

/-- A test of terms that goes on to hold when other terms are put in place of the variables inside. -/
structure HeadTest (p : Term → Bool) : Prop where
  var : ∀ v, p (var v) = true
  replaced : ∀ {R : Variable → Term → Prop} {t u : Term}, t.isVar = false → Replaced R t u →
    p t = true → p u = true

/-- A test that depends on the head and the number of members only. -/
theorem headTest_of_withMembers {p : Term → Bool} (hvar : ∀ v, p (var v) = true)
    (hnode : ∀ t us, t.isVar = false → us.length = t.members.length → p t = true →
      p (t.withMembers us) = true) : HeadTest p := by
  refine ⟨hvar, fun {R t u} ht h hp => ?_⟩
  obtain ⟨us, rfl, hus⟩ := h.members ht
  exact hnode t us ht hus.length_eq.symm hp

/-- Does the test hold of every part? -/
def Every (p : Term → Bool) (t : Term) : Prop := ∀ s ∈ t.parts, p s = true

theorem Every.head {p : Term → Bool} {t : Term} (h : t.Every p) : p t = true :=
  h t t.mem_parts_self

theorem Every.member {p : Term → Bool} {t m : Term} (h : t.Every p) (hm : m ∈ t.members) :
    m.Every p := fun s hs => h s (mem_parts_of_member hm hs)

theorem every_iff {p : Term → Bool} {t : Term} :
    t.Every p ↔ p t = true ∧ ∀ m ∈ t.members, m.Every p := by
  constructor
  · intro h
    exact ⟨h.head, fun m hm => h.member hm⟩
  · rintro ⟨ht, hm⟩ s hs
    rw [parts_eq] at hs
    rcases List.mem_cons.1 hs with rfl | hs
    · exact ht
    · obtain ⟨m, hmt, hsm⟩ := List.mem_flatMap.1 hs
      exact hm m hmt s hsm

theorem Every.replaced {p : Term → Bool} (hp : HeadTest p) {R : Variable → Term → Prop}
    {t u : Term} (ht : t.Every p) (h : Replaced R t u)
    (hR : ∀ v x, t.occurs v = true → R v x → x.Every p) : u.Every p := by
  induction t using nodeInduction generalizing u with
  | var v => exact hR v u (by simp) h.of_var
  | node t hvar ih =>
    refine every_iff.2 ⟨hp.replaced hvar h ht.head, fun x hx => ?_⟩
    obtain ⟨us, rfl, hus⟩ := h.members hvar
    rw [members_withMembers hvar hus.length_eq.symm] at hx
    obtain ⟨m, hm, hmx⟩ := exists_of_forall₂ hus hx
    exact ih m hm (ht.member hm) hmx fun v y hv => hR v y (occurs_of_member hm hv)

theorem Every.subst {p : Term → Bool} (hp : HeadTest p) {σ : Variable → Term} {t : Term}
    (h : t.Every p) (hσ : ∀ v, t.occurs v = true → (σ v).Every p) : (t.subst σ).Every p :=
  h.replaced hp (replaced_subst σ t) fun v _ hv hx => hx ▸ hσ v hv

/-- A walk puts what its callback returns in place of the variables. -/
theorem Every.traverse {p : Term → Bool} (hp : HeadTest p) {S : Type}
    {f : Variable → StateT S Option Term} {I : S → Prop}
    (hf : ∀ v s x s', I s → (f v).run s = some (x, s') → x.Every p ∧ I s') {t u : Term}
    (ht : t.Every p) {s s' : S} (hs : I s) (h : (t.traverse f).run s = some (u, s')) :
    u.Every p ∧ I s' := by
  obtain ⟨hrep, hs'⟩ := replaced_of_traverse (R := fun _ x => x.Every p) hf hs h
  exact ⟨ht.replaced hp hrep fun _ _ _ hx => hx, hs'⟩

/-- What a test says of the parts of an instance. -/
theorem every_subst_iff {p : Term → Bool} {σ : Variable → Term} {t : Term} :
    (t.subst σ).Every p ↔ (∀ v, t.occurs v = true → (σ v).Every p) ∧
      ∀ s ∈ t.parts, s.isVar = false → p (s.subst σ) = true := by
  induction t using nodeInduction with
  | var v => simp [parts, isVar]
  | node t ht ih =>
    rw [every_iff, members_subst σ ht, List.forall_mem_map, parts_eq, List.forall_mem_cons]
    constructor
    · rintro ⟨hhead, hmembers⟩
      have hall := fun m hm => (ih m hm).1 (hmembers m hm)
      refine ⟨fun v hv => ?_, fun _ => hhead, fun s hs => ?_⟩
      · obtain ⟨m, hm, hmv⟩ := (occurs_node ht v).1 hv
        exact (hall m hm).1 v hmv
      · obtain ⟨m, hm, hsm⟩ := List.mem_flatMap.1 hs
        exact (hall m hm).2 s hsm
    · rintro ⟨hvars, hhead, hparts⟩
      refine ⟨hhead ht, fun m hm => (ih m hm).2 ⟨fun v hv => ?_, fun s hs => ?_⟩⟩
      · exact hvars v (occurs_of_member hm hv)
      · exact hparts s (List.mem_flatMap.2 ⟨m, hm, hs⟩)

theorem Every.imp {p q : Term → Bool} {t : Term} (h : t.Every p) (hpq : ∀ s, p s = true → q s = true) :
    t.Every q := fun s hs => hpq s (h s hs)

theorem every_notNaN_iff {t : Term} : t.Every notNaN ↔ ∀ s ∈ t.parts, s.isNaN = false := by
  simp [Every, notNaN]

theorem headTest_notNaN : HeadTest notNaN :=
  headTest_of_withMembers (fun _ => rfl) fun t us ht _ h => by
    cases t <;> simp_all [isVar, notNaN, isNaN, withMembers]

theorem headTest_hasTrueArity : HeadTest hasTrueArity :=
  headTest_of_withMembers (fun _ => rfl) fun t us ht hlen h => by
    cases t <;> simp_all [isVar, hasTrueArity, withMembers]

section Compared

variable {p : Term → Bool} {a b : Term} (ha : a.Every p) (hb : b.Every p)

include ha hb

theorem Every.assigned {v : Variable} {t : Term} (step : Step.between a b = .assign v t) :
    t.Every p := by
  obtain ⟨⟨-, rfl⟩ | ⟨rfl, -⟩, -, -⟩ := Step.between_assign step
  · exact hb
  · exact ha

theorem Every.pairs {qs : List (Term × Term)} (step : Step.between a b = .members qs) :
    ∀ q ∈ qs, q.1.Every p ∧ q.2.Every p := by
  obtain ⟨-, -, rfl⟩ := Step.between_members step
  intro q hq
  obtain ⟨h1, h2⟩ := List.of_mem_zip hq
  exact ⟨ha.member h1, hb.member h2⟩

end Compared

end Term

namespace Environment
open Term

/-- Everything that the bound terms hold. -/
def parts (env : Environment) : List Term := env.bindings.flatMap fun b => b.2.parts

theorem mem_parts {env : Environment} {s : Term} :
    s ∈ env.parts ↔ ∃ v t, env.lookup? v = some t ∧ s ∈ t.parts := by
  simp [parts, lookup?_eq_some_iff]

/-- Does the test hold of every part of the bound terms? -/
def Every (p : Term → Bool) (env : Environment) : Prop := ∀ s ∈ env.parts, p s = true

theorem Every.lookup? {p : Term → Bool} {env : Environment} (h : env.Every p) {v : Variable}
    {t : Term} (hv : env.lookup? v = some t) : t.Every p :=
  fun s hs => h s (mem_parts.2 ⟨v, t, hv, hs⟩)

theorem Every.set {p : Term → Bool} {env : Environment} (h : env.Every p) {v : Variable}
    {t : Term} (ht : t.Every p) : (env.set v t).Every p := by
  intro s hs
  obtain ⟨w, u, hw, hsu⟩ := mem_parts.1 hs
  rcases lookup?_set_cases hw with ⟨-, rfl⟩ | hold
  · exact ht s hsu
  · exact h.lookup? hold s hsu

theorem Every.value {p : Term → Bool} (hp : HeadTest p) {env : Environment} (h : env.Every p)
    {v : Variable} (hv : env.Ends v) : (env.value v).Every p := by
  induction hv using Ends.induction with
  | step v hends ih =>
    cases hv : env.lookup? v with
    | none =>
      rw [value_of_fresh hv]
      exact every_iff.2 ⟨hp.var v, by simp⟩
    | some t =>
      rw [value_of_ends hends hv]
      exact (h.lookup? hv).subst hp fun w hw => ih w ⟨t, hv, hw⟩

theorem Every.instantiate? {p : Term → Bool} (hp : HeadTest p) {env : Environment}
    (h : env.Every p) {t i : Term} (ht : t.Every p) (hi : env.instantiate? t = some i) :
    i.Every p := by
  obtain ⟨hends, rfl⟩ := instantiate?_eq_some_iff.1 hi
  exact ht.subst hp fun v hv => h.value hp (hends v hv)

theorem Every.subst_value {p : Term → Bool} (hp : HeadTest p) {env : Environment}
    (henv : env.Acyclic) (h : env.Every p) {t : Term} (ht : t.Every p) :
    (t.subst env.value).Every p := h.instantiate? hp ht (henv.instantiate?_eq t)

theorem every_replace {p : Term → Bool} (hp : HeadTest p) {v : Variable} {r r' : Renaming}
    {x : Term} (hr : r.env.Every p) (h : (Renaming.replace v).run r = some (x, r')) :
    x.Every p ∧ r'.env.Every p := by
  have hvar (w : Variable) : (Term.var w).Every p := every_iff.2 ⟨hp.var w, by simp⟩
  simp only [Renaming.replace, StateT.run] at h
  split at h
  · next t hv =>
    obtain ⟨i, hi, he⟩ := Option.map_eq_some_iff.1 h
    obtain ⟨rfl, rfl⟩ := Prod.mk.inj he
    exact ⟨hr.instantiate? hp (hr.lookup? hv) hi, hr⟩
  · obtain ⟨rfl, rfl⟩ := Prod.mk.inj (Option.some.inj h)
    exact ⟨hvar _, hr.set (hvar _)⟩

theorem Every.rename? {p : Term → Bool} (hp : HeadTest p) {env : Environment} (h : env.Every p)
    {t r : Term} (ht : t.Every p) {names : Names} {s : Renaming}
    (hr : env.rename? names t = some (r, s)) : r.Every p ∧ s.env.Every p :=
  ht.traverse (I := fun r => r.env.Every p) hp (fun _ _ _ _ hr hx => every_replace hp hr hx) h hr

end Environment

namespace Unifier
open Term Environment

/-- Every such test that holds of the operands and of the bound terms goes on to hold of all that
unification binds. -/
theorem Resolves.every {p : Term → Bool} (hp : HeadTest p) {u : Unifier}
    {ps : List (Term × Term)} {env e : Environment} {out : Outcome Environment}
    (h : Resolves u ps env out) (hout : out = .done e) (henv : env.Every p)
    (hps : ∀ q ∈ ps, q.1.Every p ∧ q.2.Every p) : e.Every p := by
  induction h with
  | nil =>
    obtain rfl := Outcome.done.inj hout
    exact henv
  | settled _ _ _ _ ih => exact ih hout henv (List.forall_mem_cons.1 hps).2
  | assign hai hbi step _ _ ih =>
    obtain ⟨⟨ha, hb⟩, hrest⟩ := List.forall_mem_cons.1 hps
    rw [Step.bind_eq_set step] at ih
    refine ih hout (henv.set ?_) hrest
    exact (henv.instantiate? hp ha hai).assigned (henv.instantiate? hp hb hbi) step
  | members hai hbi step _ ih =>
    obtain ⟨⟨ha, hb⟩, hrest⟩ := List.forall_mem_cons.1 hps
    refine ih hout henv (List.forall_mem_append.2 ⟨?_, hrest⟩)
    exact (henv.instantiate? hp ha hai).pairs (henv.instantiate? hp hb hbi) step
  | occurs => cases hout
  | clash => cases hout

theorem Solves.every {p : Term → Bool} (hp : HeadTest p) {ps : List (Term × Term)}
    {env e : Environment} {out : Outcome Environment} (h : Solves ps env out)
    (hout : out = .done e) (henv : env.Every p)
    (hps : ∀ q ∈ ps, q.1.Every p ∧ q.2.Every p) : e.Every p :=
  h.resolves.every hp hout henv hps

end Unifier

end TermUnification
