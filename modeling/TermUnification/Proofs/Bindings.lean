import TermUnification.Proofs.Equivariance
import TermUnification.Proofs.LastWrite
import TermUnification.Proofs.Wildcard

/-! Lists of bindings. Those to the wildcard are left out, and of several bindings of one variable the last one
counts. So an environment comes back from its own bindings, in whatever order they are given. A hash table that
keeps the same bindings lists them in an order of its own; sorted by variable, they are those of the environment. -/
namespace TermUnification

namespace Environment
open Term

/-- The term of the last binding of a variable in a list, bindings to the wildcard apart. -/
def lastOf? (v : Variable) (bs : List Binding) : Option Term :=
  (bs.filter fun b => b.1 = v && !b.2.isWildcard).getLast?.map Prod.snd

section LastOf

variable {env : Environment} {v : Variable} {t : Term} {bs cs : List Binding}

theorem mem_of_lastOf?_eq_some (h : lastOf? v bs = some t) : (v, t) ∈ bs := by
  obtain ⟨b, hb, rfl⟩ := Option.map_eq_some_iff.1 h
  obtain ⟨hmem, hvar⟩ := List.mem_filter.1 (List.mem_of_getLast? hb)
  simp only [Bool.and_eq_true, decide_eq_true_eq] at hvar
  exact hvar.1 ▸ hmem

theorem lastOf?_eq_none_iff : lastOf? v bs = none ↔ ∀ t, (v, t) ∈ bs → t.isWildcard = true := by
  rw [lastOf?, Option.map_eq_none_iff, List.getLast?_eq_none_iff, List.filter_eq_nil_iff]
  constructor
  · intro h t ht
    simpa using h (v, t) ht
  · rintro h ⟨w, t⟩ hb hw
    simp only [Bool.and_eq_true, decide_eq_true_eq] at hw
    obtain ⟨rfl, ht⟩ := hw
    simp [h t hb] at ht

theorem lookup?_bind_eq (env : Environment) (b : Binding) (v : Variable) :
    (env.bind b.1 b.2).lookup? v =
      if (b.1 = v && !b.2.isWildcard) = true then some b.2 else env.lookup? v := by
  cases hw : b.2.isWildcard with
  | true => simp [bind, hw]
  | false =>
    rw [lookup?_bind hw]
    simp [eq_comm]

theorem lookup?_extend (env : Environment) (bs : List Binding) (v : Variable) :
    (env.extend bs).lookup? v = (lastOf? v bs).or (env.lookup? v) :=
  foldl_last_write_of_filter (fun e : Environment => e.lookup? v) (fun e b => lookup?_bind_eq e b v) env bs

theorem lookup?_ofList (bs : List Binding) (v : Variable) : (ofList bs).lookup? v = lastOf? v bs := by
  rw [ofList, lookup?_extend, lookup?_empty, Option.or_none]

theorem ofList_eq_iff : ofList bs = ofList cs ↔ ∀ v, lastOf? v bs = lastOf? v cs := by
  constructor
  · intro h v
    rw [← lookup?_ofList, h, lookup?_ofList]
  · intro h
    refine ext_lookup? fun v => ?_
    rw [lookup?_ofList, lookup?_ofList, h]

/-- An environment binds each variable once, so the order in which its bindings are given is of no account. -/
theorem lastOf?_of_perm (henv : env.BindsNoWildcard) (h : bs.Perm env.bindings) (v : Variable) :
    lastOf? v bs = env.lookup? v := by
  have hmem (t : Term) : (v, t) ∈ bs ↔ env.lookup? v = some t := h.mem_iff.trans lookup?_eq_some_iff.symm
  cases hlast : lastOf? v bs with
  | some t => exact ((hmem t).1 (mem_of_lastOf?_eq_some hlast)).symm
  | none =>
    cases hv : env.lookup? v with
    | none => rfl
    | some t =>
      have ht : t = wildcard := isWildcard_iff.1 (lastOf?_eq_none_iff.1 hlast t ((hmem t).2 hv))
      exact absurd (ht ▸ hv) (henv v)

theorem ofList_of_perm (henv : env.BindsNoWildcard) (h : bs.Perm env.bindings) : ofList bs = env :=
  ext_lookup? fun v => (lookup?_ofList bs v).trans (lastOf?_of_perm henv h v)

end LastOf

end Environment

/-- A hash table in which terms are kept under variables. -/
abbrev Table := Std.HashMap Variable Term

namespace Table
open Environment

/-- Puts in the bindings of a list, in order, those to the wildcard left out. -/
def extend (table : Table) (bs : List Binding) : Table :=
  table.insertMany (bs.filter fun b => !b.2.isWildcard)

/-- Does the first of two bindings come no later, by the order of the variables? -/
def inOrder (a b : Binding) : Bool := (a.1.compare b.1).isLE

/-- The bindings in the order of the variables, whatever the order in which the table lists them. -/
def sorted (table : Table) : List Binding := table.toList.mergeSort inOrder

/-- Does the table keep the bindings of the environment? -/
def Holds (table : Table) (env : Environment) : Prop := ∀ v, table[v]? = env.lookup? v

theorem holds_empty : Holds ∅ empty := fun v => by simp

section Holds

variable {table : Table} {env : Environment}

theorem Holds.insert (h : table.Holds env) (v : Variable) (t : Term) : Holds (table.insert v t) (env.set v t) := by
  intro w
  rw [Std.HashMap.getElem?_insert, lookup?_set, h w]
  by_cases hwv : w = v
  · simp [hwv]
  · rw [if_neg hwv, if_neg (by simpa using Ne.symm hwv)]

theorem Holds.extend (h : table.Holds env) (bs : List Binding) : (table.extend bs).Holds (env.extend bs) := by
  induction bs generalizing table env with
  | nil => exact h
  | cons b bs ih =>
    obtain ⟨v, t⟩ := b
    rw [extend_cons, Table.extend]
    cases ht : t.isWildcard with
    | true =>
      rw [List.filter_cons_of_neg (by simp [ht]), Environment.bind, if_pos ht]
      exact ih h
    | false =>
      rw [List.filter_cons_of_pos (by simp [ht]), Environment.bind, if_neg (by simp [ht]),
        Std.HashMap.insertMany_cons]
      exact ih (h.insert v t)

theorem Holds.perm (h : table.Holds env) : table.toList.Perm env.bindings := by
  refine (List.perm_ext_iff_of_nodup ?_ ?_).2 fun ⟨v, t⟩ => ?_
  · exact table.distinct_keys_toList.imp fun hne he => by simp [he] at hne
  · refine env.increasing.imp fun {a b} hlt he => ?_
    subst he
    exact Nat.lt_irrefl _ hlt
  · rw [Std.HashMap.mem_toList_iff_getElem?_eq_some, h v, lookup?_eq_some_iff]

theorem inOrder_iff {a b : Binding} : inOrder a b = true ↔ a.1.id ≤ b.1.id := Nat.isLE_compare

theorem pairwise_sorted (table : Table) : table.sorted.Pairwise fun a b => a.1.id ≤ b.1.id := by
  have htrans : ∀ a b c, inOrder a b = true → inOrder b c = true → inOrder a c = true := by
    simp only [inOrder_iff]
    exact fun a b c => Nat.le_trans
  have htotal : ∀ a b, (inOrder a b || inOrder b a) = true := by
    simp only [Bool.or_eq_true, inOrder_iff]
    exact fun a b => Nat.le_total _ _
  exact (List.pairwise_mergeSort htrans htotal table.toList).imp inOrder_iff.1

theorem Holds.sorted_eq (h : table.Holds env) : table.sorted = env.bindings := by
  have hperm : table.sorted.Perm env.bindings := (List.mergeSort_perm _ _).trans h.perm
  have hbindings : env.bindings.Pairwise fun a b => a.1.id ≤ b.1.id := env.increasing.imp Nat.le_of_lt
  refine hperm.eq_of_pairwise (fun a b ha hb hab hba => ?_) (pairwise_sorted table) hbindings
  have hvar : a.1 = b.1 := congrArg Variable.mk (Nat.le_antisymm hab hba)
  have hterms : some a.2 = some b.2 := by
    rw [← lookup?_eq_some_iff.2 (hperm.mem_iff.1 ha), ← lookup?_eq_some_iff.2 hb, hvar]
  exact Prod.ext hvar (Option.some.inj hterms)

theorem Holds.size_eq (h : table.Holds env) : table.size = env.size := by
  rw [← Std.HashMap.length_toList, h.perm.length_eq, Environment.size]

end Holds

end Table

namespace Environment

/-- Of the bindings of one variable in a list the last one counts, and one to the wildcard does nothing. Lists that
agree on what counts make the same environment, and two lists in turn are one. A hash table that goes through the
same steps keeps the same bindings, as it turns out when they are sorted. An environment that any operations come
to has each of its bindings once, in the order of the variables, and comes back from them in whatever order. -/
theorem extend_last_counts (env : Environment) :
    (∀ bs v, (env.extend bs).lookup? v = (lastOf? v bs).or (env.lookup? v)) ∧
    (∀ bs cs, (env.extend bs).extend cs = env.extend (bs ++ cs)) ∧
    (∀ v t, env.bind v t = env.extend [(v, t)]) ∧ (∀ bs, ofList bs = empty.extend bs) ∧
    (∀ bs cs, ofList bs = ofList cs ↔ ∀ v, lastOf? v bs = lastOf? v cs) ∧
    (∀ bs, (Table.extend ∅ bs).Holds (ofList bs)) ∧
    (∀ table : Table, table.Holds env → (∀ bs, (table.extend bs).Holds (env.extend bs)) ∧
      table.sorted = env.bindings ∧ table.size = env.size) ∧
    (env.Built → (env.bindings.Pairwise fun a b => a.1 < b.1) ∧
      (∀ v t, (v, t) ∈ env.bindings ↔ env.lookup? v = some t) ∧ env.size = env.domain.card ∧
      ∀ bs, bs.Perm env.bindings → ofList bs = env) := by
  refine ⟨lookup?_extend env, fun bs cs => (extend_append env bs cs).symm, fun v t => rfl, fun bs => rfl,
    fun bs cs => ofList_eq_iff, Table.holds_empty.extend,
    fun table h => ⟨h.extend, h.sorted_eq, h.size_eq⟩, fun h => ?_⟩
  exact ⟨env.increasing, fun v t => lookup?_eq_some_iff.symm, env.card_domain.symm,
    fun bs => ofList_of_perm h.bindsNoWildcard⟩

/-- The variables x and z are bound twice, and later to the wildcard as y is, which keeps the term it had. -/
theorem extend_last_counts_repeated :
    let x : Variable := ⟨0⟩
    let y : Variable := ⟨1⟩
    let z : Variable := ⟨2⟩
    let env := ofList [(y, .int 2)]
    let bs : List Binding := [(z, .nil), (y, .wildcard), (x, .var z), (z, .seq [.wildcard]), (x, .int 1),
      (x, .wildcard), (z, .wildcard)]
    let e := env.extend bs
    let table := Table.extend ∅ [(y, .int 2)]
    table.Holds env ∧ (table.extend bs).Holds e ∧ table.sorted = env.bindings ∧ table.size = env.size ∧
      e.lookup? x = some (.int 1) ∧ e.lookup? y = some (.int 2) ∧ e.lookup? z = some (.seq [.wildcard]) ∧
      e.Built ∧ e.size = 3 ∧ e.domain.card = 3 ∧
      e.bindings = [(x, .int 1), (y, .int 2), (z, .seq [.wildcard])] ∧
      (e.bindings.Pairwise fun a b => a.1 < b.1) ∧
      [(z, .seq [.wildcard]), (y, .int 2), (x, .int 1)].Perm e.bindings ∧
      ofList [(z, .seq [.wildcard]), (y, .int 2), (x, .int 1)] = e := by
  intro x y z env bs e table
  obtain ⟨hlookup, -, -, -, -, hmade, htable, -⟩ := extend_last_counts env
  obtain ⟨-, -, -, -, -, -, -, hbuilt⟩ := extend_last_counts e
  have hholds : table.Holds env := hmade _
  have he : e.Built := (Built.ofList _).extend bs
  obtain ⟨hextend, hsorted, hsize⟩ := htable table hholds
  obtain ⟨hincreasing, -, hcard, hagain⟩ := hbuilt he
  have hbindings : e.bindings = [(x, .int 1), (y, .int 2), (z, .seq [.wildcard])] := by decide
  have hperm : [(z, Term.seq [.wildcard]), (y, .int 2), (x, .int 1)].Perm e.bindings := by
    rw [hbindings]
    exact (List.reverse_perm _).symm
  refine ⟨hholds, hextend bs, hsorted, hsize, ?_, ?_, ?_, he, by decide, by rw [← hcard]; decide, hbindings,
    hincreasing, hperm, hagain _ hperm⟩
  all_goals rw [hlookup]; decide

end Environment

end TermUnification
