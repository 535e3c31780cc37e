import TermUnification.Proofs.Locality
import TermUnification.Proofs.RenamingApart

/-! What a renaming leaves behind. An occurrence of a variable that is bound by then changes nothing, so all
that counts are the distinct fresh variables of the term, in the order of their first occurrences. For each
of them one variable is made and one binding added, and a second renaming of the term finds them all bound. -/
namespace TermUnification

/-- Induction over a list by taking away all occurrences of its first element. -/
theorem eraseDupsInduction {motive : List Variable → Prop} (nil : motive [])
    (cons : ∀ v vs, motive (vs.filter fun w => !w == v) → motive (v :: vs)) (vs : List Variable) :
    motive vs := by
  induction hn : vs.length using Nat.strong_induction_on generalizing vs with
  | _ n ih =>
    cases vs with
    | nil => exact nil
    | cons v vs =>
      refine cons v vs (ih _ ?_ _ rfl)
      rw [← hn]
      exact Nat.lt_succ_of_le (List.length_filter_le _ vs)

theorem nodup_eraseDups (vs : List Variable) : vs.eraseDups.Nodup := by
  induction vs using eraseDupsInduction with
  | nil => exact List.nodup_nil
  | cons v vs ih =>
    rw [List.eraseDups_cons]
    exact List.nodup_cons.2 ⟨by simp, ih⟩

namespace Environment
open Term

/-- The distinct fresh variables that occur in a term itself, in the order of their first occurrences. -/
def freshIn (env : Environment) (t : Term) : List Variable := t.vars.filter env.isFresh

theorem mem_freshIn {env : Environment} {t : Term} {v : Variable} :
    v ∈ env.freshIn t ↔ t.occurs v = true ∧ env.isFresh v = true := by
  rw [freshIn, List.mem_filter, mem_vars]

theorem nodup_freshIn (env : Environment) (t : Term) : (env.freshIn t).Nodup :=
  (nodup_eraseDups t.occurrences).filter _

theorem isFresh_eq_false_iff {env : Environment} {v : Variable} :
    env.isFresh v = false ↔ ∃ t, env.lookup? v = some t := by
  rw [isFresh, Option.isNone_eq_false_iff, Option.isSome_iff_exists]

theorem Extends.isFresh_eq_false {d e : Environment} (h : e.Extends d) {v : Variable}
    (hv : d.isFresh v = false) : e.isFresh v = false :=
  Bool.eq_false_iff.2 fun he => Bool.eq_false_iff.1 hv (h.isFresh he)

end Environment

namespace Renaming
open Term Environment

section Occurrences

variable {r : Renaming} {v : Variable} {vs : List Variable}

theorem see_of_not_fresh (h : r.env.isFresh v = false) : r.see v = r := by
  obtain ⟨t, ht⟩ := isFresh_eq_false_iff.1 h
  exact see_of_bound ht

theorem isFresh_see (r : Renaming) (v : Variable) : (r.see v).env.isFresh v = false := by
  cases hv : r.env.lookup? v with
  | some t => simp [see_of_bound hv, isFresh, hv]
  | none => simp [see_of_fresh hv, isFresh]

theorem isFresh_seeAll (hv : v ∈ vs) : (r.seeAll vs).env.isFresh v = false := by
  obtain ⟨before, after, rfl⟩ := List.append_of_mem hv
  rw [seeAll_append, seeAll_cons]
  exact (extends_seeAll _ after).isFresh_eq_false (isFresh_see _ v)

/-- Occurrences of bound variables can be left out. -/
theorem seeAll_filter {p : Variable → Bool} (h : ∀ v, p v = false → r.env.isFresh v = false) :
    r.seeAll (vs.filter p) = r.seeAll vs := by
  induction vs generalizing r with
  | nil => rfl
  | cons v vs ih =>
    cases hp : p v with
    | true =>
      rw [List.filter_cons_of_pos hp, seeAll_cons, seeAll_cons]
      exact ih fun w hw => (extends_see r v).isFresh_eq_false (h w hw)
    | false => rw [List.filter_cons_of_neg (by simp [hp]), seeAll_cons, see_of_not_fresh (h v hp), ih h]

/-- The first occurrence of a variable binds it, so the others can be left out. -/
theorem seeAll_eraseDups (r : Renaming) (vs : List Variable) : r.seeAll vs.eraseDups = r.seeAll vs := by
  induction vs using eraseDupsInduction generalizing r with
  | nil => rfl
  | cons v vs ih =>
    rw [List.eraseDups_cons, seeAll_cons, seeAll_cons, ih, seeAll_filter]
    intro w hw
    obtain rfl : w = v := by simpa using hw
    exact isFresh_see r w

theorem seeAll_freshIn (r : Renaming) (t : Term) :
    r.seeAll (r.env.freshIn t) = r.seeAll t.occurrences := by
  rw [freshIn, vars, seeAll_filter fun v hv => hv, seeAll_eraseDups]

theorem seeAll_of_not_fresh (h : ∀ v ∈ vs, r.env.isFresh v = false) : r.seeAll vs = r := by
  induction vs with
  | nil => rfl
  | cons v vs ih =>
    obtain ⟨hv, hvs⟩ := List.forall_mem_cons.1 h
    rw [seeAll_cons, see_of_not_fresh hv, ih hvs]

end Occurrences

/-- From the first state to the second one variable is made for each listed one, in the order of the list,
and the listed one is bound to it. -/
structure Makes (r : Renaming) (vs : List Variable) (ρ : Variable → Variable) (s : Renaming) : Prop where
  made : s.made = r.made ++ vs.map fun v => (v, ρ v)
  inOrder : vs.map ρ = (List.range' r.names.given.size vs.length).map Variable.mk
  size : s.names.given.size = r.names.given.size + vs.length
  added : r.env.AddsExactly (vs.map fun v => (v, .var (ρ v))) s.env

theorem makes_nil (r : Renaming) (ρ : Variable → Variable) : r.Makes [] ρ r :=
  ⟨by simp, by simp, by simp, addsExactly_nil _⟩

theorem Makes.cons {r s : Renaming} {v : Variable} {vs : List Variable} {ρ : Variable → Variable}
    (hv : r.env.lookup? v = none) (hnext : ρ v = r.names.next) (h : (r.see v).Makes vs ρ s) :
    r.Makes (v :: vs) ρ s := by
  obtain ⟨made, inOrder, size, added⟩ := h
  rw [see_of_fresh hv] at made inOrder size added
  have hsize : (r.names.renamed v).2.given.size = r.names.given.size + 1 := by
    simp [Names.renamed, Names.fresh]
  refine ⟨by simp [made, hnext], ?_, by simp [size, hsize]; omega, ?_⟩
  · rw [List.map_cons, inOrder, hnext, hsize, List.length_cons, List.range'_succ]
    rfl
  · rw [List.map_cons, hnext]
    exact added.cons hv

/-- Distinct fresh variables are dealt with one by one. -/
theorem makes_seeAll {r : Renaming} {vs : List Variable} (hvs : vs.Nodup)
    (hfresh : ∀ v ∈ vs, r.env.lookup? v = none) : r.Makes vs (r.seeAll vs).target (r.seeAll vs) := by
  induction vs generalizing r with
  | nil => exact makes_nil r _
  | cons v vs ih =>
    obtain ⟨hv, hvs⟩ := List.nodup_cons.1 hvs
    obtain ⟨hvfresh, hfresh⟩ := List.forall_mem_cons.1 hfresh
    have hnext : (r.seeAll (v :: vs)).target v = r.names.next :=
      target_eq (extends_seeAll _ vs v _ (by simp [see_of_fresh hvfresh]))
    refine .cons hvfresh hnext (ih hvs fun w hw => ?_)
    have hne : w ≠ v := fun he => hv (he ▸ hw)
    rw [lookup?_see_of_ne hne, hfresh w hw]

end Renaming

namespace Environment
open Renaming

/-- The effect of a renaming on the environment and on the table of names, with the new variables `ρ`. -/
structure RenamesExactly (env : Environment) (names : Names) (t : Term) (s : Renaming)
    (ρ : Variable → Variable) : Prop where
  made : s.made = (env.freshIn t).map fun v => (v, ρ v)
  /-- The new variables are the next ones that the table has to give, and it has given no others. -/
  inOrder : (env.freshIn t).map ρ =
    (List.range' names.given.size (env.freshIn t).length).map Variable.mk
  size : s.names.given.size = names.given.size + (env.freshIn t).length
  kept : names.Grows s.names
  new : ∀ v ∈ env.freshIn t, ¬ names.Known (ρ v) ∧ s.names.nameOf (ρ v) = names.nameOf v
  distinct : ((env.freshIn t).map ρ).Nodup
  added : env.AddsExactly ((env.freshIn t).map fun v => (v, .var (ρ v))) s.env
  acyclic : s.env.Acyclic
  /-- Every term stands for what it stood for before, with the new variables in it. -/
  instances : ∀ x, ∃ i, env.instantiate? x = some i ∧
    s.env.instantiate? x = some (i.subst (renamingOf ρ (env.freshIn t)))

end Environment

namespace Renaming.Sound
open Term Environment

variable {r : Renaming} (hr : r.Sound) {t u : Term} (hknown : ∀ v ∈ t.occurrences, r.names.Known v)

include hr hknown

theorem renamesExactly (hmade : r.made = []) :
    r.env.RenamesExactly r.names t (r.seeAll t.occurrences) (r.seeAll t.occurrences).target := by
  have hstate := r.seeAll_freshIn t
  have hlater : ∀ v ∈ r.env.freshIn t, r.names.Known v :=
    fun v hv => hknown v (mem_occurrences.2 (mem_freshIn.1 hv).1)
  have hmakes : r.Makes (r.env.freshIn t) (r.seeAll (r.env.freshIn t)).target _ :=
    makes_seeAll (r.env.nodup_freshIn t) fun v hv => isFresh_iff.1 (mem_freshIn.1 hv).2
  have hlast := hr.seeAll hknown
  rw [← hstate] at hlast ⊢
  constructor
  case made => simpa [hmade] using hmakes.made
  case inOrder => exact hmakes.inOrder
  case size => exact hmakes.size
  case kept => exact grows_seeAll r _
  case new =>
    intro v hv
    obtain ⟨hocc, hfresh⟩ := mem_freshIn.1 hv
    obtain ⟨hnew, hname, -⟩ := target_new hknown hocc hfresh
    rw [← hstate] at hnew hname
    exact ⟨hnew, hname⟩
  case distinct =>
    rw [hmakes.inOrder]
    exact List.Nodup.map (fun m n h => congrArg Variable.id h) List.nodup_range'
  case added => exact hmakes.added
  case acyclic => exact hlast.acyclic
  case instances =>
    intro x
    have hx := hr.subst_value_seeAll hlater x []
    rw [List.append_nil] at hx
    exact ⟨_, hr.acyclic.instantiate?_eq x, hx ▸ hlast.acyclic.instantiate?_eq x⟩

/-- Without bound variables in the term, the result is the term with the new variables in it, which is what the
term stands for from then on. -/
theorem eq_subst_of_fresh (hu : Replaced (r.ReplacedAt t.occurrences) t u)
    (hfresh : ∀ v, t.occurs v = true → r.env.isFresh v = true) :
    u = t.subst (r.seeAll t.occurrences).env.value ∧
      u = t.subst (renamingOf (r.seeAll t.occurrences).target (r.env.freshIn t)) := by
  have hnever : r.env.NeverAhead t := by
    intro before v after hocc w _ hlead
    have hv : r.env.isFresh v = true := hfresh v (mem_occurrences.1 (by simp [hocc]))
    simp [hlead.1] at hv
  have hlater : ∀ v ∈ r.env.freshIn t, r.names.Known v :=
    fun v hv => hknown v (mem_occurrences.2 (mem_freshIn.1 hv).1)
  have hvalue := hr.eq_subst_value hknown hu hnever
  have hrenamed := hr.subst_value_seeAll hlater t []
  rw [List.append_nil, seeAll_freshIn, subst_subst] at hrenamed
  refine ⟨hvalue, (hvalue.trans hrenamed).trans (subst_congr fun v hv => ?_)⟩
  rw [value_of_fresh (isFresh_iff.1 (hfresh v hv)), subst_var]

/-- A term whose variables are all bound is renamed to its instance, and nothing is made. -/
theorem run_of_not_fresh (hbound : ∀ v, t.occurs v = true → r.env.isFresh v = false) :
    (t.traverse replace).run r = some (t.subst r.env.value, r) := by
  obtain ⟨u, hu, hrep⟩ := hr.traverse_run hknown t [] [] (by simp)
  have hsee : ∀ vs : List Variable, (∀ v ∈ vs, v ∈ t.occurrences) → r.seeAll vs = r := fun vs hvs =>
    seeAll_of_not_fresh fun v hv => hbound v (mem_occurrences.1 (hvs v hv))
  have hvalue : u = t.subst r.env.value := by
    refine (hrep.imp fun v x _ hx => ?_).eq_subst
    obtain ⟨before, after, hocc, rfl⟩ := hx
    rw [hsee _ fun w hw => by rw [hocc]; exact List.mem_append_left _ hw]
  rwa [List.nil_append, hsee _ fun v hv => hv, hvalue] at hu

end Renaming.Sound

namespace Environment
open Term Renaming

/-- What a renaming adds: for each distinct fresh variable of the term, in the order of their first occurrences,
one new variable of the same name and one binding to it. Another renaming of the term adds nothing, and
gives what the term has come to stand for. Without bound variables in the term that is the renamed term,
and it is the term with the new variables in it. -/
theorem rename?_exactly (env : Environment) (henv : env.Acyclic) (names : Names)
    (hnames : env.KnownTo names) (t : Term) (ht : ∀ v, t.occurs v = true → names.Known v) :
    ∃ r s ρ, env.rename? names t = some (r, s) ∧ env.RenamesExactly names t s ρ ∧
      (∃ i, s.env.instantiate? t = some i ∧
        s.env.rename? s.names t = some (i, start s.names s.env)) ∧
      ((∀ v, t.occurs v = true → env.isFresh v = true) →
        r = t.subst (renamingOf ρ (env.freshIn t)) ∧ s.env.instantiate? t = some r ∧
          s.env.rename? s.names t = some (r, start s.names s.env)) := by
  have hr : (start names env).Sound := ⟨henv, hnames⟩
  have hknown : ∀ v ∈ t.occurrences, (start names env).names.Known v :=
    fun v hv => ht v (mem_occurrences.1 hv)
  obtain ⟨r, hrun, hrep⟩ := rename?_run hr hknown
  have hexact := hr.renamesExactly hknown rfl
  have hfree := hr.eq_subst_of_fresh hknown hrep
  have hlast := hr.seeAll hknown
  have hbound : ∀ v, t.occurs v = true →
      ((start names env).seeAll t.occurrences).env.isFresh v = false :=
    fun v hv => isFresh_seeAll (mem_occurrences.2 hv)
  generalize (start names env).seeAll t.occurrences = s at hrun hexact hfree hlast hbound
  have hagain : s.env.rename? s.names t = some (t.subst s.env.value, start s.names s.env) := by
    have hs : (start s.names s.env).Sound := ⟨hlast.acyclic, hlast.known⟩
    exact hs.run_of_not_fresh (fun v hv => hexact.kept.known v (hknown v hv)) hbound
  have hvalue := hlast.acyclic.instantiate?_eq t
  refine ⟨r, s, s.target, hrun, hexact, ⟨_, hvalue, hagain⟩, fun hfresh => ?_⟩
  obtain ⟨hinstance, hrenamed⟩ := hfree hfresh
  exact ⟨hrenamed, hinstance ▸ hvalue, hinstance ▸ hagain⟩

/-- The variable x is bound to f(y). In [z, x, y, z] the new variables are for z and y, in this order; the map
of z to [y, z] has no bound variables, and the new variables are the same. -/
theorem rename?_exactly_shared :
    let x : Variable := ⟨0⟩
    let y : Variable := ⟨1⟩
    let z : Variable := ⟨2⟩
    let z' : Variable := ⟨3⟩
    let y' : Variable := ⟨4⟩
    let names := Names.ofNames ["x", "y", "z"]
    let env := ofList [(x, .compound "f" [.var y])]
    let t : Term := .seq [.var z, .var x, .var y, .var z]
    let u : Term := .map [(.var z, .seq [.var y, .var z])]
    let tr : Term := .seq [.var z', .compound "f" [.var y], .var y', .var z']
    let ur : Term := .map [(.var z', .seq [.var y', .var z'])]
    let s : Renaming := ⟨Names.ofNames ["x", "y", "z", "z", "y"], (env.set z (.var z')).set y (.var y'),
      [(z, z'), (y, y')]⟩
    env.Acyclic ∧ env.KnownTo names ∧ (∀ v, t.occurs v = true → names.Known v) ∧
      (∀ v, u.occurs v = true → names.Known v ∧ env.isFresh v = true) ∧
      env.freshIn t = [z, y] ∧ s.names.nameOf z' = "z" ∧ s.names.nameOf y' = "y" ∧
      env.rename? names t = some (tr, s) ∧ env.rename? names u = some (ur, s) ∧
      (∃ ρ, ρ z = z' ∧ ρ y = y' ∧ env.RenamesExactly names t s ρ) ∧
      (∃ ρ, ρ z = z' ∧ ρ y = y' ∧ env.RenamesExactly names u s ρ ∧
        ur = u.subst (renamingOf ρ (env.freshIn u))) ∧
      s.env.instantiate? u = some ur ∧ s.env.rename? s.names u = some (ur, start s.names s.env) := by
  intro x y z z' y' names env t u tr ur s
  have henv : env.Acyclic := acyclic_single (by decide)
  have hnames : env.KnownTo names := knownTo_single (by decide) (by decide)
  have ht : ∀ v ∈ t.occurrences, names.Known v := by decide
  have hu : ∀ v ∈ u.occurrences, names.Known v ∧ env.isFresh v = true := by decide
  have ht' : ∀ v, t.occurs v = true → names.Known v := fun v hv => ht v (mem_occurrences.2 hv)
  have hu' : ∀ v, u.occurs v = true → names.Known v ∧ env.isFresh v = true :=
    fun v hv => hu v (mem_occurrences.2 hv)
  have htr : env.rename? names t = some (tr, s) := by decide
  have hur : env.rename? names u = some (ur, s) := by decide
  have hnew (w : Term) (ρ : Variable → Variable) (hw : env.freshIn w = [z, y])
      (h : env.RenamesExactly names w s ρ) : ρ z = z' ∧ ρ y = y' := by
    have hmade := h.made
    rw [hw] at hmade
    simpa [s, eq_comm] using hmade
  obtain ⟨tr', st, ρ, hrun, hexact, -⟩ := rename?_exactly env henv names hnames t ht'
  obtain ⟨rfl, rfl⟩ := Prod.mk.inj (Option.some.inj (hrun.symm.trans htr))
  obtain ⟨ur', su, τ, hrun', hexact', -, hfree⟩ :=
    rename?_exactly env henv names hnames u fun v hv => (hu' v hv).1
  obtain ⟨rfl, rfl⟩ := Prod.mk.inj (Option.some.inj (hrun'.symm.trans hur))
  obtain ⟨hrenamed, hinstance, hagain⟩ := hfree fun v hv => (hu' v hv).2
  obtain ⟨hz, hy⟩ := hnew t ρ (by decide) hexact
  obtain ⟨hz', hy'⟩ := hnew u τ (by decide) hexact'
  exact ⟨henv, hnames, ht', hu', by decide, by decide, by decide, htr, hur, ⟨ρ, hz, hy, hexact⟩,
    ⟨τ, hz', hy', hexact', hrenamed⟩, hinstance, hagain⟩

end Environment

end TermUnification
