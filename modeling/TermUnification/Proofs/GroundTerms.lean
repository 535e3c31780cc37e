import TermUnification.Proofs.Closed
import TermUnification.Proofs.ExactValue

/-! Unification of ground terms. It is reflexive where no value is no number, and symmetric. An integer
and a floating point number agree when the number is what the integer is rounded to. Two integers that
are rounded alike both agree with that number, though not with each other, and this is all that stands
in the way of transitivity. -/
namespace TermUnification

namespace Scalar

theorem natAbs_toInt_lt (n : Int64) : n.toInt.natAbs < 2 ^ 64 := by
  have hle := n.le_toInt
  have hlt := n.toInt_lt
  omega

theorem isNaN_ofInt (n : Int64) : (Binary64.ofInt n.toInt).isNaN = false :=
  Binary64.isNaN_of_isFinite (Binary64.fields_ofInt (natAbs_toInt_lt n)).2.1

theorem agrees_int_float (n : Int64) {x : Binary64} (hx : x.isNaN = false) :
    (int n).agrees (float x) = true ↔ x.value = (Binary64.ofInt n.toInt).value :=
  (Binary64.beq_iff (isNaN_ofInt n) hx).trans eq_comm

/-- An integer agrees with the number that it is exactly, and when it is small with no other one. -/
theorem agrees_exact (n : Int64) {x : Binary64} (hx : x.isNaN = false) :
    (x.value = n.toInt → (int n).agrees (float x) = true) ∧
    (n.toInt.natAbs ≤ 2 ^ 53 → (int n).agrees (float x) = true → x.value = n.toInt) := by
  rw [agrees_int_float n hx]
  refine ⟨fun h => ?_, fun hn h => h.trans (Binary64.value_ofInt_of_le hn)⟩
  have hnearest := Binary64.ofInt_nearest (natAbs_toInt_lt n) x
  rw [h, sub_self, abs_zero, abs_nonpos_iff, sub_eq_zero] at hnearest
  rw [h, hnearest]

/-- Agreement is transitive, provided that two integers at its ends are not rounded alike. -/
theorem agrees_trans {a b c : Scalar} (h : a.agrees b = true) (h' : b.agrees c = true)
    (hround : ∀ m n, a = int m → c = int n →
      (Binary64.ofInt m.toInt == Binary64.ofInt n.toInt) = true → m = n) :
    a.agrees c = true := by
  cases a <;> cases b <;> cases c <;> simp_all [agrees, BEq.beq, Scalar.beq]
  case int.float.int m x n => exact hround (Binary64.beq_trans h ((Binary64.beq_comm x _).trans h'))
  case int.float.float m x y => exact Binary64.beq_trans h h'
  case float.int.float x n y => exact Binary64.beq_trans ((Binary64.beq_comm x _).trans h) h'
  case float.float.int x y n => exact Binary64.beq_trans h' ((Binary64.beq_comm y x).trans h)
  case float.float.float x y z => exact Binary64.beq_trans h h'

end Scalar

namespace Term

section Parts

variable {t m : Term}

theorem isGround_iff : t.isGround = true ↔
    ∀ s ∈ t.parts, s.isVar = false ∧ s.isWildcard = false := by
  induction t using memberInduction with
  | step t ih =>
    have hmembers : (∀ m ∈ t.members, m.isGround = true) ↔
        ∀ s ∈ t.members.flatMap parts, s.isVar = false ∧ s.isWildcard = false := by
      rw [forall₂_congr ih]
      grind
    rw [parts_eq, List.forall_mem_cons, ← hmembers]
    cases hc : t.isComposite with
    | true =>
      rw [isGround_of_isComposite hc, List.all_eq_true]
      cases t <;> simp_all [isComposite, isVar, isWildcard]
    | false => cases t <;> simp_all [isComposite, isGround, isVar, isWildcard]

/-- The integers that a term holds. -/
def ints (t : Term) : List Int64 :=
  t.parts.filterMap fun s => match s with
    | scalar (.int n) => some n
    | _ => none

theorem ints_member (hm : m ∈ t.members) {n : Int64} (hn : n ∈ m.ints) : n ∈ t.ints := by
  obtain ⟨s, hs, hsn⟩ := List.mem_filterMap.1 hn
  exact List.mem_filterMap.2 ⟨s, mem_parts_of_member hm hs, hsn⟩

end Parts

/-- Data: ground terms without a value that is no number, which state their true arities. -/
structure IsData (t : Term) : Prop where
  ground : t.isGround = true
  nans : ∀ s ∈ t.parts, s.isNaN = false
  arities : ∀ s ∈ t.parts, s.hasTrueArity = true

/-- No integer of the one term is rounded to the same number as a different one of the other. -/
def RoundedApart (a b : Term) : Prop :=
  ∀ m ∈ a.ints, ∀ n ∈ b.ints,
    (Binary64.ofInt m.toInt == Binary64.ofInt n.toInt) = true → m = n

instance (a b : Term) : Decidable (RoundedApart a b) :=
  decidable_of_iff ((a.ints.all fun m => b.ints.all fun n =>
      !(Binary64.ofInt m.toInt == Binary64.ofInt n.toInt) || decide (m = n)) = true)
    (by simp [RoundedApart, ← Bool.not_eq_true, imp_iff_not_or])

/-- Can the head of the term be settled only with a head of its own kind? -/
def isFirm (t : Term) : Bool := !t.isVar && !t.isWildcard && t.hasTrueArity

section Data

variable {a b c m : Term}

theorem IsData.closed (h : a.IsData) : a.Closed := closed_of_isGround h.ground

theorem IsData.firm (h : a.IsData) : a.Every isFirm := by
  intro s hs
  obtain ⟨hvar, hwild⟩ := isGround_iff.1 h.ground s hs
  simp [isFirm, hvar, hwild, h.arities s hs]

theorem IsData.notNaN (h : a.IsData) : a.Every notNaN := every_notNaN_iff.2 h.nans

/-- Where integers are small enough to be kept exactly, none are rounded alike. -/
theorem roundedApart_of_exact (ha : ∀ n ∈ a.ints, n.toInt.natAbs ≤ 2 ^ 53)
    (hb : ∀ n ∈ b.ints, n.toInt.natAbs ≤ 2 ^ 53) : RoundedApart a b := by
  intro m hm n hn h
  have hvalue := (Binary64.beq_iff (Scalar.isNaN_ofInt m) (Scalar.isNaN_ofInt n)).1 h
  rw [Binary64.value_ofInt_of_le (ha m hm), Binary64.value_ofInt_of_le (hb n hn)] at hvalue
  exact Int64.toInt_inj.1 (Int.cast_injective hvalue)

theorem RoundedApart.member {x y : Term} (h : RoundedApart a b) (hx : x ∈ a.members)
    (hy : y ∈ b.members) : RoundedApart x y :=
  fun m hm n hn => h m (ints_member hx hm) n (ints_member hy hn)

/-- The ways in which two firm terms can be settled. -/
theorem Settled.cases (h : Settled a b) (ha : a.Every isFirm) (hb : b.Every isFirm) :
    (∃ s t, a = scalar s ∧ b = scalar t ∧ s.agrees t = true) ∨
    (Alike a b ∧ List.Forall₂ Settled a.members b.members) := by
  have hfirma := ha.head
  have hfirmb := hb.head
  simp only [isFirm, Bool.and_eq_true, Bool.not_eq_true'] at hfirma hfirmb
  cases h with
  | head step =>
    rcases Step.between_settled step with rfl | rfl | ⟨v, rfl, rfl⟩ | hscalars
    · simp [isWildcard] at hfirma
    · simp [isWildcard] at hfirmb
    · simp [isVar] at hfirma
    · exact .inl hscalars
  | members alike arity all =>
    have hlen := (sameArity_iff alike hfirma.2 hfirmb.2).1 arity
    exact .inr ⟨alike, List.forall₂_iff_zip.2 ⟨hlen, fun {x y} hxy => all (x, y) hxy⟩⟩

theorem settled_of_forall₂ (ha : a.Every isFirm) (hb : b.Every isFirm) (halike : Alike a b)
    (h : List.Forall₂ Settled a.members b.members) : Settled a b := by
  have hfirma := ha.head
  have hfirmb := hb.head
  simp only [isFirm, Bool.and_eq_true] at hfirma hfirmb
  refine .members halike ((sameArity_iff halike hfirma.2 hfirmb.2).2 h.length_eq) ?_
  exact fun p hp => List.forall₂_zip h hp

theorem Settled.trans (h : Settled a b) (h' : Settled b c) (ha : a.Every isFirm)
    (hb : b.Every isFirm) (hc : c.Every isFirm) (hround : RoundedApart a c) : Settled a c := by
  -- The two numbers that may be rounded alike lie at the ends, so the hypothesis is carried to the
  -- members of these; the middle term has none.
  induction a using memberInduction generalizing b c with
  | step a ih =>
    rcases h.cases ha hb with ⟨s, t, rfl, rfl, hst⟩ | ⟨hab, hm⟩
    · rcases h'.cases hb hc with ⟨t', r, ht, rfl, htr⟩ | ⟨hbc, -⟩
      · cases ht
        have hagrees : s.agrees r = true := Scalar.agrees_trans hst htr fun m n hm hn =>
          hround m (by simp [hm, ints, parts]) n (by simp [hn, ints, parts])
        exact .head (by simp [Step.between, hagrees])
      · simp [Alike] at hbc
    · rcases h'.cases hb hc with ⟨t, r, rfl, -, -⟩ | ⟨hbc, hm'⟩
      · cases a <;> simp [Alike] at hab
      · refine settled_of_forall₂ ha hc (hab.trans hbc) (forall₂_trans hm hm' ?_)
        intro x hx y hy z hz hxy hyz
        exact ih x hx hxy hyz (ha.member hx) (hb.member hy) (hc.member hz) (hround.member hx hz)

end Data

end Term

namespace Unifier
open Term Environment

theorem succeeds_scalars_iff (u : Unifier) (env : Environment) (s t : Scalar) :
    (u.unify (.scalar s) (.scalar t) env).succeeds = true ↔ s.agrees t = true := by
  have hscalar (r : Scalar) : (scalar r).Closed := fun _ => rfl
  rw [succeeds_iff_settled u env (hscalar s) (hscalar t), settled_scalars_iff]

/-- Unification of data is reflexive and symmetric, and where no two integers are rounded alike it is
transitive. It changes no environment. An integer unifies with the number that it is rounded to, so with
the one that it is exactly if there is one, and when it is small with no other. -/
theorem unify_data (u : Unifier) (env : Environment) (a b c : Term) (ha : a.IsData)
    (hb : b.IsData) (hc : c.IsData) :
    (u.unify a a env).outcome = .done env ∧
    ((u.unify a b env).succeeds = true ↔ (u.unify b a env).succeeds = true) ∧
    (RoundedApart a c → (u.unify a b env).succeeds = true → (u.unify b c env).succeeds = true →
      (u.unify a c env).succeeds = true) ∧
    ((u.unify a b env).outcome = .done env ∨ ∃ cause, (u.unify a b env).outcome = .clash cause) ∧
    ∀ (n : Int64) (x : Binary64), x.isNaN = false →
      ((u.unify (.int n) (.scalar (.float x)) env).succeeds = true ↔
        x.value = (Binary64.ofInt n.toInt).value) ∧
      (x.value = n.toInt → (u.unify (.int n) (.scalar (.float x)) env).succeeds = true) ∧
      (n.toInt.natAbs ≤ 2 ^ 53 → (u.unify (.int n) (.scalar (.float x)) env).succeeds = true →
        x.value = n.toInt) := by
  have settled {s t : Term} (hs : s.IsData) (ht : t.IsData) :
      (u.unify s t env).succeeds = true ↔ Settled s t :=
    succeeds_iff_settled u env hs.closed ht.closed
  refine ⟨?_, ?_, fun hround hab hbc => ?_, compares_of_closed u env ha.closed hb.closed,
    fun n x hx => ?_⟩
  · rw [← (compares_of_closed u env ha.closed ha.closed).succeeds_iff, settled ha ha]
    exact settled_self ha.notNaN
  · rw [settled ha hb, settled hb ha]
    exact ⟨Settled.symm, Settled.symm⟩
  · rw [settled ha hb] at hab
    rw [settled hb hc] at hbc
    exact (settled ha hc).2 (hab.trans hbc ha.firm hb.firm hc.firm hround)
  · rw [Term.int, succeeds_scalars_iff]
    exact ⟨Scalar.agrees_int_float n hx, Scalar.agrees_exact n hx⟩

/-- The numbers 1 and 1.0 and minus and plus zero inside a foreign composite, a map and a sequence. -/
theorem unify_data_nested :
    let float (bits : UInt64) : Term := .scalar (.float ⟨bits⟩)
    let data (one zero : Term) : Term :=
      .composite (.foreign "f" none false) [.map [(.atom "k", .seq [one, .text "t"])], zero]
    let a := data (.int 1) (float 0)
    let b := data (float 0x3ff0000000000000) (float 0x8000000000000000)
    let c := data (.int 1) (.int 0)
    let u := plain.withOccursCheck true
    let env := ofList [(⟨0⟩, .seq [.var ⟨0⟩])]
    a.IsData ∧ b.IsData ∧ c.IsData ∧ RoundedApart a c ∧
      (u.unify a b env).succeeds = true ∧ (u.unify b c env).succeeds = true ∧
      (u.unify a a env).outcome = .done env ∧ (u.unify b a env).succeeds = true ∧
      (u.unify a c env).succeeds = true := by
  intro float data a b c u env
  have ha : a.IsData := ⟨by decide, by decide, by decide⟩
  have hb : b.IsData := ⟨by decide, by decide, by decide⟩
  have hc : c.IsData := ⟨by decide, by decide, by decide⟩
  have hround : RoundedApart a c := by decide
  have hab : (u.unify a b env).succeeds = true := by decide
  have hbc : (u.unify b c env).succeeds = true := by decide
  obtain ⟨hself, hcomm, htrans, -⟩ := unify_data u env a b c ha hb hc
  exact ⟨ha, hb, hc, hround, hab, hbc, hself, hcomm.1 hab, htrans hround hab hbc⟩

/-- The integers 2^53 + 1 and 2^53 do not unify, but both unify with the number of exact value 2^53. -/
theorem unify_data_not_transitive :
    let a : Term := .int 9007199254740993
    let x : Binary64 := ⟨0x4340000000000000⟩
    let c : Term := .int 9007199254740992
    a.IsData ∧ (scalar (.float x)).IsData ∧ c.IsData ∧ x.value = 9007199254740992 ∧
      (plain.unify a (.scalar (.float x)) .empty).succeeds = true ∧
      (plain.unify (.scalar (.float x)) c .empty).succeeds = true ∧
      (plain.unify a c .empty).succeeds = false := by
  intro a x c
  have hvalue : x.value = 9007199254740992 := by
    have hx : x = Binary64.ofInt 9007199254740992 := by decide
    rw [hx, Binary64.value_ofInt_of_le (by decide)]
    norm_num
  exact ⟨⟨by decide, by decide, by decide⟩, ⟨by decide, by decide, by decide⟩,
    ⟨by decide, by decide, by decide⟩, hvalue, by decide, by decide, by decide⟩

end Unifier

end TermUnification
