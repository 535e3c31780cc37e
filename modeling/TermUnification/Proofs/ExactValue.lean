import Mathlib.Algebra.Order.Field.Rat
import Mathlib.Algebra.Order.Field.Power
import Mathlib.Tactic.FieldSimp
import Mathlib.Tactic.Linarith
import Mathlib.Tactic.Positivity
import Mathlib.Tactic.Ring
import TermUnification.Number.Binary64

/-! The exact values of floating point numbers. Numbers are equal when their values are, and what an
integer is rounded to lies as near to it as any number does. -/
namespace TermUnification.Binary64

/-- The exact value of a finite number. -/
def value (x : Binary64) : ℚ :=
  (if x.isNegative then -1 else 1) * x.significand * 2 ^ x.scale

/-- The place of the last digit of a number, counted from the least place. -/
def place (x : Binary64) : Nat := max 1 x.exponentField - 1

/-- The magnitude of a number, counted in its least positive value. -/
def units (x : Binary64) : Nat := x.significand * 2 ^ x.place

/-- The number of binary places of the least positive number. -/
@[irreducible] def leastPlaces : Nat := 1074

/-- How often the least positive number goes into one. -/
def unitsPerOne : Nat := 2 ^ leastPlaces

theorem unitsPerOne_pos : 0 < unitsPerOne := Nat.two_pow_pos leastPlaces

theorem value_eq (x : Binary64) :
    x.value = (if x.isNegative then -1 else 1) * (x.units / unitsPerOne) := by
  have hscale : x.scale = (x.place : ℤ) - (leastPlaces : ℤ) := by
    simp only [scale, place, leastPlaces]
    omega
  rw [value, hscale, zpow_sub₀ two_ne_zero, zpow_natCast, zpow_natCast, units, unitsPerOne]
  push_cast
  ring

section Fields

variable (x : Binary64)

theorem toNat_bits : x.bits.toNat =
    (if x.isNegative then signBit else 0) + x.exponentField * exponentBit + x.fraction := by
  have hlt := x.bits.toNat_lt
  split
  · next h =>
    simp only [isNegative, decide_eq_true_eq] at h
    simp only [exponentField, fraction, signBit, exponentBit] at *
    omega
  · next h =>
    simp only [isNegative, decide_eq_true_eq] at h
    simp only [exponentField, fraction, signBit, exponentBit] at *
    omega

theorem significand_lt : x.significand < 2 * exponentBit := by
  have hlt : x.fraction < exponentBit := Nat.mod_lt _ (by decide)
  unfold significand
  split <;> omega

theorem exponentBit_le_significand (h : x.exponentField ≠ 0) : exponentBit ≤ x.significand := by
  rw [significand, if_neg h]
  exact Nat.le_add_right _ _

theorem isZero_iff : x.isZero = true ↔ x.units = 0 := by
  have hbits := x.toNat_bits
  have hlt : x.fraction < exponentBit := Nat.mod_lt _ (by decide)
  have hexp : x.exponentField < 2048 := Nat.mod_lt _ (by decide)
  have hunits : x.units = 0 ↔ x.significand = 0 := by simp [units]
  rw [hunits, isZero, decide_eq_true_eq, hbits, significand]
  simp only [signBit, exponentBit] at *
  split <;> split <;> omega

end Fields

/-- Numbers of one magnitude have the same fields below the sign. -/
theorem fields_eq_of_units {x y : Binary64} (h : x.units = y.units) :
    x.exponentField = y.exponentField ∧ x.fraction = y.fraction := by
  have hplace : ∀ {x y : Binary64}, x.units = y.units → ¬ x.place < y.place := by
    intro x y h hlt
    have hy : exponentBit ≤ y.significand := by
      apply y.exponentBit_le_significand
      simp only [place] at hlt
      omega
    have hpow : 2 ^ (x.place + 1) ≤ 2 ^ y.place := Nat.pow_le_pow_right (by decide) hlt
    have hle : exponentBit * 2 ^ (x.place + 1) ≤ y.units := Nat.mul_le_mul hy hpow
    have hx : x.units < 2 * exponentBit * 2 ^ x.place :=
      Nat.mul_lt_mul_of_pos_right x.significand_lt (Nat.two_pow_pos _)
    rw [Nat.pow_succ] at hle
    rw [h] at hx
    have hcomm : exponentBit * (2 ^ x.place * 2) = 2 * exponentBit * 2 ^ x.place := by ring
    omega
  have heq : x.place = y.place := by
    have h1 := hplace h
    have h2 := hplace h.symm
    omega
  have hsig : x.significand = y.significand := by
    rw [units, units, heq] at h
    exact Nat.eq_of_mul_eq_mul_right (Nat.two_pow_pos _) h
  have hx : x.fraction < exponentBit := Nat.mod_lt _ (by decide)
  have hy : y.fraction < exponentBit := Nat.mod_lt _ (by decide)
  simp only [place] at heq
  unfold significand at hsig
  split at hsig <;> split at hsig <;> omega

theorem eq_of_fields {x y : Binary64} (hsign : x.isNegative = y.isNegative)
    (hexp : x.exponentField = y.exponentField) (hfrac : x.fraction = y.fraction) : x = y := by
  have hbits : x.bits.toNat = y.bits.toNat := by
    rw [x.toNat_bits, y.toNat_bits, hsign, hexp, hfrac]
  cases x
  cases y
  exact congrArg Binary64.mk (UInt64.toNat_inj.1 hbits)

theorem abs_value (x : Binary64) : |x.value| = x.units / unitsPerOne := by
  have hpos : (0 : ℚ) ≤ x.units / unitsPerOne := by positivity
  rw [value_eq]
  split
  · rw [neg_one_mul, abs_neg, abs_of_nonneg hpos]
  · rw [one_mul, abs_of_nonneg hpos]

/-- Numbers are equal when their values are. -/
theorem beq_iff {x y : Binary64} (hx : x.isNaN = false) (hy : y.isNaN = false) :
    (x == y) = true ↔ x.value = y.value := by
  simp only [beq_def, hx, hy, Bool.not_false, Bool.true_and, Bool.or_eq_true, decide_eq_true_eq,
    Bool.and_eq_true, isZero_iff]
  constructor
  · rintro (rfl | ⟨hx0, hy0⟩)
    · rfl
    · simp [value_eq, hx0, hy0]
  · intro h
    have hone : (unitsPerOne : ℚ) ≠ 0 := Nat.cast_ne_zero.2 unitsPerOne_pos.ne'
    have hunits : x.units = y.units := by
      have habs := congrArg abs h
      rw [abs_value, abs_value, div_left_inj' hone] at habs
      exact_mod_cast habs
    by_cases hzero : y.units = 0
    · exact .inr ⟨hunits.trans hzero, hzero⟩
    · obtain ⟨hexp, hfrac⟩ := fields_eq_of_units hunits
      refine .inl (eq_of_fields ?_ hexp hfrac)
      have hpos : (0 : ℚ) < y.units / unitsPerOne :=
        div_pos (Nat.cast_pos.2 (Nat.pos_of_ne_zero hzero)) (Nat.cast_pos.2 unitsPerOne_pos)
      rw [value_eq, value_eq, hunits] at h
      have hsign := mul_right_cancel₀ hpos.ne' h
      cases hsx : x.isNegative <;> cases hsy : y.isNegative <;>
        simp only [hsx, hsy] at hsign ⊢ <;> norm_num at hsign

theorem roundDiv_cases (n d : Nat) :
    (roundDiv n d = n / d ∧ 2 * (n % d) ≤ d) ∨ (roundDiv n d = n / d + 1 ∧ d ≤ 2 * (n % d)) := by
  unfold roundDiv
  dsimp only
  split
  · omega
  · split <;> omega

/-- No other multiple lies nearer than the rounded quotient. -/
theorem roundDiv_nearest {n d : Nat} (hd : 0 < d) (k : Nat) :
    ((roundDiv n d * d : Nat) - n : ℤ).natAbs ≤ ((k * d : Nat) - n : ℤ).natAbs := by
  have hn := Nat.div_add_mod' n d
  have hr := Nat.mod_lt n hd
  have hk : k * d ≤ n / d * d ∨ n / d * d + d ≤ k * d := by
    rcases Nat.lt_or_ge (n / d) k with hlt | hle
    · right
      rw [← Nat.succ_mul]
      exact Nat.mul_le_mul_right d hlt
    · exact .inl (Nat.mul_le_mul_right d hle)
  rcases roundDiv_cases n d with ⟨he, h2⟩ | ⟨he, h2⟩
  · rw [he]
    omega
  · rw [he, Nat.succ_mul]
    omega

theorem roundDiv_mul (k : Nat) {d : Nat} (hd : 0 < d) : roundDiv (k * d) d = k := by
  simp [roundDiv, Nat.mul_div_cancel k hd, hd]

/-- A natural number with all binary digits after the first fifty-three rounded away. -/
def rounded (n : Nat) : Nat := roundDiv n (2 ^ (n.log2 - 52)) * 2 ^ (n.log2 - 52)

theorem rounded_of_lt {n : Nat} (h : n < 2 ^ 53) : rounded n = n := by
  have hlog : n.log2 - 52 = 0 := by
    by_cases hn : n = 0
    · subst hn
      decide
    · have := (Nat.log2_lt hn).2 h
      omega
  rw [rounded, hlog, Nat.pow_zero, Nat.mul_one]
  simpa using roundDiv_mul n Nat.one_pos

theorem rounded_of_le {n : Nat} (h : n ≤ 2 ^ 53) : rounded n = n := by
  rcases Nat.lt_or_eq_of_le h with hlt | rfl
  · exact rounded_of_lt hlt
  · decide

/-- The fifty-three leading binary digits, with zeros added or the rest rounded away. A carry makes one
digit more. -/
def digits (n : Nat) : Nat :=
  if n.log2 ≤ 52 then n * 2 ^ (52 - n.log2) else roundDiv n (2 ^ (n.log2 - 52))

theorem digits_bounds {n : Nat} (hn : n ≠ 0) :
    exponentBit ≤ digits n ∧ digits n ≤ 2 * exponentBit := by
  have hlow := Nat.log2_self_le hn
  have hhigh := Nat.lt_log2_self (n := n)
  unfold digits
  generalize n.log2 = l at *
  split
  · next hl =>
    have h1 : 2 ^ l * 2 ^ (52 - l) = exponentBit := by
      rw [← Nat.pow_add, Nat.add_sub_cancel' hl]
      rfl
    have h2 : 2 ^ (l + 1) * 2 ^ (52 - l) = 2 * exponentBit := by
      rw [Nat.pow_succ, Nat.mul_right_comm, h1, Nat.mul_comm]
    rw [← h2, ← h1]
    exact ⟨Nat.mul_le_mul_right _ hlow, Nat.mul_le_mul_right _ hhigh.le⟩
  · next hl =>
    obtain ⟨k, rfl⟩ := Nat.exists_eq_add_of_lt (Nat.lt_of_not_le hl)
    have hk : 52 + k + 1 - 52 = k + 1 := by omega
    rw [hk]
    have hq1 : exponentBit ≤ n / 2 ^ (k + 1) := by
      rw [Nat.le_div_iff_mul_le (Nat.two_pow_pos _)]
      rwa [show exponentBit = 2 ^ 52 from rfl, ← Nat.pow_add, ← Nat.add_assoc]
    have hq2 : n / 2 ^ (k + 1) < 2 * exponentBit := by
      rw [Nat.div_lt_iff_lt_mul (Nat.two_pow_pos _)]
      rw [show 2 * exponentBit = 2 ^ 53 from rfl, ← Nat.pow_add]
      rwa [show 53 + (k + 1) = 52 + k + 1 + 1 by omega]
    rcases roundDiv_cases n (2 ^ (k + 1)) with ⟨he, -⟩ | ⟨he, -⟩ <;> omega

theorem digits_mul (n : Nat) : digits n * 2 ^ (n.log2 + 1022) = rounded n * unitsPerOne := by
  unfold digits rounded unitsPerOne
  generalize n.log2 = l
  split
  · next hl =>
    have hplaces : 52 - l + (l + 1022) = leastPlaces := by
      unfold leastPlaces
      omega
    have hone : roundDiv n 1 = n := by simpa using roundDiv_mul n Nat.one_pos
    rw [Nat.mul_assoc, ← Nat.pow_add, hplaces, Nat.sub_eq_zero_of_le hl, Nat.pow_zero, hone,
      Nat.mul_one]
  · next hl =>
    have hplaces : l - 52 + leastPlaces = l + 1022 := by
      unfold leastPlaces
      omega
    rw [Nat.mul_assoc, ← Nat.pow_add, hplaces]

theorem magnitude_eq {n : Nat} (hn : n ≠ 0) (h : n < 2 ^ 64) :
    magnitude n = (n.log2 + 1022) * exponentBit + digits n := by
  have hlog := (Nat.log2_lt hn).2 h
  have hbound := (digits_bounds hn).2
  have hwidth : n.log2 + 1 ≤ 53 ↔ n.log2 ≤ 52 := by omega
  have hmin : (n.log2 + 1022) * exponentBit + digits n ≤ 2047 * exponentBit := by
    have : (n.log2 + 1022) * exponentBit ≤ 1085 * exponentBit := Nat.mul_le_mul_right _ (by omega)
    omega
  rw [← Nat.min_eq_left hmin]
  simp only [magnitude, hn, if_false, digits, hwidth, Nat.pow_eq,
    show n.log2 + 1 + 1021 = n.log2 + 1022 by omega, show 53 - (n.log2 + 1) = 52 - n.log2 by omega,
    show n.log2 + 1 - 53 = n.log2 - 52 by omega]

/-- The fields of a word put together from an exponent and leading digits. A carry goes into the
exponent. -/
theorem fields_of_digits {x : Binary64} {negative : Bool} {k d : Nat}
    (hbits : x.bits.toNat = k * exponentBit + d + if negative then signBit else 0)
    (hk : k < 2045) (hlow : exponentBit ≤ d) (hhigh : d ≤ 2 * exponentBit) :
    x.isNegative = negative ∧ (x.exponentField = k + 1 ∧ x.fraction + exponentBit = d ∨
      x.exponentField = k + 2 ∧ x.fraction = 0 ∧ d = 2 * exponentBit) := by
  have hx := x.toNat_bits
  have hfrac : x.fraction < exponentBit := Nat.mod_lt _ (by decide)
  have hexp : x.exponentField < 2048 := Nat.mod_lt _ (by decide)
  have hsign : x.isNegative = negative := by
    simp only [isNegative, hbits, signBit, exponentBit] at *
    cases negative
    · simp only [Bool.false_eq_true, if_false, decide_eq_false_iff_not]
      omega
    · simp
  rw [hbits, hsign] at hx
  refine ⟨hsign, ?_⟩
  simp only [exponentBit] at *
  omega

theorem units_of_digits {x : Binary64} {k d : Nat}
    (h : x.exponentField = k + 1 ∧ x.fraction + exponentBit = d ∨
      x.exponentField = k + 2 ∧ x.fraction = 0 ∧ d = 2 * exponentBit) :
    x.units = d * 2 ^ k := by
  unfold units significand place
  rcases h with ⟨hexp, rfl⟩ | ⟨hexp, hfrac, rfl⟩
  · have hplace : max 1 (k + 1) - 1 = k := by omega
    rw [hexp, if_neg (Nat.succ_ne_zero k), hplace, Nat.add_comm x.fraction]
  · have hplace : max 1 (k + 2) - 1 = k + 1 := by omega
    rw [hexp, if_neg (Nat.succ_ne_zero _), hfrac, hplace, Nat.pow_succ]
    ring

theorem isNaN_of_isFinite {x : Binary64} (h : x.isFinite = true) : x.isNaN = false := by
  simp [isNaN, h]

/-- The sign and the magnitude of the number that an integer is rounded to. -/
theorem fields_ofInt {n : Int} (h : n.natAbs < 2 ^ 64) :
    (ofInt n).isNegative = decide (n < 0) ∧ (ofInt n).isFinite = true ∧
      (ofInt n).units = rounded n.natAbs * unitsPerOne := by
  by_cases hn : n = 0
  · subst hn
    refine ⟨by decide, by decide, ?_⟩
    rw [show (ofInt 0).units = 0 by decide, show rounded (Int.natAbs 0) = 0 by decide, Nat.zero_mul]
  · have hn' : n.natAbs ≠ 0 := Int.natAbs_ne_zero.2 hn
    have hlog := (Nat.log2_lt hn').2 h
    obtain ⟨hlow, hhigh⟩ := digits_bounds hn'
    have hbits : (ofInt n).bits.toNat = (n.natAbs.log2 + 1022) * exponentBit + digits n.natAbs +
        if decide (n < 0) then signBit else 0 := by
      have hword : magnitude n.natAbs + (if n < 0 then signBit else 0) < 2 ^ 64 := by
        have hle : (n.natAbs.log2 + 1022) * exponentBit ≤ 1085 * exponentBit :=
          Nat.mul_le_mul_right _ (by omega)
        rw [magnitude_eq hn' h]
        simp only [exponentBit, signBit] at *
        split <;> omega
      rw [ofInt, UInt64.toNat_ofNat', Nat.mod_eq_of_lt hword, magnitude_eq hn' h]
      simp only [decide_eq_true_eq]
    obtain ⟨hsign, hfields⟩ := fields_of_digits hbits (by omega) hlow hhigh
    refine ⟨hsign, ?_, (units_of_digits hfields).trans (digits_mul n.natAbs)⟩
    simp only [isFinite, decide_eq_true_eq]
    omega

theorem value_ofInt {n : Int} (h : n.natAbs < 2 ^ 64) :
    (ofInt n).value = (if n < 0 then -1 else 1) * rounded n.natAbs := by
  obtain ⟨hsign, -, hunits⟩ := fields_ofInt h
  have hone : (unitsPerOne : ℚ) ≠ 0 := Nat.cast_ne_zero.2 unitsPerOne_pos.ne'
  rw [value_eq, hsign, hunits, Nat.cast_mul, mul_div_cancel_right₀ _ hone]
  simp only [decide_eq_true_eq]

theorem signed_natAbs (n : Int) : ((if n < 0 then -1 else 1) * n.natAbs : ℚ) = n := by
  rw [Nat.cast_natAbs]
  split
  · next h => rw [abs_of_neg h, Int.cast_neg, neg_one_mul, neg_neg]
  · next h => rw [abs_of_nonneg (Int.not_lt.1 h), one_mul]

/-- Integers of at most fifty-three binary digits are kept exactly. -/
theorem value_ofInt_of_le {n : Int} (h : n.natAbs ≤ 2 ^ 53) : (ofInt n).value = n := by
  rw [value_ofInt (h.trans_lt (by decide)), rounded_of_le h, signed_natAbs]

/-- A magnitude is a multiple of a place or lies below all numbers that have their last digit there. -/
theorem units_grid (y : Binary64) (k : Nat) :
    (∃ j, y.units = j * 2 ^ k) ∨ y.units < exponentBit * 2 ^ k := by
  rcases Nat.lt_or_ge y.place k with hlt | hle
  · right
    have h1 : y.units < 2 * exponentBit * 2 ^ y.place :=
      Nat.mul_lt_mul_of_pos_right y.significand_lt (Nat.two_pow_pos _)
    have h2 : exponentBit * 2 ^ (y.place + 1) ≤ exponentBit * 2 ^ k :=
      Nat.mul_le_mul_left _ (Nat.pow_le_pow_right (by decide) hlt)
    have h3 : exponentBit * 2 ^ (y.place + 1) = 2 * exponentBit * 2 ^ y.place := by
      rw [Nat.pow_succ]
      ring
    omega
  · left
    refine ⟨y.significand * 2 ^ (y.place - k), ?_⟩
    rw [units, Nat.mul_assoc, ← Nat.pow_add, Nat.sub_add_cancel hle]

theorem natAbs_sub_mul (m n k : Nat) :
    ((m * k : Nat) - (n * k : Nat) : ℤ).natAbs = ((m : ℤ) - n).natAbs * k := by
  rw [Nat.cast_mul, Nat.cast_mul, ← sub_mul, Int.natAbs_mul, Int.natAbs_natCast]

/-- The rounded number is as near as any other multiple of the place of its last digit. -/
theorem rounded_nearest_multiple (n j : Nat) :
    ((rounded n * unitsPerOne : Nat) - (n * unitsPerOne : Nat) : ℤ).natAbs ≤
      ((j * 2 ^ (n.log2 - 52) * unitsPerOne : Nat) - (n * unitsPerOne : Nat) : ℤ).natAbs := by
  rw [natAbs_sub_mul, natAbs_sub_mul]
  exact Nat.mul_le_mul_right _ (roundDiv_nearest (Nat.two_pow_pos _) j)

/-- No number lies nearer to a natural number than the rounded one. -/
theorem rounded_nearest (n : Nat) (y : Binary64) :
    ((rounded n * unitsPerOne : Nat) - (n * unitsPerOne : Nat) : ℤ).natAbs ≤
      ((y.units : ℤ) - (n * unitsPerOne : Nat)).natAbs := by
  rcases Nat.lt_or_ge n (2 ^ 53) with hsmall | hlarge
  · rw [rounded_of_lt hsmall, sub_self, Int.natAbs_zero]
    exact Nat.zero_le _
  · have hn : n ≠ 0 := by omega
    have hlog : 53 ≤ n.log2 := (Nat.le_log2 hn).2 hlarge
    have hlow : exponentBit * 2 ^ (n.log2 - 52) ≤ n := by
      have hle := Nat.log2_self_le hn
      rwa [show exponentBit = 2 ^ 52 from rfl, ← Nat.pow_add, Nat.add_sub_cancel' (by omega)]
    have hplace : ∀ j, j * 2 ^ (n.log2 - 52 + leastPlaces) =
        j * 2 ^ (n.log2 - 52) * unitsPerOne := by
      intro j
      rw [unitsPerOne, Nat.pow_add, Nat.mul_assoc]
    rcases y.units_grid (n.log2 - 52 + leastPlaces) with ⟨j, hj⟩ | hlt
    · rw [hj, hplace]
      exact rounded_nearest_multiple n j
    · -- Such a number is less than the greatest power of two up to n, which is a multiple itself and
      -- lies between the number and n.
      rw [hplace] at hlt
      have hcorner := rounded_nearest_multiple n exponentBit
      have hle := Nat.mul_le_mul_right unitsPerOne hlow
      omega

/-- The distance of a magnitude from a natural number, counted in units. -/
theorem abs_units_sub (m n : Nat) : |(m / unitsPerOne : ℚ) - n| =
    ((m : ℤ) - (n * unitsPerOne : Nat)).natAbs / unitsPerOne := by
  have hone : (0 : ℚ) < unitsPerOne := Nat.cast_pos.2 unitsPerOne_pos
  rw [Nat.cast_natAbs, Int.cast_abs, ← abs_of_pos hone, ← abs_div, abs_of_pos hone, Int.cast_sub,
    Int.cast_natCast, Int.cast_natCast, Nat.cast_mul, sub_div, mul_div_cancel_right₀ _ hone.ne']

/-- An integer is rounded to a number that lies as near to it as any. -/
theorem ofInt_nearest {n : Int} (h : n.natAbs < 2 ^ 64) (y : Binary64) :
    |(ofInt n).value - n| ≤ |y.value - n| := by
  obtain ⟨hsign, -, hunits⟩ := fields_ofInt h
  have hround : |(ofInt n).value - n| = |((ofInt n).units / unitsPerOne : ℚ) - n.natAbs| := by
    rw [value_eq, hsign, ← signed_natAbs n]
    simp only [decide_eq_true_eq]
    rw [← mul_sub, abs_mul]
    split
    · rw [abs_neg, abs_one, one_mul]
    · rw [abs_one, one_mul]
  have hy : |(y.units / unitsPerOne : ℚ) - n.natAbs| ≤ |y.value - n| := by
    rw [← abs_value, Nat.cast_natAbs, Int.cast_abs]
    exact abs_abs_sub_abs_le_abs_sub y.value n
  refine le_trans ?_ hy
  rw [hround, abs_units_sub, abs_units_sub, hunits]
  exact div_le_div_of_nonneg_right (Nat.cast_le.2 (rounded_nearest n.natAbs y)) (Nat.cast_nonneg _)

end TermUnification.Binary64
