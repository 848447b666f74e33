import CoralReef.Misc.Rounding
import Mathlib.Data.Nat.Prime.Basic

/-!
# Division by a rounded reciprocal

The quotient of two integers as the truncated product with the reciprocal, where the reciprocal and
the product are rounded to `p` bits. Below `2 ^ (p - 1)` only exact quotients can come out wrong,
and then by one.
-/

namespace CoralReef.Rounding

variable {K : Type} [Field K] [LinearOrder K] [IsStrictOrderedRing K] [FloorRing K]

/-- What the scaled reciprocal of a divisor leaves over when it is rounded down. -/
def rest (p b : ℕ) : ℕ := 2 ^ (p + b.log2) % b

/-- The product with the reciprocal of a divisor falls short of an exact quotient: the reciprocal
is rounded down, and by so much that the product is not rounded back. -/
def Misrounded (p a b : ℕ) : Prop :=
  let q := a / b
  b ∣ a ∧ 2 * rest p b < b ∧
    2 ^ (b.log2 + q.log2) < (if q = 2 ^ q.log2 then 2 else 1) * (q * rest p b)

instance (p a b : ℕ) : Decidable (Misrounded p a b) := inferInstanceAs (Decidable (_ ∧ _ ∧ _))

/-- The rounded reciprocal of an integer. -/
theorem roundTo_one_div {p b : ℕ} (precise : 1 ≤ p) (positive : 0 < b) :
    roundTo p (1 / (b : K)) =
      roundEven ((2 : K) ^ (p + b.log2) / b) / 2 ^ (p + b.log2) := by
  have low : 2 ^ b.log2 ≤ b := Nat.log2_self_le (by omega)
  have high : b < 2 ^ (b.log2 + 1) := Nat.lt_log2_self
  generalize b.log2 = j at low high
  have two : (2 : K) ≠ 0 := two_ne_zero
  have positive' : (0 : K) < b := Nat.cast_pos.mpr positive
  by_cases isPow : b = 2 ^ j
  · have isInv : 1 / (b : K) = 2 ^ (-(j : ℤ)) := by
      rw [isPow, zpow_neg, zpow_natCast, one_div]
      push_cast
      rfl
    have isInt : (2 : K) ^ (p + j) / b = ((2 ^ p : ℤ) : K) := by
      rw [isPow, pow_add]
      push_cast
      exact mul_div_cancel_right₀ _ (pow_ne_zero j two)
    rw [isInt, roundEven_intCast, isInv, roundTo_zpow precise, zpow_neg, zpow_natCast, pow_add]
    push_cast
    rw [div_mul_cancel_left₀ (pow_ne_zero p two)]
  · have above : 2 ^ j < b := lt_of_le_of_ne low (Ne.symm isPow)
    have low' : (2 : K) ^ (-(j : ℤ) - 1) ≤ 1 / b := by
      rw [le_div_iff₀ positive', ← neg_add', zpow_neg, inv_mul_le_iff₀ (zpow_pos two_pos _), mul_one]
      exact_mod_cast high.le
    have high' : 1 / (b : K) < 2 ^ (-(j : ℤ) - 1 + 1) := by
      rw [sub_add_cancel, zpow_neg, one_div, inv_lt_inv₀ positive' (zpow_pos two_pos _)]
      exact_mod_cast above
    have isUlp : (2 : K) ^ (-(j : ℤ) - 1 - p + 1) = (2 ^ (p + j))⁻¹ := by
      rw [← zpow_natCast, ← zpow_neg]
      congr 1
      push_cast
      ring
    rw [roundTo_eq low' high', isUlp, div_inv_eq_mul, one_div_mul_eq_div, ← div_eq_mul_inv]

/-- The nearest integer of a quotient that is not a half. -/
theorem roundEven_div {n b : ℕ} (positive : 0 < b) (noTie : 2 * (n % b) ≠ b) :
    roundEven ((n : K) / b) = if 2 * (n % b) < b then ((n / b : ℕ) : ℤ) else (n / b : ℕ) + 1 := by
  have positive' : (0 : K) < b := Nat.cast_pos.mpr positive
  have isSum : (n : K) = b * (n / b : ℕ) + (n % b : ℕ) := by
    exact_mod_cast (Nat.div_add_mod n b).symm
  have isQuot : (n : K) / b = (n / b : ℕ) + (n % b : ℕ) / b := by
    rw [isSum, add_div, mul_div_cancel_left₀ _ positive'.ne']
  have restPos : (0 : K) ≤ (n % b : ℕ) / b := by positivity
  have lessOne : (n % b : ℕ) / (b : K) < 1 := by
    rw [div_lt_one positive']
    exact_mod_cast Nat.mod_lt n positive
  generalize n / b = k at isQuot ⊢
  split
  · have less : (n % b : ℕ) / (b : K) < 1 / 2 := by
      rw [div_lt_div_iff₀ positive' two_pos]
      exact_mod_cast (by omega : n % b * 2 < 1 * b)
    refine roundEven_eq ?_ ?_ <;> rw [isQuot] <;> push_cast <;> linarith
  · have more : 1 / 2 < (n % b : ℕ) / (b : K) := by
      rw [div_lt_div_iff₀ two_pos positive']
      exact_mod_cast (by omega : 1 * b < n % b * 2)
    refine roundEven_eq ?_ ?_ <;> rw [isQuot] <;> push_cast <;> linarith

/-- A power of two is not half of an odd multiple of a smaller number. -/
theorem two_mul_mod_ne {n b : ℕ} (less : b < 2 ^ n) (positive : 0 < b) :
    2 * (2 ^ n % b) ≠ b := by
  intro tie
  have isSum := Nat.div_add_mod (2 ^ n) b
  have divides : 2 * (2 ^ n / b) + 1 ∣ 2 ^ n := ⟨2 ^ n % b, by nlinarith⟩
  rcases (Nat.dvd_prime_pow Nat.prime_two).mp divides with ⟨k, -, isPow⟩
  have quotient : 0 < 2 ^ n / b := Nat.div_pos less.le positive
  cases k with
  | zero => omega
  | succ k =>
    rw [pow_succ] at isPow
    omega

section quotient

variable {p a b : ℕ}

/-- How close the product of a number and its rounded reciprocal is to one. -/
theorem recip_near (precise : 1 ≤ p) (positive : 0 < b) :
    1 - 1 / (2 : K) ^ p < b * roundTo p (1 / (b : K)) ∧
      b * roundTo p (1 / (b : K)) < 1 + 1 / 2 ^ p := by
  have high : (b : K) < 2 ^ (b.log2 + 1) := by exact_mod_cast Nat.lt_log2_self
  have positive' : (0 : K) < b := Nat.cast_pos.mpr positive
  have scale : (0 : K) < 2 ^ (p + b.log2) := pow_pos two_pos _
  have error := roundEven_error ((2 : K) ^ (p + b.log2) / b)
  have isOne : 1 / (2 : K) ^ p = 2 ^ b.log2 / 2 ^ (p + b.log2) := by
    rw [pow_add, div_mul_cancel_right₀ (pow_ne_zero _ two_ne_zero), one_div]
  rw [roundTo_one_div precise positive, isOne]
  generalize roundEven ((2 : K) ^ (p + b.log2) / b) = m at error ⊢
  rw [le_div_iff₀ positive', div_le_iff₀ positive'] at error
  rw [pow_succ] at high
  generalize (2 : K) ^ (p + b.log2) = scale' at *
  constructor
  · rw [← mul_div_assoc, one_sub_div scale.ne', div_lt_div_iff_of_pos_right scale]
    nlinarith
  · rw [← mul_div_assoc, one_add_div scale.ne', div_lt_div_iff_of_pos_right scale]
    nlinarith

omit [FloorRing K] in
/-- How little is lost below `2 ^ (p - 1)`. -/
theorem error_le (precise : 1 ≤ p) (small : a < 2 ^ (p - 1)) :
    2 * ((a : K) + 1) * (1 / 2 ^ p) ≤ 1 := by
  rcases Nat.exists_eq_add_of_le' precise with ⟨q, rfl⟩
  have fits : 2 * (a + 1) ≤ 2 ^ (q + 1) := by
    rw [pow_succ]
    simp only [Nat.add_sub_cancel] at small
    omega
  rw [mul_one_div, div_le_one (by positivity)]
  exact_mod_cast fits

omit [FloorRing K] in
/-- A step below `2 ^ (p - 1)` is more than the error of a product. -/
theorem le_mul_one_sub (precise : 1 ≤ p) (small : a < 2 ^ (p - 1)) {x : K} (step : x + 1 ≤ a) :
    x ≤ a * (1 - 1 / 2 ^ p) := by
  have fits := error_le (K := K) precise small
  have width : (0 : K) < 1 / 2 ^ p := one_div_pos.mpr (pow_pos two_pos p)
  linarith

theorem recip_pos (precise : 1 ≤ p) (positive : 0 < b) : (0 : K) < roundTo p (1 / (b : K)) := by
  rcases recip_near (K := K) precise positive with ⟨near, -⟩
  have width : 1 / (2 : K) ^ p ≤ 1 :=
    (div_le_one (pow_pos two_pos p)).mpr (one_le_pow₀ one_le_two)
  have product := lt_of_le_of_lt (sub_nonneg.mpr width) near
  exact (mul_pos_iff_of_pos_left (Nat.cast_pos.mpr positive)).mp product

/-- The rounded product stays below the next integer. -/
theorem quotient_lt (precise : 1 ≤ p) (positive : 0 < b) (small : a < 2 ^ (p - 1)) (some : 0 < a) :
    roundTo p ((a : K) * roundTo p (1 / (b : K))) < (a / b : ℕ) + 1 := by
  rcases recip_near (K := K) precise positive with ⟨near, near'⟩
  have positive' : (0 : K) < b := Nat.cast_pos.mpr positive
  have some' : (0 : K) < a := Nat.cast_pos.mpr some
  have fits := error_le (K := K) precise small
  have width : (0 : K) < 1 / 2 ^ p := one_div_pos.mpr (pow_pos two_pos p)
  have product : (0 : K) < a * roundTo p (1 / (b : K)) := mul_pos some' (recip_pos precise positive)
  generalize roundTo p (1 / (b : K)) = r at near near' product ⊢
  have next : a + 1 ≤ (a / b + 1) * b :=
    (Nat.div_lt_iff_lt_mul positive).mp (Nat.lt_succ_self _)
  have inRange : a / b + 1 ≤ 2 ^ (p - 1) := (Nat.succ_le_succ (Nat.div_le_self a b)).trans small
  generalize a / b = q at *
  have next : (a : K) + 1 ≤ ((q + 1 : ℕ) : K) * b := by exact_mod_cast next
  have gap := halfGap_le (K := K) (p := p) (c := q + 1) (by omega)
  rw [← not_le, show (q : K) + 1 = ((q + 1 : ℕ) : K) by push_cast; rfl,
    natCast_le_roundTo_iff (by omega) inRange precise product, not_le]
  generalize ((q + 1 : ℕ) : K) = c at *
  rw [div_eq_mul_one_div] at gap
  generalize (1 : K) / 2 ^ p = w at *
  refine lt_of_mul_lt_mul_right ?_ positive'.le
  calc (a : K) * r * b = a * (b * r) := by ring
    _ < a * (1 + w) := (mul_lt_mul_iff_right₀ some').mpr near'
    _ ≤ (a + 1) * (1 - w) := by linarith
    _ ≤ c * b * (1 - w) := by
      have lost := mul_nonneg some'.le width.le
      exact mul_le_mul_of_nonneg_right next (by linarith)
    _ ≤ (c - halfGap K p (q + 1)) * b := by
      have lost := mul_le_mul_of_nonneg_right gap positive'.le
      linarith

/-- By how much the reciprocal falls short. -/
theorem mul_recip_eq (precise : 1 ≤ p) (positive : 0 < b) :
    (b : K) * roundTo p (1 / (b : K)) =
      if 2 * rest p b < b then 1 - (rest p b : K) / 2 ^ (p + b.log2)
      else 1 + ((b : K) - rest p b) / 2 ^ (p + b.log2) := by
  have less : b < 2 ^ (p + b.log2) := by
    refine Nat.lt_log2_self.trans_le (Nat.pow_le_pow_right (by decide) ?_)
    omega
  have noTie := two_mul_mod_ne less positive
  have scale : ((2 ^ (p + b.log2) : ℕ) : K) = 2 ^ (p + b.log2) := by push_cast; rfl
  have isSum : (b : K) * (2 ^ (p + b.log2) / b : ℕ) + (2 ^ (p + b.log2) % b : ℕ) =
      2 ^ (p + b.log2) := by
    rw [← scale]
    exact_mod_cast Nat.div_add_mod (2 ^ (p + b.log2)) b
  have nonzero : (2 : K) ^ (p + b.log2) ≠ 0 := pow_ne_zero _ two_ne_zero
  rw [roundTo_one_div precise positive, ← scale, roundEven_div positive noTie, scale]
  unfold rest
  generalize 2 ^ (p + b.log2) / b = k at isSum ⊢
  generalize 2 ^ (p + b.log2) % b = r at isSum ⊢
  split
  · rw [← mul_div_assoc, one_sub_div nonzero, ← isSum]
    push_cast
    congr 1
    ring
  · rw [← mul_div_assoc, one_add_div nonzero, ← isSum]
    push_cast
    congr 1
    ring

omit [FloorRing K] in
/-- Whether the product with the reciprocal is rounded back to the quotient. -/
theorem shortfall_le_iff (q : ℕ) :
    (q : K) * rest p b / 2 ^ (p + b.log2) ≤ halfGap K p q ↔
      (if q = 2 ^ q.log2 then 2 else 1) * (q * rest p b) ≤ 2 ^ (b.log2 + q.log2) := by
  have scale : (0 : K) < 2 ^ p := pow_pos two_pos p
  have scale' : (0 : K) < 2 ^ b.log2 := pow_pos two_pos _
  unfold halfGap
  split
  · rw [div_le_div_iff₀ (by positivity) (by positivity), pow_succ, pow_add,
      ← Nat.cast_le (α := K)]
    push_cast
    rw [pow_add]
    constructor
    · intro le
      refine le_of_mul_le_mul_left ?_ scale
      linarith
    · intro le
      have scaled := mul_le_mul_of_nonneg_left le scale.le
      linarith
  · rw [div_le_div_iff₀ (by positivity) (by positivity), pow_add, ← Nat.cast_le (α := K)]
    push_cast
    rw [pow_add]
    constructor
    · intro le
      refine le_of_mul_le_mul_left ?_ scale
      linarith
    · intro le
      have scaled := mul_le_mul_of_nonneg_left le scale.le
      linarith

/-- The rounded product reaches the quotient unless it is misrounded. -/
theorem le_quotient_iff (precise : 1 ≤ p) (positive : 0 < b) (small : a < 2 ^ (p - 1))
    (some : 0 < a) :
    ((a / b : ℕ) : K) ≤ roundTo p ((a : K) * roundTo p (1 / (b : K))) ↔ ¬ Misrounded p a b := by
  rcases recip_near (K := K) precise positive with ⟨near, -⟩
  have positive' : (0 : K) < b := Nat.cast_pos.mpr positive
  have some' : (0 : K) < a := Nat.cast_pos.mpr some
  have product : (0 : K) < a * roundTo p (1 / (b : K)) := mul_pos some' (recip_pos precise positive)
  rcases Nat.eq_zero_or_pos (a / b) with zero | one
  · refine iff_of_true ?_ ?_
    · rw [zero, Nat.cast_zero]
      exact roundTo_nonneg precise product.le
    · rintro ⟨-, -, more⟩
      simp [zero] at more
  rw [natCast_le_roundTo_iff one ((Nat.div_le_self a b).trans small.le) precise product]
  have gapPos := halfGap_pos (K := K) p (a / b)
  by_cases divides : b ∣ a
  · have isProduct : (a : K) * roundTo p (1 / (b : K)) =
        (a / b : ℕ) * (b * roundTo p (1 / (b : K))) := by
      have isA : (a : K) = b * (a / b : ℕ) := by exact_mod_cast (Nat.mul_div_cancel' divides).symm
      rw [← mul_assoc, mul_comm _ (b : K), ← isA]
    rw [isProduct, mul_recip_eq precise positive]
    unfold Misrounded
    rw [and_iff_right divides]
    generalize a / b = q at one gapPos ⊢
    split
    · rw [and_iff_right ‹_›, not_lt, mul_one_sub, sub_le_sub_iff_left, ← mul_div_assoc]
      exact shortfall_le_iff q
    · refine iff_of_true ?_ fun misrounded => absurd misrounded.1 ‹_›
      have less : (rest p b : K) ≤ b := Nat.cast_le.mpr (Nat.mod_lt _ positive).le
      have nonneg : (0 : K) ≤ ((b : K) - rest p b) / 2 ^ (p + b.log2) :=
        div_nonneg (sub_nonneg.mpr less) (pow_pos two_pos _).le
      have more := mul_nonneg (Nat.cast_nonneg (α := K) q) nonneg
      linarith
  · refine iff_of_true (le_trans (sub_le_self _ gapPos.le) ?_) fun misrounded =>
      divides misrounded.1
    have below : a / b * b + 1 ≤ a := by
      have isSum := Nat.div_add_mod a b
      have some : 0 < a % b := Nat.pos_of_ne_zero fun zero => divides (Nat.dvd_of_mod_eq_zero zero)
      nlinarith
    have below : ((a / b : ℕ) : K) * b + 1 ≤ a := by exact_mod_cast below
    refine le_of_mul_le_mul_right ?_ positive'
    generalize roundTo p (1 / (b : K)) = r at near ⊢
    calc ((a / b : ℕ) : K) * b ≤ a * (1 - 1 / 2 ^ p) := le_mul_one_sub precise small below
      _ ≤ a * (b * r) := (mul_lt_mul_iff_right₀ some').mpr near |>.le
      _ = a * r * b := by ring

/-- The quotient that the division by the rounded reciprocal yields. -/
def approxQuotient (p a b : ℕ) : ℕ := if Misrounded p a b then a / b - 1 else a / b

/-- A misrounded quotient is at least one. -/
theorem Misrounded.one_le (misrounded : Misrounded p a b) : 1 ≤ a / b := by
  rw [Nat.one_le_iff_ne_zero]
  intro zero
  have more := misrounded.2.2
  simp [zero] at more

/-- The rounded product is short of the quotient by less than one. -/
theorem pred_le_roundTo (precise : 1 ≤ p) (positive : 0 < b) (small : a < 2 ^ (p - 1))
    (some : 0 < a) :
    ((a / b - 1 : ℕ) : K) ≤ roundTo p ((a : K) * roundTo p (1 / (b : K))) := by
  rcases recip_near (K := K) precise positive with ⟨near, -⟩
  have positive' : (0 : K) < b := Nat.cast_pos.mpr positive
  have some' : (0 : K) < a := Nat.cast_pos.mpr some
  have product : (0 : K) < a * roundTo p (1 / (b : K)) := mul_pos some' (recip_pos precise positive)
  have below : (a / b - 1) * b + 1 ≤ a := by
    have := Nat.div_mul_le_self a b
    rw [Nat.sub_mul, one_mul]
    omega
  have inRange : a / b - 1 ≤ 2 ^ (p - 1) :=
    (Nat.sub_le _ _).trans ((Nat.div_le_self a b).trans small.le)
  generalize roundTo p (1 / (b : K)) = r at near product ⊢
  generalize a / b - 1 = c at below inRange ⊢
  have below : (c : K) * b + 1 ≤ a := by exact_mod_cast below
  rcases Nat.eq_zero_or_pos c with rfl | positiveC
  · rw [Nat.cast_zero]
    exact roundTo_nonneg precise product.le
  · rw [natCast_le_roundTo_iff positiveC inRange precise product]
    refine le_trans (sub_le_self _ (halfGap_pos p c).le) (le_of_mul_le_mul_right ?_ positive')
    calc (c : K) * b ≤ a * (1 - 1 / 2 ^ p) := le_mul_one_sub precise small below
      _ ≤ a * (b * r) := (mul_lt_mul_iff_right₀ some').mpr near |>.le
      _ = a * r * b := by ring

/-- A divisor of more than `p` bits gives no quotient. -/
theorem roundTo_mul_recip_lt_one (precise : 1 ≤ p) (large : 2 ^ p ≤ b) (small : a < 2 ^ (p - 1))
    (some : 0 < a) : roundTo p ((a : K) * roundTo p (1 / roundTo p (b : K))) < 1 := by
  have some' : (0 : K) < a := Nat.cast_pos.mpr some
  have large' : (2 : K) ^ (p : ℤ) ≤ roundTo p (b : K) := by
    refine zpow_le_roundTo precise ?_
    rw [zpow_natCast]
    exact_mod_cast large
  have power : (0 : K) < 2 ^ (p : ℤ) := zpow_pos two_pos _
  have recip : roundTo p (1 / roundTo p (b : K)) ≤ 2 ^ (-(p : ℤ)) := by
    refine roundTo_le_zpow precise (one_div_pos.mpr (power.trans_le large')) ?_
    rw [zpow_neg, ← one_div]
    exact one_div_le_one_div_of_le power large'
  have recip' : 0 ≤ roundTo p (1 / roundTo p (b : K)) :=
    roundTo_nonneg precise (one_div_nonneg.mpr (power.le.trans large'))
  have half : (2 : K) ^ (-1 : ℤ) < 1 := by norm_num
  rcases recip'.eq_or_lt with zero | positive
  · rw [← zero, mul_zero, roundTo_zero]
    exact zero_lt_one
  · refine lt_of_le_of_lt (roundTo_le_zpow precise (mul_pos some' positive) ?_) half
    have bound : (a : K) ≤ 2 ^ ((p : ℤ) - 1) := by
      have isPow : (2 : K) ^ ((p : ℤ) - 1) = ((2 ^ (p - 1) : ℕ) : K) := by
        rw [show (p : ℤ) - 1 = ((p - 1 : ℕ) : ℤ) by omega, zpow_natCast]
        push_cast
        rfl
      rw [isPow]
      exact Nat.cast_le.mpr small.le
    calc (a : K) * roundTo p (1 / roundTo p (b : K))
        ≤ 2 ^ ((p : ℤ) - 1) * 2 ^ (-(p : ℤ)) := mul_le_mul bound recip recip' (zpow_pos two_pos _).le
      _ = 2 ^ (-1 : ℤ) := by
        rw [← zpow_add₀ two_ne_zero]
        congr 1
        ring

/-- The quotient below `2 ^ (p - 1)`. -/
theorem floor_mul_recip (precise : 1 ≤ p) (positive : 0 < b) (small : a < 2 ^ (p - 1)) :
    ⌊roundTo p ((a : K) * roundTo p (1 / roundTo p (b : K)))⌋ = approxQuotient p a b := by
  rcases Nat.eq_zero_or_pos a with rfl | some
  · have exact' : ¬ Misrounded p 0 b := fun misrounded => by simpa using misrounded.one_le
    simp [approxQuotient, exact']
  rw [Int.floor_eq_iff]
  by_cases fits : b < 2 ^ p
  · rw [roundTo_natCast fits]
    have below := quotient_lt (K := K) precise positive small some
    have above := le_quotient_iff (K := K) precise positive small some
    unfold approxQuotient
    split
    · have one := Misrounded.one_le ‹_›
      have short : roundTo p ((a : K) * roundTo p (1 / (b : K))) < (a / b : ℕ) := by
        rw [← not_le, above]
        exact not_not.mpr ‹_›
      have isPred : (((a / b - 1 : ℕ) : ℤ) : K) + 1 = (a / b : ℕ) := by
        rw [Int.cast_natCast]
        exact_mod_cast Nat.sub_add_cancel one
      rw [isPred, Int.cast_natCast]
      exact ⟨pred_le_roundTo precise positive small some, short⟩
    · rw [Int.cast_natCast]
      exact ⟨above.mpr ‹_›, below⟩
  · have zero : a / b = 0 := by
      refine Nat.div_eq_of_lt (small.trans_le ((Nat.pow_le_pow_right (by decide) ?_).trans
        (not_lt.mp fits)))
      omega
    have exact' : ¬ Misrounded p a b := fun misrounded => by
      have := misrounded.one_le
      omega
    rw [approxQuotient, if_neg exact', zero]
    have nonneg : 0 ≤ roundTo p (1 / roundTo p (b : K)) :=
      roundTo_nonneg precise (one_div_nonneg.mpr (roundTo_nonneg precise (Nat.cast_nonneg b)))
    refine ⟨?_, ?_⟩
    · simpa using roundTo_nonneg precise (mul_nonneg (Nat.cast_nonneg a) nonneg)
    · simpa using roundTo_mul_recip_lt_one (K := K) precise (not_lt.mp fits) small some

end quotient

end CoralReef.Rounding
