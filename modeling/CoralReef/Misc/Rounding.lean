import Mathlib.Data.Int.Log
import Mathlib.Data.Rat.Floor
import Mathlib.Tactic.Positivity

/-!
# Rounding to significant bits

Rounding to the nearest number of `p` significant bits, ties to even, with exponents of any size.
-/

namespace CoralReef.Rounding

section

variable {K : Type} [Field K] [LinearOrder K] [IsStrictOrderedRing K]

/-! What lemmas about ordered fields ask for, found without a search through all classes. -/

scoped instance orderedRing : IsOrderedRing K := inferInstance
scoped instance zeroLEOne : ZeroLEOneClass K := inferInstance
scoped instance orderedAdd : IsOrderedAddMonoid K := inferInstance
scoped instance addLeftMono : AddLeftMono K := inferInstance
scoped instance addLeftStrictMono : AddLeftStrictMono K := inferInstance
scoped instance posMulMono : PosMulMono K := inferInstance
scoped instance mulPosMono : MulPosMono K := inferInstance
scoped instance existsAdd : ExistsAddOfLE K := inferInstance
scoped instance charZero : CharZero K := inferInstance
scoped instance twoAtLeast : Nat.AtLeastTwo 2 := inferInstance
scoped instance fourAtLeast : Nat.AtLeastTwo 4 := ⟨Nat.le_add_left 2 2⟩

end

variable {K : Type} [Field K] [LinearOrder K] [IsStrictOrderedRing K] [FloorRing K]
variable {x : K} {e : ℤ} {p : ℕ}

/-- The nearest integer, ties to even. -/
def roundEven (x : K) : ℤ :=
  let k := ⌊x⌋
  if x - k < 1 / 2 then k else if 1 / 2 < x - k then k + 1 else k + k % 2

/-- The nearest number of `p` significant bits, ties to even. -/
def roundTo (p : ℕ) (x : K) : K :=
  let ulp := (2 : K) ^ (Int.log 2 |x| - p + 1)
  roundEven (x / ulp) * ulp

/-! ## Integers -/

omit [FloorRing K] in
/-- Where one integer is nearest. -/
theorem le_near_iff {n k : ℤ} (low : (k : K) - 1 / 2 < x) (high : x < k + 1 / 2) :
    n ≤ k ↔ (n : K) - 1 / 2 < x ∨ ((n : K) - 1 / 2 = x ∧ n % 2 = 0) := by
  constructor
  · intro le
    have : (n : K) ≤ k := Int.cast_le.mpr le
    exact .inl (by linarith)
  · intro reached
    have least : (n : K) - 1 / 2 ≤ x := reached.elim le_of_lt fun tie => tie.1.le
    have : (n : K) < (k + 1 : ℤ) := by
      rw [Int.cast_add, Int.cast_one]
      linarith
    exact Int.lt_add_one_iff.mp (Int.cast_lt.mp this)

/-- An integer is reached from the half below it on, and at the half if it is even. -/
theorem le_roundEven_iff {n : ℤ} :
    n ≤ roundEven x ↔ (n : K) - 1 / 2 < x ∨ ((n : K) - 1 / 2 = x ∧ n % 2 = 0) := by
  have low := Int.floor_le x
  have high := Int.lt_floor_add_one x
  unfold roundEven
  generalize ⌊x⌋ = k at low high
  dsimp only
  split
  · exact le_near_iff (by linarith) (by linarith)
  split
  · apply le_near_iff <;> rw [Int.cast_add, Int.cast_one] <;> linarith
  have half : x = k + 1 / 2 := by linarith
  subst half
  rcases lt_trichotomy n (k + 1) with less | rfl | greater
  · have : (n : K) ≤ k := Int.cast_le.mpr (by omega)
    exact iff_of_true (by omega) (.inl (by linarith))
  · rw [Int.cast_add, Int.cast_one]
    constructor
    · intro le
      exact .inr ⟨by ring, by omega⟩
    · rintro (less | ⟨-, even⟩)
      · exact absurd less (by linarith)
      · omega
  · have : ((k + 2 : ℤ) : K) ≤ n := Int.cast_le.mpr (by omega)
    push_cast at this
    refine iff_of_false (by omega) ?_
    rintro (less | ⟨tie, -⟩) <;> linarith

theorem roundEven_eq {n : ℤ} (low : (n : K) - 1 / 2 < x) (high : x < n + 1 / 2) :
    roundEven x = n := by
  have above : n ≤ roundEven x := (le_roundEven_iff).mpr (.inl low)
  have below : ¬ n + 1 ≤ roundEven x := by
    rw [le_roundEven_iff]
    push_cast
    rintro (less | ⟨tie, -⟩) <;> linarith
  omega

@[simp] theorem roundEven_intCast (n : ℤ) : roundEven (n : K) = n :=
  roundEven_eq (by linarith) (by linarith)

theorem roundEven_neg (x : K) : roundEven (-x) = -roundEven x := by
  have each (n : ℤ) : n ≤ roundEven (-x) ↔ n ≤ -roundEven x := by
    have flip : n ≤ -roundEven x ↔ ¬ -n + 1 ≤ roundEven x := by omega
    rw [flip, le_roundEven_iff, le_roundEven_iff]
    push_cast
    rcases lt_trichotomy ((n : K) - 1 / 2) (-x) with less | tie | greater
    · refine iff_of_true (.inl less) ?_
      rintro (_ | ⟨_, _⟩) <;> linarith
    · have isX : x = -n + 1 / 2 := by linarith
      have parity : n % 2 = 0 ↔ ¬ (-n + 1) % 2 = 0 := by omega
      rw [isX]
      constructor
      · rintro (less | ⟨-, even⟩) (less' | ⟨-, odd⟩)
        · linarith
        · linarith
        · linarith
        · exact parity.mp even odd
      · intro odd
        refine .inr ⟨by ring, parity.mpr fun h => odd (.inr ⟨by ring, h⟩)⟩
    · refine iff_of_false ?_ fun never => never (.inl (by linarith))
      rintro (_ | ⟨_, _⟩) <;> linarith
  exact le_antisymm ((each _).mp le_rfl) ((each _).mpr le_rfl)

theorem roundEven_error (x : K) : (roundEven x : K) - 1 / 2 ≤ x ∧ x ≤ roundEven x + 1 / 2 := by
  constructor
  · rcases (le_roundEven_iff).mp (le_refl (roundEven x)) with less | ⟨tie, -⟩
    · exact less.le
    · exact tie.le
  · by_contra more
    have above : roundEven x + 1 ≤ roundEven x :=
      (le_roundEven_iff).mpr (.inl (by push_cast; linarith))
    omega

theorem roundEven_le {n : ℤ} (le : x ≤ n) : roundEven x ≤ n := by
  by_contra more
  have above : n + 1 ≤ roundEven x := by omega
  rcases (le_roundEven_iff).mp above with less | ⟨tie, -⟩
  · push_cast at less
    linarith
  · push_cast at tie
    linarith

theorem le_roundEven {n : ℤ} (le : (n : K) ≤ x) : n ≤ roundEven x :=
  (le_roundEven_iff).mpr (.inl (by linarith))

/-! ## Significant bits -/

theorem roundTo_neg (p : ℕ) (x : K) : roundTo p (-x) = -roundTo p x := by
  unfold roundTo
  dsimp only
  rw [abs_neg, neg_div, roundEven_neg]
  push_cast
  ring

@[simp] theorem roundTo_zero (p : ℕ) : roundTo p (0 : K) = 0 := by
  unfold roundTo
  dsimp only
  rw [zero_div, ← Int.cast_zero, roundEven_intCast]
  simp

/-- The exponent of a number in a binade. -/
theorem log_eq (low : (2 : K) ^ e ≤ x) (high : x < 2 ^ (e + 1)) :
    Int.log 2 x = e := by
  have positive : 0 < x := (zpow_pos two_pos e).trans_le low
  have above : e ≤ Int.log 2 x :=
    (Int.zpow_le_iff_le_log (by decide) positive).mp (by simpa using low)
  have below : Int.log 2 x < e + 1 :=
    (Int.lt_zpow_iff_log_lt (by decide) positive).mp (by simpa using high)
  omega

/-- Every positive number is in a binade. -/
theorem exists_binade (positive : 0 < x) : ∃ e : ℤ, (2 : K) ^ e ≤ x ∧ x < 2 ^ (e + 1) := by
  refine ⟨Int.log 2 x, ?_, ?_⟩
  · simpa using Int.zpow_log_le_self (b := 2) (by decide) positive
  · simpa using Int.lt_zpow_succ_log_self (b := 2) (by decide) x

theorem roundTo_eq (low : (2 : K) ^ e ≤ x) (high : x < 2 ^ (e + 1)) :
    roundTo p x = roundEven (x / 2 ^ (e - p + 1)) * 2 ^ (e - p + 1) := by
  have positive : 0 < x := (zpow_pos two_pos e).trans_le low
  unfold roundTo
  dsimp only
  rw [abs_of_pos positive, log_eq low high]

omit [FloorRing K] in
/-- The unit in the last place of a binade. -/
theorem zpow_ulp (e : ℤ) (p : ℕ) : (2 : K) ^ e = 2 ^ ((p : ℤ) - 1) * 2 ^ (e - p + 1) := by
  rw [← zpow_add₀ two_ne_zero]
  congr 1
  ring

/-- Rounding stays in a binade, or reaches its end. -/
theorem roundTo_binade (precise : 1 ≤ p) (low : (2 : K) ^ e ≤ x) (high : x < 2 ^ (e + 1)) :
    (2 : K) ^ e ≤ roundTo p x ∧ roundTo p x ≤ 2 ^ (e + 1) := by
  rcases Nat.exists_eq_add_of_le' precise with ⟨q, rfl⟩
  have isUlp := zpow_ulp (K := K) e (q + 1)
  have isUlp' : (2 : K) ^ (e + 1) = 2 ^ (q + 1) * 2 ^ (e - (q + 1 : ℕ) + 1) := by
    rw [zpow_add_one₀ two_ne_zero, isUlp, pow_succ, ← zpow_natCast]
    push_cast
    ring_nf
  have isUlp : (2 : K) ^ e = 2 ^ q * 2 ^ (e - (q + 1 : ℕ) + 1) := by
    rw [isUlp, ← zpow_natCast]
    push_cast
    ring_nf
  rw [roundTo_eq low high]
  have positive : (0 : K) < 2 ^ (e - (q + 1 : ℕ) + 1) := zpow_pos two_pos _
  generalize (2 : K) ^ (e - (q + 1 : ℕ) + 1) = u at isUlp isUlp' positive
  rw [isUlp] at low
  rw [isUlp'] at high
  have low' : ((2 ^ q : ℤ) : K) ≤ x / u := by
    rw [le_div_iff₀ positive]
    exact_mod_cast low
  have high' : x / u < ((2 ^ (q + 1) : ℤ) : K) := by
    rw [div_lt_iff₀ positive]
    exact_mod_cast high
  have above : (2 ^ q : ℤ) ≤ roundEven (x / u) := (le_roundEven_iff).mpr (.inl (by linarith))
  have below : roundEven (x / u) ≤ 2 ^ (q + 1) := by
    by_contra more
    rcases (le_roundEven_iff).mp (Int.lt_iff_add_one_le.mp (not_le.mp more)) with less | ⟨tie, -⟩
    · push_cast at less high'
      linarith
    · push_cast at tie high'
      linarith
  constructor
  · rw [isUlp]
    exact mul_le_mul_of_nonneg_right (by exact_mod_cast above) positive.le
  · rw [isUlp']
    exact mul_le_mul_of_nonneg_right (by exact_mod_cast below) positive.le

/-- Numbers of few bits are rounded to themselves. -/
theorem roundTo_self {n : ℤ} (low : (2 : K) ^ e ≤ x) (high : x < 2 ^ (e + 1))
    (onGrid : x = n * 2 ^ (e - p + 1)) : roundTo p x = x := by
  have positive : (0 : K) < 2 ^ (e - p + 1) := zpow_pos two_pos _
  rw [roundTo_eq low high, onGrid, mul_div_cancel_right₀ _ positive.ne', roundEven_intCast]

theorem roundTo_zpow (precise : 1 ≤ p) (e : ℤ) : roundTo p ((2 : K) ^ e) = 2 ^ e := by
  rcases Nat.exists_eq_add_of_le' precise with ⟨q, rfl⟩
  refine roundTo_self (n := 2 ^ q) le_rfl (zpow_lt_zpow_right₀ one_lt_two (by omega)) ?_
  rw [zpow_ulp e (q + 1)]
  push_cast
  rw [add_sub_cancel_right, zpow_natCast]

theorem roundTo_natCast {p n : ℕ} (small : n < 2 ^ p) : roundTo p (n : K) = n := by
  rcases Nat.eq_zero_or_pos n with rfl | positive
  · simp
  have low : 2 ^ n.log2 ≤ n := Nat.log2_self_le positive.ne'
  have high : n < 2 ^ (n.log2 + 1) := Nat.lt_log2_self
  have few : n.log2 < p := (Nat.pow_lt_pow_iff_right (by decide)).mp (low.trans_lt small)
  refine roundTo_self (e := n.log2) (n := n * 2 ^ (p - 1 - n.log2)) ?_ ?_ ?_
  · rw [zpow_natCast]
    exact_mod_cast low
  · exact_mod_cast high
  · push_cast
    rw [mul_assoc, ← zpow_natCast, ← zpow_add₀ two_ne_zero]
    have zero : ((p - 1 - n.log2 : ℕ) : ℤ) + (n.log2 - p + 1) = 0 := by omega
    rw [zero, zpow_zero, mul_one]

/-- An integer is rounded to an integer. -/
theorem exists_roundTo_natCast (p n : ℕ) : ∃ m : ℕ, roundTo p (n : K) = m := by
  by_cases small : n < 2 ^ p
  · exact ⟨n, roundTo_natCast small⟩
  · have positive : n ≠ 0 := by
      rintro rfl
      exact small (Nat.two_pow_pos p)
    have low : 2 ^ n.log2 ≤ n := Nat.log2_self_le positive
    have high : n < 2 ^ (n.log2 + 1) := Nat.lt_log2_self
    have wide : p ≤ n.log2 := by
      have := (not_lt.mp small).trans_lt high
      exact Nat.lt_succ_iff.mp ((Nat.pow_lt_pow_iff_right (by decide)).mp this)
    have isNat : (2 : K) ^ ((n.log2 : ℤ) - p + 1) = (2 ^ (n.log2 - p + 1) : ℕ) := by
      have exponent : (n.log2 : ℤ) - p + 1 = ((n.log2 - p + 1 : ℕ) : ℤ) := by omega
      rw [exponent, zpow_natCast]
      push_cast
      rfl
    have nonneg : 0 ≤ roundEven ((n : K) / 2 ^ ((n.log2 : ℤ) - p + 1)) := by
      refine le_roundEven ?_
      rw [Int.cast_zero]
      exact div_nonneg (Nat.cast_nonneg n) (zpow_pos two_pos _).le
    rcases Int.eq_ofNat_of_zero_le nonneg with ⟨k, isK⟩
    refine ⟨k * 2 ^ (n.log2 - p + 1), ?_⟩
    rw [roundTo_eq (e := n.log2) (by rw [zpow_natCast]; exact_mod_cast low)
      (by exact_mod_cast high), isK, isNat]
    push_cast
    rfl

theorem zpow_le_roundTo (precise : 1 ≤ p) (low : (2 : K) ^ e ≤ x) :
    (2 : K) ^ e ≤ roundTo p x := by
  rcases exists_binade ((zpow_pos two_pos e).trans_le low) with ⟨e', low', high'⟩
  have less : e < e' + 1 := (zpow_lt_zpow_iff_right₀ one_lt_two).mp (low.trans_lt high')
  refine le_trans ?_ (roundTo_binade precise low' high').1
  exact zpow_le_zpow_right₀ one_le_two (by omega)

theorem roundTo_le_zpow (precise : 1 ≤ p) (positive : 0 < x) (high : x ≤ (2 : K) ^ e) :
    roundTo p x ≤ 2 ^ e := by
  rcases exists_binade positive with ⟨e', low', high'⟩
  rcases lt_or_ge e' e with less | ge
  · refine (roundTo_binade precise low' high').2.trans ?_
    exact zpow_le_zpow_right₀ one_le_two (by omega)
  · have same : x = 2 ^ e' := le_antisymm (high.trans (zpow_le_zpow_right₀ one_le_two ge)) low'
    rw [same, roundTo_zpow precise]
    exact same ▸ high

theorem roundTo_nonneg (precise : 1 ≤ p) (nonneg : 0 ≤ x) : 0 ≤ roundTo p x := by
  rcases nonneg.eq_or_lt with rfl | positive
  · rw [roundTo_zero]
  · rcases exists_binade positive with ⟨e, low, -⟩
    exact (zpow_pos two_pos e).le.trans (zpow_le_roundTo precise low)

/-- When a number of few bits is reached: from the half of the gap below it on, and at the half if
its last bit is even. -/
theorem le_roundTo_iff (precise : 1 ≤ p) (positive : 0 < x) {e n : ℤ} (low : (2 : ℤ) ^ (p - 1) < n)
    (high : n ≤ 2 ^ p) :
    (n : K) * 2 ^ (e - p + 1) ≤ roundTo p x ↔
      ((n : K) - 1 / 2) * 2 ^ (e - p + 1) < x ∨
        (((n : K) - 1 / 2) * 2 ^ (e - p + 1) = x ∧ n % 2 = 0) := by
  rcases Nat.exists_eq_add_of_le' precise with ⟨q, rfl⟩
  have isUlp : (2 : K) ^ e = 2 ^ q * 2 ^ (e - (q + 1 : ℕ) + 1) := by
    rw [zpow_ulp e (q + 1), ← zpow_natCast]
    push_cast
    ring_nf
  have isUlp' : (2 : K) ^ (e + 1) = 2 ^ (q + 1) * 2 ^ (e - (q + 1 : ℕ) + 1) := by
    rw [zpow_add_one₀ two_ne_zero, isUlp]
    ring
  have unit : (0 : K) < 2 ^ (e - (q + 1 : ℕ) + 1) := zpow_pos two_pos _
  have low : ((2 : K) ^ q + 1) * 2 ^ (e - (q + 1 : ℕ) + 1) ≤ n * 2 ^ (e - (q + 1 : ℕ) + 1) := by
    refine mul_le_mul_of_nonneg_right ?_ unit.le
    have : (2 : ℤ) ^ q + 1 ≤ n := low
    exact_mod_cast this
  have high : (n : K) * 2 ^ (e - (q + 1 : ℕ) + 1) ≤ 2 ^ (e + 1) := by
    rw [isUlp']
    refine mul_le_mul_of_nonneg_right ?_ unit.le
    exact_mod_cast high
  by_cases below : x < 2 ^ e
  · have rounded := roundTo_le_zpow (p := q + 1) (by omega) positive below.le
    generalize (2 : K) ^ (e - (q + 1 : ℕ) + 1) = u at *
    refine iff_of_false ?_ ?_
    · rw [not_le]
      nlinarith
    · rintro (less | ⟨tie, -⟩) <;> nlinarith
  · by_cases above : x < 2 ^ (e + 1)
    · rw [roundTo_eq (not_lt.mp below) above]
      generalize (2 : K) ^ (e - (q + 1 : ℕ) + 1) = u at *
      rw [mul_le_mul_iff_of_pos_right unit, Int.cast_le, le_roundEven_iff, lt_div_iff₀ unit,
        eq_div_iff unit.ne']
    · have rounded := zpow_le_roundTo (p := q + 1) (by omega) (not_lt.mp above)
      generalize (2 : K) ^ (e - (q + 1 : ℕ) + 1) = u at *
      refine iff_of_true (high.trans rounded) (.inl ?_)
      nlinarith

omit [FloorRing K] in
theorem one_div_two_mul_zpow (m : ℤ) : 1 / 2 * (2 : K) ^ m = 2 ^ (m - 1) := by
  rw [zpow_sub_one₀ two_ne_zero, one_div, mul_comm]

/-- Half of the distance of a positive integer to the next number of `p` bits below it. -/
def halfGap (K : Type) [Field K] (p c : ℕ) : K :=
  if c = 2 ^ c.log2 then 2 ^ c.log2 / 2 ^ (p + 1) else 2 ^ c.log2 / 2 ^ p

/-- When a positive integer is reached. -/
theorem natCast_le_roundTo_iff {p c : ℕ} (one : 1 ≤ c) (small : c ≤ 2 ^ (p - 1)) (precise : 1 ≤ p)
    (positive : 0 < x) : (c : K) ≤ roundTo p x ↔ (c : K) - halfGap K p c ≤ x := by
  have low : 2 ^ c.log2 ≤ c := Nat.log2_self_le (by omega)
  have high : c < 2 ^ (c.log2 + 1) := Nat.lt_log2_self
  have reached {e n : ℤ} (above : (2 : ℤ) ^ (p - 1) < n) (below : n ≤ 2 ^ p) (even : n % 2 = 0)
      (isC : (c : K) = n * 2 ^ (e - p + 1)) (isGap : halfGap K p c = 1 / 2 * 2 ^ (e - p + 1)) :
      (c : K) ≤ roundTo p x ↔ (c : K) - halfGap K p c ≤ x := by
    rw [isGap, isC, ← sub_mul, le_roundTo_iff precise positive above below, and_iff_left even,
      ← le_iff_lt_or_eq]
  unfold halfGap at reached ⊢
  generalize c.log2 = t at *
  have two : (2 : K) ≠ 0 := two_ne_zero
  by_cases isPow : c = 2 ^ t
  · rw [if_pos isPow] at reached ⊢
    refine reached (e := (t : ℤ) - 1) (n := 2 ^ p) ?_ le_rfl ?_ ?_ ?_
    · exact_mod_cast Nat.pow_lt_pow_right (by decide) (by omega)
    · rcases Nat.exists_eq_add_of_le' precise with ⟨q, rfl⟩
      rw [pow_succ]
      omega
    · rw [isPow]
      push_cast
      rw [← zpow_natCast, ← zpow_natCast, ← zpow_add₀ two]
      congr 1
      ring
    · rw [← zpow_natCast, ← zpow_natCast, ← zpow_sub₀ two, one_div_two_mul_zpow]
      congr 1
      push_cast
      ring
  · rw [if_neg isPow] at reached ⊢
    have above : 2 ^ t < c := lt_of_le_of_ne low (Ne.symm isPow)
    have few : t < p - 1 := (Nat.pow_lt_pow_iff_right (by decide)).mp (above.trans_le small)
    rcases Nat.exists_eq_add_of_lt few with ⟨d, isPrecision⟩
    have isP : p = t + d + 2 := by omega
    subst isP
    have even : c * 2 ^ (d + 1) % 2 = 0 := by
      rw [pow_succ, ← mul_assoc, Nat.mul_mod_left]
    refine reached (e := t) (n := (c * 2 ^ (d + 1) : ℕ)) ?_ ?_ ?_ ?_ ?_
    · have : 2 ^ (t + d + 2 - 1) < c * 2 ^ (d + 1) := by
        rw [show t + d + 2 - 1 = t + (d + 1) by omega, pow_add]
        exact Nat.mul_lt_mul_of_pos_right above (by positivity)
      exact_mod_cast this
    · have : c * 2 ^ (d + 1) ≤ 2 ^ (t + d + 2) := by
        rw [show t + d + 2 = t + 1 + (d + 1) by omega, pow_add 2 (t + 1)]
        exact Nat.mul_le_mul_right _ high.le
      exact_mod_cast this
    · exact_mod_cast even
    · push_cast
      rw [mul_assoc, ← zpow_natCast, ← zpow_add₀ two]
      have zero : ((d + 1 : ℕ) : ℤ) + ((t : ℤ) - (t + d + 2) + 1) = 0 := by omega
      rw [zero, zpow_zero, mul_one]
    · rw [← zpow_natCast, ← zpow_natCast, ← zpow_sub₀ two, one_div_two_mul_zpow]
      congr 1
      push_cast
      ring

omit [FloorRing K] in
theorem halfGap_pos (p c : ℕ) : 0 < halfGap K p c := by
  unfold halfGap
  split <;> positivity

omit [FloorRing K] in
theorem halfGap_le {p c : ℕ} (one : 1 ≤ c) : halfGap K p c ≤ c / 2 ^ p := by
  have low : ((2 ^ c.log2 : ℕ) : K) ≤ c := Nat.cast_le.mpr (Nat.log2_self_le (by omega))
  push_cast at low
  have positive : (0 : K) < 2 ^ p := pow_pos two_pos p
  unfold halfGap
  split
  · refine le_trans ?_ (div_le_div_of_nonneg_right low positive.le)
    exact div_le_div_of_nonneg_left (by positivity) positive
      (pow_le_pow_right₀ one_le_two (Nat.le_succ p))
  · exact div_le_div_of_nonneg_right low positive.le

end CoralReef.Rounding
