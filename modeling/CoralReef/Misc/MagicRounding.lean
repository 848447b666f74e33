import CoralReef.Misc.Rounding

/-!
# Rounding by a magic number

With `p + 1` significant bits, adding and subtracting `2 ^ p` rounds small numbers to integers. From
`2 ^ p` on, where every number is an integer already, both steps round to fewer bits.
-/

namespace CoralReef.Rounding

variable {K : Type} [Field K] [LinearOrder K] [IsStrictOrderedRing K] [FloorRing K]

/-- Add a number and subtract it again, with `p + 1` significant bits. -/
def magicRound (p : ℕ) (magic x : K) : K :=
  roundTo (p + 1) (roundTo (p + 1) (x + magic) - magic)

theorem magicRound_neg (p : ℕ) (magic x : K) :
    magicRound p (-magic) (-x) = -magicRound p magic x := by
  have inner : -x + -magic = -(x + magic) := by ring
  have outer (a : K) : -a - -magic = -(a - magic) := by ring
  unfold magicRound
  rw [inner, roundTo_neg, outer, roundTo_neg]

/-! ## Numbers on a grid -/

/-- A number of `p + 1` bits and a fraction is rounded as the integer is. -/
theorem roundTo_scaled {p : ℕ} {q : K} (k : ℤ) (low : 2 ^ p ≤ q) (high : q ≤ 2 ^ (p + 1)) :
    roundTo (p + 1) (q * 2 ^ k) = roundEven q * 2 ^ k := by
  have unit : (0 : K) < 2 ^ k := zpow_pos two_pos k
  have isPower (e : ℕ) : (2 : K) ^ ((e : ℤ) + k) = 2 ^ e * 2 ^ k := by
    rw [zpow_add₀ two_ne_zero, zpow_natCast]
  rcases high.lt_or_eq with less | rfl
  · have isUlp : ((p : ℤ) + k) - (p + 1 : ℕ) + 1 = k := by
      push_cast
      ring
    have above : q * 2 ^ k < 2 ^ ((p : ℤ) + k + 1) := by
      have isNext : (p : ℤ) + k + 1 = ((p + 1 : ℕ) : ℤ) + k := by
        push_cast
        ring
      rw [isNext, isPower]
      exact mul_lt_mul_of_pos_right less unit
    rw [roundTo_eq (e := (p : ℤ) + k) (isPower p ▸ mul_le_mul_of_nonneg_right low unit.le) above,
      isUlp, mul_div_cancel_right₀ _ unit.ne']
  · rw [← isPower, roundTo_zpow (by omega), isPower]
    have isInt : (2 : K) ^ (p + 1) = ((2 ^ (p + 1) : ℤ) : K) := by
      push_cast
      rfl
    rw [isInt, roundEven_intCast]

theorem roundTo_grid {p n : ℕ} (k : ℤ) (low : 2 ^ p ≤ n) (high : n ≤ 2 ^ (p + 1)) :
    roundTo (p + 1) ((n : K) * 2 ^ k) = n * 2 ^ k := by
  have isInt : ((n : ℤ) : K) = n := Int.cast_natCast n
  rw [roundTo_scaled k (by exact_mod_cast low) (by exact_mod_cast high), ← isInt,
    roundEven_intCast]

/-- What is near an even integer is rounded to it. -/
theorem roundEven_even {n : ℤ} {x : K} (even : n % 2 = 0) (low : (n : K) - 1 / 2 ≤ x)
    (high : x ≤ n + 1 / 2) : roundEven x = n := by
  refine le_antisymm ?_ ?_
  · by_contra more
    have above : n + 1 ≤ roundEven x := by omega
    rcases le_roundEven_iff.mp above with less | ⟨-, even'⟩
    · push_cast at less
      linarith
    · omega
  · refine le_roundEven_iff.mpr ?_
    rcases low.lt_or_eq with less | tie
    · exact .inl less
    · exact .inr ⟨tie, even⟩

/-- A number of `p + 1` bits that is large. -/
structure OnGrid (p : ℕ) (x : K) (n k : ℕ) : Prop where
  eq : x = n * 2 ^ k
  low : 2 ^ p ≤ n
  high : n < 2 ^ (p + 1)

/-- What is rounded to itself is small or on the grid of its binade. -/
theorem exists_onGrid {p : ℕ} {x : K} (isRounded : roundTo (p + 1) x = x) (large : 2 ^ p ≤ x) :
    ∃ n k, OnGrid p x n k := by
  have positive : 0 < x := (pow_pos two_pos p).trans_le large
  rcases exists_binade positive with ⟨e, low, high⟩
  have exponent : (p : ℤ) < e + 1 := by
    rw [← zpow_lt_zpow_iff_right₀ (one_lt_two (α := K)), zpow_natCast]
    exact large.trans_lt high
  rcases Int.eq_ofNat_of_zero_le (by omega : 0 ≤ e - p) with ⟨k, isK⟩
  have isUlp : e - (p + 1 : ℕ) + 1 = k := by
    push_cast
    omega
  rw [roundTo_eq low high, isUlp, zpow_natCast] at isRounded
  have unit : (0 : K) < 2 ^ k := pow_pos two_pos k
  generalize roundEven (x / 2 ^ k) = m at isRounded
  have isExponent : e = (p : ℤ) + k := by omega
  rw [isExponent, zpow_add₀ two_ne_zero, zpow_natCast, zpow_natCast, ← isRounded,
    mul_le_mul_iff_of_pos_right unit] at low
  rw [isExponent, zpow_add_one₀ two_ne_zero, zpow_add₀ two_ne_zero, zpow_natCast, zpow_natCast,
    ← isRounded, mul_right_comm, mul_lt_mul_iff_of_pos_right unit, ← pow_succ] at high
  have low : 2 ^ p ≤ m := by exact_mod_cast low
  have high : m < 2 ^ (p + 1) := by exact_mod_cast high
  rcases Int.eq_ofNat_of_zero_le (le_trans (pow_nonneg two_pos.le p) low) with ⟨n, rfl⟩
  refine ⟨n, k, ?_, by exact_mod_cast low, by exact_mod_cast high⟩
  rw [← isRounded]
  exact_mod_cast rfl

/-! ## Small numbers -/

theorem roundEven_add_even {m : ℤ} (even : m % 2 = 0) (x : K) :
    roundEven (x + m) = roundEven x + m := by
  unfold roundEven
  have isFloor : ⌊x + m⌋ = ⌊x⌋ + m := Int.floor_add_intCast x m
  have same : x + m - ((⌊x⌋ + m : ℤ) : K) = x - ⌊x⌋ := by
    push_cast
    ring
  dsimp only
  rw [isFloor, same]
  split_ifs <;> omega

/-- Small numbers are rounded to integers. -/
theorem magicRound_small {p : ℕ} (precise : 1 ≤ p) {x : K} (nonneg : 0 ≤ x) (small : x < 2 ^ p) :
    magicRound p (2 ^ p) x = roundEven x := by
  rcases Nat.exists_eq_add_of_le' precise with ⟨r, rfl⟩
  have even : ((2 ^ (r + 1) : ℕ) : ℤ) % 2 = 0 := by
    rw [pow_succ]
    omega
  have isInt : (2 : K) ^ (r + 1) = (((2 ^ (r + 1) : ℕ) : ℤ) : K) := by
    push_cast
    rfl
  have first : roundTo (r + 2) (x + 2 ^ (r + 1)) = roundEven x + 2 ^ (r + 1) := by
    have scaled := roundTo_scaled (p := r + 1) (q := x + 2 ^ (r + 1)) 0 (by linarith) (by
      rw [pow_succ _ (r + 1)]
      linarith)
    rw [zpow_zero, mul_one, mul_one] at scaled
    refine scaled.trans ?_
    rw [isInt, roundEven_add_even even]
    push_cast
    rfl
  have bounds : 0 ≤ roundEven x ∧ roundEven x ≤ 2 ^ (r + 1) := by
    refine ⟨le_roundEven (by simpa using nonneg), roundEven_le ?_⟩
    push_cast
    exact small.le
  unfold magicRound
  rw [first, add_sub_cancel_right]
  rcases Int.eq_ofNat_of_zero_le bounds.1 with ⟨n, isN⟩
  have less : n < 2 ^ (r + 1 + 1) := by
    have upper := bounds.2
    rw [isN] at upper
    have upper : n ≤ 2 ^ (r + 1) := by exact_mod_cast upper
    have := Nat.two_pow_pos (r + 1)
    rw [pow_succ]
    omega
  rw [isN, Int.cast_natCast]
  exact roundTo_natCast less

/-! ## Large numbers -/

theorem pow_split {F : Type} [Field F] {p k : ℕ} (le : k ≤ p) :
    (2 : F) ^ p = 2 ^ (p - k) * 2 ^ k := by
  rw [← pow_add, Nat.sub_add_cancel le]

section large

variable {p n k : ℕ}

theorem sum_eq {F : Type} [Field F] (le : k ≤ p) :
    (n : F) * 2 ^ k + 2 ^ p = ((n + 2 ^ (p - k) : ℕ) : F) * 2 ^ k := by
  rw [pow_split le]
  push_cast
  ring

theorem roundTo_grid' {m : ℕ} (low : 2 ^ p ≤ m) (high : m ≤ 2 ^ (p + 1)) :
    roundTo (p + 1) ((m : K) * 2 ^ k) = m * 2 ^ k := by
  have grid := roundTo_grid (K := K) (k : ℤ) low high
  rwa [zpow_natCast] at grid

/-- A sum of few bits is exact. -/
theorem magicRound_short (low : 2 ^ p ≤ n) (high : n < 2 ^ (p + 1)) (le : k ≤ p)
    (short : n + 2 ^ (p - k) ≤ 2 ^ (p + 1)) :
    magicRound p (2 ^ p) ((n : K) * 2 ^ k) = n * 2 ^ k := by
  unfold magicRound
  rw [sum_eq le, roundTo_grid' (low.trans (Nat.le_add_right _ _)) short, ← sum_eq le,
    add_sub_cancel_right, roundTo_grid' low high.le]

/-- A sum of one more bit is that of its half. -/
theorem roundTo_long (le : k ≤ p) (high : n < 2 ^ (p + 1))
    (long : 2 ^ (p + 1) < n + 2 ^ (p - k)) :
    roundTo (p + 1) ((n : K) * 2 ^ k + 2 ^ p) =
      roundEven (((n + 2 ^ (p - k) : ℕ) : K) / 2) * 2 ^ (k + 1) := by
  have half : ((n + 2 ^ (p - k) : ℕ) : K) * 2 ^ k =
      ((n + 2 ^ (p - k) : ℕ) : K) / 2 * 2 ^ ((k + 1 : ℕ) : ℤ) := by
    rw [zpow_natCast, pow_succ]
    ring
  have small : 2 ^ (p - k) ≤ 2 ^ p := Nat.pow_le_pow_right two_pos (Nat.sub_le p k)
  rw [sum_eq le, half, roundTo_scaled, zpow_natCast]
  · rw [le_div_iff₀ two_pos]
    have : 2 ^ p * 2 ≤ n + 2 ^ (p - k) := by
      rw [← pow_succ]
      exact long.le
    exact_mod_cast this
  · rw [div_le_iff₀ two_pos]
    have : n + 2 ^ (p - k) ≤ 2 ^ (p + 1) * 2 := by
      have isNext : 2 ^ (p + 1) = 2 ^ p * 2 := pow_succ 2 p
      omega
    exact_mod_cast this

/-- An even sum is exact. -/
theorem magicRound_even (low : 2 ^ p ≤ n) (high : n < 2 ^ (p + 1)) (le : k ≤ p)
    (even : n % 2 = 0) : magicRound p (2 ^ p) ((n : K) * 2 ^ k) = n * 2 ^ k := by
  by_cases short : n + 2 ^ (p - k) ≤ 2 ^ (p + 1)
  · exact magicRound_short low high le short
  · have long := not_le.mp short
    have less : k < p := by
      by_contra more
      rw [(by omega : p - k = 0)] at long
      omega
    rcases Nat.exists_eq_add_of_lt less with ⟨j, isJ⟩
    have isSum : n + 2 ^ (p - k) = 2 * (n / 2 + 2 ^ j) := by
      rw [(by omega : p - k = j + 1), pow_succ]
      omega
    have isInt : ((n + 2 ^ (p - k) : ℕ) : K) / 2 = ((n / 2 + 2 ^ j : ℕ) : ℤ) := by
      rw [isSum, Int.cast_natCast, Nat.cast_mul, Nat.cast_ofNat, mul_div_cancel_left₀ _ two_ne_zero]
    have exact' : roundTo (p + 1) ((n : K) * 2 ^ k + 2 ^ p) = n * 2 ^ k + 2 ^ p := by
      rw [roundTo_long le high long, isInt, roundEven_intCast, ← isInt, sum_eq le, pow_succ]
      ring
    unfold magicRound
    rw [exact', add_sub_cancel_right, roundTo_grid' low high.le]

/-- An odd sum is rounded to one of its neighbours, of which the half is even. -/
theorem magicRound_odd (high : n < 2 ^ (p + 1)) (le : k ≤ p) (odd : n % 2 = 1)
    (long : 2 ^ (p + 1) < n + 2 ^ (p - k)) (low : 2 ^ p < n) :
    ∃ c, n + 2 ^ (p - k) = 2 * c + 1 ∧ magicRound p (2 ^ p) ((n : K) * 2 ^ k) =
      ((if c % 2 = 0 then n - 1 else n + 1 : ℕ) : K) * 2 ^ k := by
  have less : k < p := by
    by_contra more
    rw [(by omega : p - k = 0)] at long
    omega
  rcases Nat.exists_eq_add_of_lt less with ⟨j, isJ⟩
  have isPower : 2 ^ (p - k) = 2 * 2 ^ j := by
    rw [(by omega : p - k = j + 1), pow_succ, Nat.mul_comm]
  refine ⟨n / 2 + 2 ^ j, by omega, ?_⟩
  have isSum : n + 2 ^ (p - k) = 2 * (n / 2 + 2 ^ j) + 1 := by omega
  generalize n / 2 + 2 ^ j = c at isSum
  have isHalf : roundEven (((n + 2 ^ (p - k) : ℕ) : K) / 2) = ((c + c % 2 : ℕ) : ℤ) := by
    refine roundEven_even (by omega) ?_ ?_ <;> rw [isSum] <;>
      rcases Nat.mod_two_eq_zero_or_one c with even | odd <;>
      · first | rw [even] | rw [odd]
        push_cast
        linarith
  have rounded : roundTo (p + 1) ((n : K) * 2 ^ k + 2 ^ p) - 2 ^ p =
      ((if c % 2 = 0 then n - 1 else n + 1 : ℕ) : K) * 2 ^ k := by
    rw [roundTo_long le high long, isHalf, Int.cast_natCast, pow_split (F := K) le, pow_succ]
    have isCount : 2 * (c + c % 2) = (if c % 2 = 0 then n - 1 else n + 1) + 2 ^ (p - k) := by
      split <;> omega
    have isCount : 2 * ((c + c % 2 : ℕ) : K) =
        ((if c % 2 = 0 then n - 1 else n + 1 : ℕ) : K) + 2 ^ (p - k) := by
      exact_mod_cast isCount
    calc ((c + c % 2 : ℕ) : K) * (2 ^ k * 2) - 2 ^ (p - k) * 2 ^ k
        = (2 * ((c + c % 2 : ℕ) : K) - 2 ^ (p - k)) * 2 ^ k := by ring
      _ = _ := by rw [isCount]; ring
  unfold magicRound
  rw [rounded]
  refine roundTo_grid' ?_ ?_ <;> split <;> omega

/-- The binade in which the magic number is the half of a unit. -/
theorem magicRound_half (low : 2 ^ p < n) (high : n < 2 ^ (p + 1)) :
    magicRound p (2 ^ p) ((n : K) * 2 ^ (p + 1)) = ((n + n % 2 : ℕ) : K) * 2 ^ (p + 1) := by
  have low' : (2 : K) ^ p + 1 ≤ n := by exact_mod_cast low
  have high' : (n : K) + 1 ≤ 2 ^ (p + 1) := by exact_mod_cast high
  have near : (n : K) ≤ ((n + n % 2 : ℕ) : K) ∧ ((n + n % 2 : ℕ) : K) ≤ n + 1 := by
    constructor
    · exact_mod_cast Nat.le_add_right _ _
    · exact_mod_cast (by omega : n + n % 2 ≤ n + 1)
  have even : (((n + n % 2 : ℕ) : ℤ)) % 2 = 0 := by omega
  have isCast : (((n + n % 2 : ℕ) : ℤ) : K) = ((n + n % 2 : ℕ) : K) := Int.cast_natCast _
  have first : (n : K) * 2 ^ (p + 1) + 2 ^ p = (n + 1 / 2) * 2 ^ ((p + 1 : ℕ) : ℤ) := by
    rw [zpow_natCast, pow_succ]
    ring
  have second : ((n + n % 2 : ℕ) : K) * 2 ^ ((p + 1 : ℕ) : ℤ) - 2 ^ p =
      (((n + n % 2 : ℕ) : K) - 1 / 2) * 2 ^ ((p + 1 : ℕ) : ℤ) := by
    rw [zpow_natCast, pow_succ]
    ring
  unfold magicRound
  rw [first, roundTo_scaled _ (by linarith) (by linarith),
    roundEven_even even (by rw [isCast]; linarith) (by rw [isCast]; linarith), isCast, second,
    roundTo_scaled _ (by linarith) (by linarith),
    roundEven_even even (by rw [isCast]) (by rw [isCast]; linarith), isCast, zpow_natCast]

/-- The first number of that binade. -/
theorem magicRound_power (precise : 1 ≤ p) :
    magicRound p (2 ^ p) ((2 : K) ^ p * 2 ^ (p + 1)) = (2 ^ (p + 1) - 1) * 2 ^ p := by
  rcases Nat.exists_eq_add_of_le' precise with ⟨r, rfl⟩
  have even : ((2 ^ (r + 1) : ℕ) : ℤ) % 2 = 0 := by
    rw [pow_succ]
    omega
  have isCast : (((2 ^ (r + 1) : ℕ) : ℤ) : K) = 2 ^ (r + 1) := by
    push_cast
    rfl
  have first : (2 : K) ^ (r + 1) * 2 ^ (r + 1 + 1) + 2 ^ (r + 1) =
      (2 ^ (r + 1) + 1 / 2) * 2 ^ ((r + 1 + 1 : ℕ) : ℤ) := by
    rw [zpow_natCast, pow_succ _ (r + 1)]
    ring
  have one : (1 : K) ≤ 2 ^ (r + 1) := one_le_pow₀ one_le_two
  have isNat : (2 : K) ^ (r + 1 + 1) - 1 = ((2 ^ (r + 1 + 1) - 1 : ℕ) : K) := by
    rw [Nat.cast_sub Nat.one_le_two_pow]
    push_cast
    rfl
  have second : (2 : K) ^ (r + 1) * 2 ^ ((r + 1 + 1 : ℕ) : ℤ) - 2 ^ (r + 1) =
      (2 ^ (r + 1 + 1) - 1) * 2 ^ (r + 1) := by
    rw [zpow_natCast]
    ring
  unfold magicRound
  rw [first, roundTo_scaled _ (by linarith) (by rw [pow_succ _ (r + 1)]; linarith),
    roundEven_even even (by rw [isCast]; linarith) (by rw [isCast]), isCast, second, isNat,
    roundTo_grid' ?_ (Nat.sub_le _ _)]
  have isNext : 2 ^ (r + 1 + 1) = 2 ^ (r + 1) * 2 := pow_succ 2 (r + 1)
  have positive : 0 < 2 ^ (r + 1) := Nat.two_pow_pos _
  rw [isNext]
  exact Nat.le_sub_one_of_lt (by linarith)

omit [FloorRing K] in
theorem unit_le_half (positive : 1 ≤ k) : (1 : K) / 2 ^ k ≤ 1 / 2 := by
  have two : (2 : K) ^ 1 ≤ 2 ^ k := pow_le_pow_right₀ one_le_two positive
  rw [pow_one] at two
  exact one_div_le_one_div_of_le two_pos two

omit [FloorRing K] in
theorem unit_le_quarter (two : 2 ≤ k) : (1 : K) / 2 ^ k ≤ 1 / 4 := by
  have four : (2 : K) ^ 2 ≤ 2 ^ k := pow_le_pow_right₀ one_le_two two
  exact one_div_le_one_div_of_le (by norm_num) (by linarith)

/-- Where the magic number is less than the half of a unit nothing is lost. -/
theorem magicRound_large (low : 2 ^ p ≤ n) (high : n < 2 ^ (p + 1)) (more : p + 1 < k) :
    magicRound p (2 ^ p) ((n : K) * 2 ^ k) = n * 2 ^ k := by
  rcases Nat.exists_eq_add_of_lt more with ⟨j, rfl⟩
  have unit : (0 : K) < 2 ^ (p + 1 + j + 1) := pow_pos two_pos _
  have isInt : ((n : ℤ) : K) = n := Int.cast_natCast n
  have low' : (2 : K) ^ p ≤ n := by exact_mod_cast low
  have high' : (n : K) + 1 ≤ 2 ^ (p + 1) := by exact_mod_cast high
  -- The magic number, in units of the operand.
  have isMagic : (2 : K) ^ p = 1 / 2 ^ (j + 2) * 2 ^ (p + 1 + j + 1) := by
    have isPower : (2 : K) ^ (p + 1 + j + 1) = 2 ^ p * 2 ^ (j + 2) := by
      rw [← pow_add]
      congr 1
      omega
    rw [isPower]
    field_simp
  have positive : (0 : K) < 1 / 2 ^ (j + 2) := by positivity
  have small : (1 : K) / 2 ^ (j + 2) ≤ 1 / 4 := unit_le_quarter (Nat.le_add_left 2 j)
  unfold magicRound
  generalize (1 : K) / 2 ^ (j + 2) = t at isMagic positive small
  have first : (n : K) * 2 ^ (p + 1 + j + 1) + 2 ^ p =
      (n + t) * 2 ^ ((p + 1 + j + 1 : ℕ) : ℤ) := by
    rw [isMagic, zpow_natCast]
    ring
  have isFirst : roundEven ((n : K) + t) = n :=
    roundEven_eq (by rw [isInt]; linarith) (by rw [isInt]; linarith)
  rw [first, roundTo_scaled _ (by linarith) (by linarith), isFirst, isInt, zpow_natCast]
  rcases low.lt_or_eq with less | isPower
  · have less : (2 : K) ^ p + 1 ≤ n := by exact_mod_cast less
    have second : (n : K) * 2 ^ (p + 1 + j + 1) - 2 ^ p =
        (n - t) * 2 ^ ((p + 1 + j + 1 : ℕ) : ℤ) := by
      rw [isMagic, zpow_natCast]
      ring
    have isSecond : roundEven ((n : K) - t) = n :=
      roundEven_eq (by rw [isInt]; linarith) (by rw [isInt]; linarith)
    rw [second, roundTo_scaled _ (by linarith) (by linarith), isSecond, isInt, zpow_natCast]
  · have isPower : (n : K) = 2 ^ p := by exact_mod_cast isPower.symm
    have second : (n : K) * 2 ^ (p + 1 + j + 1) - 2 ^ p =
        (2 ^ (p + 1) - 2 * t) * 2 ^ ((p + 1 + j : ℕ) : ℤ) := by
      have isNext : (2 : K) ^ (p + 1) = n * 2 := by rw [pow_succ, isPower]
      rw [isMagic, isNext, zpow_natCast, pow_succ _ (p + 1 + j)]
      ring
    have isCast : (((2 ^ (p + 1) : ℕ) : ℤ) : K) = 2 ^ (p + 1) := by
      push_cast
      rfl
    have even : ((2 ^ (p + 1) : ℕ) : ℤ) % 2 = 0 := by
      rw [pow_succ]
      omega
    have one : (1 : K) ≤ 2 ^ p := one_le_pow₀ one_le_two
    have isSecond : roundEven ((2 : K) ^ (p + 1) - 2 * t) = (2 ^ (p + 1) : ℕ) :=
      roundEven_even even (by rw [isCast]; linarith) (by rw [isCast]; linarith)
    rw [second, roundTo_scaled _ (by rw [pow_succ]; linarith) (by linarith), isSecond, isCast,
      zpow_natCast, isPower, pow_succ _ (p + 1 + j), pow_succ]
    ring

theorem roundTo_add_one {m : ℕ} (low : 2 ^ p ≤ m) (high : m < 2 ^ (p + 1)) (positive : 1 ≤ k)
    (near : m % 2 = 0 ∨ 2 ≤ k) : roundTo (p + 1) ((m : K) * 2 ^ k + 1) = m * 2 ^ k := by
  have low' : (2 : K) ^ p ≤ m := by exact_mod_cast low
  have high' : (m : K) + 1 ≤ 2 ^ (p + 1) := by exact_mod_cast high
  have isInt : ((m : ℤ) : K) = m := Int.cast_natCast m
  have unit : (0 : K) < 2 ^ k := pow_pos two_pos k
  have inUnits : (m : K) * 2 ^ k + 1 = (m + 1 / 2 ^ k) * 2 ^ (k : ℤ) := by
    rw [zpow_natCast, add_mul, one_div_mul_cancel unit.ne']
  have above : (0 : K) < 1 / 2 ^ k := one_div_pos.mpr unit
  have half := unit_le_half (K := K) positive
  have isRounded : roundEven ((m : K) + 1 / 2 ^ k) = m := by
    rcases near with even | two
    · exact roundEven_even (by omega) (by rw [isInt]; linarith) (by rw [isInt]; linarith)
    · have quarter := unit_le_quarter (K := K) two
      exact roundEven_eq (by rw [isInt]; linarith) (by rw [isInt]; linarith)
  rw [inUnits, roundTo_scaled _ (by linarith) (by linarith), isRounded, isInt, zpow_natCast]

theorem roundTo_sub_one {m : ℕ} (low : 2 ^ p < m) (high : m ≤ 2 ^ (p + 1)) (positive : 1 ≤ k)
    (even : m % 2 = 0) : roundTo (p + 1) ((m : K) * 2 ^ k - 1) = m * 2 ^ k := by
  have low' : (2 : K) ^ p + 1 ≤ m := by exact_mod_cast low
  have high' : (m : K) ≤ 2 ^ (p + 1) := by exact_mod_cast high
  have isInt : ((m : ℤ) : K) = m := Int.cast_natCast m
  have unit : (0 : K) < 2 ^ k := pow_pos two_pos k
  have inUnits : (m : K) * 2 ^ k - 1 = (m - 1 / 2 ^ k) * 2 ^ (k : ℤ) := by
    rw [zpow_natCast, sub_mul, one_div_mul_cancel unit.ne']
  have above : (0 : K) < 1 / 2 ^ k := one_div_pos.mpr unit
  have half := unit_le_half (K := K) positive
  have isRounded : roundEven ((m : K) - 1 / 2 ^ k) = m :=
    roundEven_even (by omega) (by rw [isInt]; linarith) (by rw [isInt]; linarith)
  rw [inUnits, roundTo_scaled _ (by linarith) (by linarith), isRounded, isInt, zpow_natCast]

/-- The numbers of the grid that are kept. -/
def GridRight (p n k : ℕ) : Prop :=
  k ≤ p ∧ (n % 2 = 0 ∨ n + 2 ^ (p - k) ≤ 2 ^ (p + 1)) ∨ k = p + 1 ∧ n % 2 = 0 ∧ n ≠ 2 ^ p ∨
    p + 1 < k

theorem magicRound_kept {x : K} (grid : OnGrid p x n k) (right : GridRight p n k) :
    magicRound p (2 ^ p) x = x := by
  rcases grid with ⟨rfl, low, high⟩
  rcases right with ⟨le, even | short⟩ | ⟨rfl, even, other⟩ | more
  · exact magicRound_even low high le even
  · exact magicRound_short low high le short
  · rw [magicRound_half (lt_of_le_of_ne low (Ne.symm other)) high, even, Nat.add_zero]
  · exact magicRound_large low high more

/-- The other numbers are rounded away, by one where the unit is one, and by more than one can
bring back where it is not. -/
theorem magicRound_off (precise : 2 ≤ p) {x : K} (grid : OnGrid p x n k)
    (wrong : ¬ GridRight p n k) :
    (x < magicRound p (2 ^ p) x ∧
      (if k = 0 then magicRound p (2 ^ p) x = x + 1 ∧ n % 4 = 3
      else roundTo (p + 1) (magicRound p (2 ^ p) x - 1) = magicRound p (2 ^ p) x)) ∨
    (magicRound p (2 ^ p) x < x ∧
      (if k = 0 then magicRound p (2 ^ p) x = x - 1 ∧ n % 4 = 1
      else roundTo (p + 1) (magicRound p (2 ^ p) x + 1) = magicRound p (2 ^ p) x)) := by
  rcases grid with ⟨rfl, low, high⟩
  rcases Nat.exists_eq_add_of_le' precise with ⟨r, isP⟩
  have four : 2 ^ p = 4 * 2 ^ r := by
    rw [isP, pow_add, Nat.mul_comm]
    rfl
  have isNext : 2 ^ (p + 1) = 2 * 2 ^ p := by
    rw [pow_succ, Nat.mul_comm]
  have unit : (0 : K) < 2 ^ k := pow_pos two_pos k
  have up : (n : K) * 2 ^ k < ((n + 1 : ℕ) : K) * 2 ^ k :=
    mul_lt_mul_of_pos_right (by exact_mod_cast Nat.lt_succ_self n) unit
  rcases (by omega : k ≤ p ∨ k = p + 1 ∨ p + 1 < k) with le | isHalf | more
  · have odd : n % 2 = 1 := by
      by_contra even
      exact wrong (.inl ⟨le, .inl (by omega)⟩)
    have long : 2 ^ (p + 1) < n + 2 ^ (p - k) := by
      by_contra short
      exact wrong (.inl ⟨le, .inr (by omega)⟩)
    have above : 2 ^ p < n := by omega
    have down : ((n - 1 : ℕ) : K) * 2 ^ k < (n : K) * 2 ^ k :=
      mul_lt_mul_of_pos_right (by exact_mod_cast (by omega : n - 1 < n)) unit
    rcases magicRound_odd (K := K) high le odd long above with ⟨c, isSum, rounded⟩
    rw [rounded]
    by_cases even : c % 2 = 0
    · rw [if_pos even]
      refine .inr ⟨down, ?_⟩
      by_cases zero : k = 0
      · subst zero
        rw [if_pos rfl, pow_zero, mul_one, mul_one, Nat.cast_sub (by omega), Nat.cast_one]
        refine ⟨rfl, ?_⟩
        rw [Nat.sub_zero] at isSum
        omega
      · rw [if_neg zero]
        exact roundTo_add_one (by omega) (by omega) (by omega) (.inl (by omega))
    · rw [if_neg even]
      refine .inl ⟨up, ?_⟩
      by_cases zero : k = 0
      · subst zero
        rw [if_pos rfl, pow_zero, mul_one, mul_one, Nat.cast_add, Nat.cast_one]
        refine ⟨rfl, ?_⟩
        rw [Nat.sub_zero] at isSum
        omega
      · rw [if_neg zero]
        exact roundTo_sub_one (by omega) (by omega) (by omega) (by omega)
  · subst isHalf
    rw [if_neg (Nat.succ_ne_zero p), if_neg (Nat.succ_ne_zero p)]
    by_cases isPower : n = 2 ^ p
    · have isCast : (n : K) = 2 ^ p := by exact_mod_cast isPower
      have isNat : (2 : K) ^ (p + 1) - 1 = ((2 ^ (p + 1) - 1 : ℕ) : K) := by
        rw [Nat.cast_sub Nat.one_le_two_pow]
        push_cast
        rfl
      refine .inr ?_
      rw [isCast, magicRound_power (by omega), isNat]
      constructor
      · rw [← isNat, mul_comm ((2 : K) ^ p)]
        exact mul_lt_mul_of_pos_right (by linarith) (pow_pos two_pos p)
      · exact roundTo_add_one (by omega) (by omega) (by omega) (.inr precise)
    · have odd : n % 2 = 1 := by
        by_contra even
        exact wrong (.inr (.inl ⟨rfl, by omega, isPower⟩))
      rw [magicRound_half (lt_of_le_of_ne low (Ne.symm isPower)) high, odd]
      exact .inl ⟨up, roundTo_sub_one (by omega) (by omega) (by omega) (by omega)⟩
  · exact absurd (.inr (.inr more)) wrong

end large

/-! ## The floor -/

/-- Rounding by a magic number of the sign of the operand. -/
def signedRound (p : ℕ) (x : K) : K :=
  if x < 0 then magicRound p (-2 ^ p) x else magicRound p (2 ^ p) x

/-- The floor, from the rounded number. -/
def magicFloor (p : ℕ) (x : K) : K :=
  if x < signedRound p x then roundTo (p + 1) (signedRound p x - 1) else signedRound p x

/-- The numbers that are rounded to the nearest integer. -/
def MagicRight (p : ℕ) (x : K) : Prop :=
  |x| < 2 ^ p ∨ ∃ n k, OnGrid p |x| n k ∧ GridRight p n k

/-- The numbers whose floor is right: those that are rounded to the nearest integer, and the odd
integers that are rounded up by one. -/
def FloorRight (p : ℕ) (x : K) : Prop :=
  MagicRight p x ∨ ∃ n, OnGrid p |x| n 0 ∧ (0 < x ∧ n % 4 = 3 ∨ x < 0 ∧ n % 4 = 1)

section floor

variable {p : ℕ} {x : K}

theorem magicRound_zero (precise : 1 ≤ p) : magicRound p (2 ^ p) (0 : K) = 0 := by
  have small := magicRound_small precise (le_refl (0 : K)) (pow_pos two_pos p)
  have zero : roundEven (0 : K) = 0 := by
    rw [← Int.cast_zero, roundEven_intCast]
  rw [small, zero, Int.cast_zero]

theorem signedRound_neg (precise : 1 ≤ p) (x : K) : signedRound p (-x) = -signedRound p x := by
  unfold signedRound
  rcases lt_trichotomy x 0 with negative | rfl | positive
  · rw [if_neg (by linarith), if_pos negative, ← magicRound_neg, neg_neg]
  · rw [neg_zero, if_neg (lt_irrefl _), magicRound_zero precise, neg_zero]
  · rw [if_pos (by linarith), if_neg (by linarith), magicRound_neg]

omit [IsStrictOrderedRing K] in
theorem signedRound_nonneg (nonneg : 0 ≤ x) : signedRound p x = magicRound p (2 ^ p) x :=
  if_neg (not_lt.mpr nonneg)

theorem signedRound_small (precise : 1 ≤ p) (small : |x| < 2 ^ p) :
    signedRound p x = roundEven x := by
  rcases lt_or_ge x 0 with negative | nonneg
  · rw [abs_of_neg negative] at small
    have mirrored := magicRound_small precise (by linarith) small
    have isNeg := signedRound_neg precise x
    rw [signedRound_nonneg (by linarith), mirrored, roundEven_neg, Int.cast_neg] at isNeg
    exact (neg_injective isNeg).symm
  · rw [abs_of_nonneg nonneg] at small
    rw [signedRound_nonneg nonneg, magicRound_small precise nonneg small]

theorem signedRound_abs (precise : 1 ≤ p) (x : K) :
    signedRound p x = if x < 0 then -magicRound p (2 ^ p) |x| else magicRound p (2 ^ p) |x| := by
  split
  · rename_i negative
    rw [abs_of_neg negative, ← signedRound_nonneg (by linarith), signedRound_neg precise, neg_neg]
  · rename_i nonneg
    rw [abs_of_nonneg (not_lt.mp nonneg), signedRound_nonneg (not_lt.mp nonneg)]

omit [IsStrictOrderedRing K] [FloorRing K] in
theorem onGrid_int {n k : ℕ} (grid : OnGrid p |x| n k) : ∃ m : ℤ, x = m := by
  rcases abs_choice x with isAbs | isAbs
  · refine ⟨n * 2 ^ k, ?_⟩
    rw [← isAbs, grid.eq]
    push_cast
    rfl
  · refine ⟨-(n * 2 ^ k), ?_⟩
    rw [← neg_neg x, ← isAbs, grid.eq]
    push_cast
    rfl

theorem exists_grid (isRounded : roundTo (p + 1) x = x) (large : ¬ |x| < 2 ^ p) :
    ∃ n k, OnGrid p |x| n k := by
  refine exists_onGrid ?_ (not_lt.mp large)
  rcases abs_choice x with isAbs | isAbs
  · rw [isAbs, isRounded]
  · rw [isAbs, roundTo_neg, isRounded]

theorem signedRound_kept (precise : 1 ≤ p) {n k : ℕ} (grid : OnGrid p |x| n k)
    (right : GridRight p n k) : signedRound p x = x := by
  rw [signedRound_abs precise, magicRound_kept grid right]
  split
  · rename_i negative
    rw [abs_of_neg negative, neg_neg]
  · rename_i nonneg
    exact abs_of_nonneg (not_lt.mp nonneg)

/-- Which numbers are rounded to the nearest integer. -/
theorem signedRound_eq_iff (precise : 2 ≤ p) (isRounded : roundTo (p + 1) x = x) :
    signedRound p x = roundEven x ↔ MagicRight p x := by
  have one : 1 ≤ p := by omega
  by_cases small : |x| < 2 ^ p
  · exact iff_of_true (signedRound_small one small) (.inl small)
  · rcases exists_grid isRounded small with ⟨n, k, grid⟩
    have isInt : (roundEven x : K) = x := by
      rcases onGrid_int grid with ⟨m, isM⟩
      rw [isM, roundEven_intCast]
    rw [isInt]
    constructor
    · intro kept
      by_contra wrong
      have notRight : ¬ GridRight p n k := fun right => wrong (.inr ⟨n, k, grid, right⟩)
      rw [signedRound_abs one] at kept
      have same : magicRound p (2 ^ p) |x| = |x| := by
        rcases lt_or_ge x 0 with negative | nonneg
        · rw [if_pos negative] at kept
          rw [abs_of_neg negative] at kept ⊢
          linarith
        · rw [if_neg (not_lt.mpr nonneg)] at kept
          rw [abs_of_nonneg nonneg] at kept ⊢
          exact kept
      rcases magicRound_off precise grid notRight with ⟨less, -⟩ | ⟨less, -⟩
      · exact less.ne' same
      · exact less.ne same
    · rintro (never | ⟨n', k', grid', right⟩)
      · exact absurd never small
      · exact signedRound_kept one grid' right

theorem roundTo_intCast {m : ℤ} (small : m.natAbs < 2 ^ p) : roundTo p (m : K) = m := by
  rcases Int.natAbs_eq m with isNat | isNeg
  · rw [isNat, Int.cast_natCast]
    exact roundTo_natCast small
  · rw [isNeg, Int.cast_neg, Int.cast_natCast, roundTo_neg, roundTo_natCast small]

/-- The floor of a small number. -/
theorem magicFloor_small (precise : 1 ≤ p) (small : |x| < 2 ^ p) : magicFloor p x = ⌊x⌋ := by
  have low := Int.floor_le x
  have high := Int.lt_floor_add_one x
  rcases abs_lt.mp small with ⟨above, below⟩
  have error := roundEven_error x
  unfold magicFloor
  rw [signedRound_small precise small]
  split
  · rename_i less
    have isNext : roundEven x = ⌊x⌋ + 1 := by
      have more : ⌊x⌋ < roundEven x := by exact_mod_cast low.trans_lt less
      have : (roundEven x : K) < ((⌊x⌋ + 2 : ℤ) : K) := by
        push_cast
        linarith
      have : roundEven x < ⌊x⌋ + 2 := by exact_mod_cast this
      omega
    have bounds : -(2 ^ p : ℤ) ≤ ⌊x⌋ ∧ ⌊x⌋ < 2 ^ p := by
      constructor
      · refine Int.le_floor.mpr ?_
        push_cast
        linarith
      · have : (⌊x⌋ : K) < ((2 ^ p : ℤ) : K) := by
          push_cast
          linarith
        exact_mod_cast this
    have isFloor : (roundEven x : K) - 1 = ⌊x⌋ := by
      rw [isNext]
      push_cast
      ring
    rw [isFloor]
    refine roundTo_intCast ?_
    have isNext : (2 : ℤ) ^ (p + 1) = 2 * 2 ^ p := by ring
    have := pow_pos (two_pos (α := ℤ)) p
    zify
    rw [isNext, abs_lt]
    omega
  · rename_i notLess
    have le : roundEven x ≤ ⌊x⌋ := Int.le_floor.mpr (not_lt.mp notLess)
    have ge : ⌊x⌋ ≤ roundEven x := le_roundEven low
    rw [le_antisymm le ge]

/-- The floor of a number of the grid, of either sign. -/
theorem magicFloor_grid (precise : 2 ≤ p) {n k : ℕ} (grid : OnGrid p |x| n k)
    (wrong : ¬ GridRight p n k) :
    magicFloor p x = x ↔ k = 0 ∧ (0 < x ∧ n % 4 = 3 ∨ x < 0 ∧ n % 4 = 1) := by
  have one : 1 ≤ p := by omega
  have positive : 0 < |x| := by
    rw [grid.eq]
    have : 0 < n := (Nat.two_pow_pos p).trans_le grid.low
    exact mul_pos (by exact_mod_cast this) (pow_pos two_pos k)
  have isSigned := signedRound_abs one x
  have off := magicRound_off precise grid wrong
  have isRounded : roundTo (p + 1) |x| = |x| := by
    rw [grid.eq, roundTo_grid' grid.low grid.high.le]
  unfold magicFloor
  generalize magicRound p (2 ^ p) |x| = r at isSigned off
  rcases lt_or_gt_of_ne (abs_pos.mp positive) with negative | nonneg
  · have notPositive : ¬ 0 < x := negative.not_gt
    have isAbs : x = -|x| := by rw [abs_of_neg negative, neg_neg]
    rw [if_pos negative] at isSigned
    simp only [isSigned, notPositive, negative, false_and, true_and, false_or]
    generalize |x| = a at isAbs off isRounded
    subst isAbs
    rcases off with ⟨less, off⟩ | ⟨less, off⟩
    · have notLess : ¬ -a < -r := by linarith
      rw [if_neg notLess]
      refine iff_of_false (by intro same; linarith) ?_
      rintro ⟨rfl, one⟩
      rw [if_pos rfl] at off
      omega
    · have isSum : -r - 1 = -(r + 1) := by ring
      rw [if_pos (neg_lt_neg less), isSum, roundTo_neg, neg_inj]
      by_cases zero : k = 0
      · rw [if_pos zero] at off
        refine iff_of_true ?_ ⟨zero, off.2⟩
        rw [off.1, sub_add_cancel, isRounded]
      · rw [if_neg zero] at off
        exact iff_of_false (by rw [off]; exact less.ne) fun never => zero never.1
  · have notNegative : ¬ x < 0 := nonneg.not_gt
    have isAbs : x = |x| := (abs_of_pos nonneg).symm
    rw [if_neg notNegative] at isSigned
    simp only [isSigned, notNegative, nonneg, false_and, true_and, or_false]
    generalize |x| = a at isAbs off isRounded
    subst isAbs
    rcases off with ⟨less, off⟩ | ⟨less, off⟩
    · rw [if_pos less]
      by_cases zero : k = 0
      · rw [if_pos zero] at off
        refine iff_of_true ?_ ⟨zero, off.2⟩
        rw [off.1, add_sub_cancel_right, isRounded]
      · rw [if_neg zero] at off
        exact iff_of_false (by rw [off]; exact less.ne') fun never => zero never.1
    · rw [if_neg less.not_gt]
      refine iff_of_false less.ne ?_
      rintro ⟨rfl, three⟩
      rw [if_pos rfl] at off
      omega

/-- Which numbers are rounded to the integer below. -/
theorem magicFloor_eq_iff (precise : 2 ≤ p) (isRounded : roundTo (p + 1) x = x) :
    magicFloor p x = ⌊x⌋ ↔ FloorRight p x := by
  have one : 1 ≤ p := by omega
  by_cases small : |x| < 2 ^ p
  · exact iff_of_true (magicFloor_small one small) (.inl (.inl small))
  · rcases exists_grid isRounded small with ⟨n, k, grid⟩
    have isInt : (⌊x⌋ : K) = x := by
      rcases onGrid_int grid with ⟨m, isM⟩
      rw [isM, Int.floor_intCast]
    rw [isInt]
    have kept {n k : ℕ} (grid : OnGrid p |x| n k) (right : GridRight p n k) :
        magicFloor p x = x := by
      unfold magicFloor
      rw [signedRound_kept one grid right, if_neg (lt_irrefl x)]
    constructor
    · intro right
      by_cases isRight : GridRight p n k
      · exact .inl (.inr ⟨n, k, grid, isRight⟩)
      · rcases (magicFloor_grid precise grid isRight).mp right with ⟨rfl, odd⟩
        exact .inr ⟨n, grid, odd⟩
    · rintro ((never | ⟨n', k', grid', right⟩) | ⟨n', grid', odd⟩)
      · exact absurd never small
      · exact kept grid' right
      · by_cases isRight : GridRight p n' 0
        · exact kept grid' isRight
        · exact (magicFloor_grid precise grid' isRight).mpr ⟨rfl, odd⟩

/-! ## Rounded numbers -/

/-- Rounding keeps the scale. -/
theorem roundTo_mul_zpow (p : ℕ) (x : K) (e : ℤ) :
    roundTo p (x * 2 ^ e) = roundTo p x * 2 ^ e := by
  have scale : (0 : K) < 2 ^ e := zpow_pos two_pos e
  have positive {x : K} (positive : 0 < x) : roundTo p (x * 2 ^ e) = roundTo p x * 2 ^ e := by
    rcases exists_binade positive with ⟨e', low, high⟩
    have low' : (2 : K) ^ (e' + e) ≤ x * 2 ^ e := by
      rw [zpow_add₀ two_ne_zero]
      exact mul_le_mul_of_nonneg_right low scale.le
    have high' : x * 2 ^ e < (2 : K) ^ (e' + e + 1) := by
      rw [add_right_comm, zpow_add₀ two_ne_zero (e' + 1)]
      exact mul_lt_mul_of_pos_right high scale
    have isUlp : (2 : K) ^ (e' + e - p + 1) = 2 ^ (e' - p + 1) * 2 ^ e := by
      rw [← zpow_add₀ two_ne_zero]
      congr 1
      ring
    rw [roundTo_eq low high, roundTo_eq low' high', isUlp,
      mul_div_mul_right _ _ scale.ne', mul_assoc]
  rcases lt_trichotomy x 0 with negative | rfl | above
  · have mirrored := positive (neg_pos.mpr negative)
    rwa [neg_mul, roundTo_neg, roundTo_neg, neg_mul, neg_inj] at mirrored
  · rw [zero_mul, roundTo_zero, zero_mul]
  · exact positive above

/-- Numbers of at most `p` significant bits, with exponents of any size. -/
def IsDyadic (p : ℕ) (x : K) : Prop := ∃ m e : ℤ, m.natAbs < 2 ^ p ∧ x = m * 2 ^ e

theorem IsDyadic.roundTo {x : K} (isDyadic : IsDyadic p x) : roundTo p x = x := by
  rcases isDyadic with ⟨m, e, small, rfl⟩
  rw [roundTo_mul_zpow, roundTo_intCast small]

/-- What is rounded is rounded to itself. -/
theorem roundTo_roundTo (p : ℕ) (x : K) :
    roundTo (p + 1) (roundTo (p + 1) x) = roundTo (p + 1) x := by
  have positive {x : K} (positive : 0 < x) :
      roundTo (p + 1) (roundTo (p + 1) x) = roundTo (p + 1) x := by
    rcases exists_binade positive with ⟨e, low, high⟩
    have bounds := roundTo_binade (p := p + 1) (by omega) low high
    rcases bounds.2.lt_or_eq with less | isPower
    · have isUlp := roundTo_eq (p := p + 1) low high
      exact roundTo_self bounds.1 less isUlp
    · rw [isPower, roundTo_zpow (by omega)]
  rcases lt_trichotomy x 0 with negative | rfl | above
  · have mirrored := positive (neg_pos.mpr negative)
    rwa [roundTo_neg, roundTo_neg, neg_inj] at mirrored
  · rw [roundTo_zero, roundTo_zero]
  · exact positive above

theorem roundTo_signedRound (p : ℕ) (x : K) :
    roundTo (p + 1) (signedRound p x) = signedRound p x := by
  unfold signedRound
  split <;> exact roundTo_roundTo p _

theorem roundTo_magicFloor (p : ℕ) (x : K) :
    roundTo (p + 1) (magicFloor p x) = magicFloor p x := by
  unfold magicFloor
  split
  · exact roundTo_roundTo p _
  · exact roundTo_signedRound p x

/-- The floor of what is not negative is not negative. -/
theorem magicFloor_nonneg (precise : 1 ≤ p) (nonneg : 0 ≤ x) : 0 ≤ magicFloor p x := by
  by_cases small : |x| < 2 ^ p
  · rw [magicFloor_small precise small]
    exact_mod_cast Int.floor_nonneg.mpr nonneg
  · rw [abs_of_nonneg nonneg] at small
    have one : (1 : K) ≤ 2 ^ p := one_le_pow₀ one_le_two
    unfold magicFloor
    split
    · exact roundTo_nonneg (by omega) (by linarith)
    · have above := zpow_le_roundTo (K := K) (p := p + 1) (e := p) (x := x + 2 ^ p) (by omega) (by
        rw [zpow_natCast]
        linarith)
      rw [zpow_natCast] at above
      rw [signedRound_nonneg nonneg]
      exact roundTo_nonneg (by omega) (by linarith)

end floor

end CoralReef.Rounding
