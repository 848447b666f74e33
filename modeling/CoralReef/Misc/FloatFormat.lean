import CoralReef.Misc.Rounding

/-!
# Binary formats of floats

The number that a pattern of bits encodes, by the fields of the format.
-/

namespace CoralReef

/-- The widths of the fields. -/
structure FloatFormat where
  fraction : Nat
  exponent : Nat
  deriving DecidableEq, Repr

/-- What a pattern of bits encodes. Both zeros are the same number. -/
inductive FloatNumber where
  | nan
  | infinite (negative : Bool)
  | finite (q : Rat)
  deriving DecidableEq, Repr

namespace FloatFormat

def binary16 : FloatFormat := ⟨10, 5⟩

def binary32 : FloatFormat := ⟨23, 8⟩

def binary64 : FloatFormat := ⟨52, 11⟩

variable (format : FloatFormat)

def bias : Nat := 2 ^ (format.exponent - 1) - 1

/-- The magnitude of a finite number, by its exponent and its fraction. -/
def magnitude (e m : Nat) : Rat :=
  if e = 0 then m * 2 ^ ((1 : Int) - format.bias - format.fraction)
  else (2 ^ format.fraction + m : Nat) * 2 ^ ((e : Int) - format.bias - format.fraction)

/-- The number of a sign, an exponent and a fraction. -/
def number (negative : Bool) (e m : Nat) : FloatNumber :=
  if e = 2 ^ format.exponent - 1 then if m = 0 then .infinite negative else .nan
  else .finite (if negative then -format.magnitude e m else format.magnitude e m)

def decode (bits : Nat) : FloatNumber :=
  format.number (bits / 2 ^ (format.fraction + format.exponent) % 2 = 1)
    (bits / 2 ^ format.fraction % 2 ^ format.exponent) (bits % 2 ^ format.fraction)

/-- The bits of an integer that the format has. -/
def encodeInt (n : Int) : Nat :=
  if n = 0 then 0
  else
    let e := n.natAbs.log2
    (if n < 0 then 2 ^ (format.fraction + format.exponent) else 0) +
      (format.bias + e) * 2 ^ format.fraction +
      (n.natAbs * 2 ^ (format.fraction - e) - 2 ^ format.fraction)

/-- The nearest number of the format; a magnitude past the largest one becomes infinite. -/
def round (q : Rat) : FloatNumber :=
  let ulp : Rat := 2 ^ ((1 : Int) - format.bias - format.fraction)
  let nearest := if |q| < 2 ^ format.fraction * ulp then Rounding.roundEven (q / ulp) * ulp
    else Rounding.roundTo (format.fraction + 1) q
  if 2 ^ (format.bias + 1) ≤ |nearest| then .infinite (q < 0) else .finite nearest

/-- The largest integer of the format below `2 ^ k`. -/
def largestBelow (k : Nat) : Int :=
  let k := min k (format.bias + 1)
  2 ^ k - 2 ^ (k - (format.fraction + 1))

/-- The fields of a pattern. -/
theorem decode_fields (negative : Bool) {e m : Nat} (small : e < 2 ^ format.exponent)
    (small' : m < 2 ^ format.fraction) :
    format.decode ((if negative then 2 ^ (format.fraction + format.exponent) else 0) +
      e * 2 ^ format.fraction + m) = format.number negative e m := by
  have positive : 0 < 2 ^ format.fraction := Nat.two_pow_pos _
  have isSum : (if negative then 2 ^ (format.fraction + format.exponent) else 0) +
      e * 2 ^ format.fraction + m =
        m + 2 ^ format.fraction * ((if negative then 2 ^ format.exponent else 0) + e) := by
    rw [Nat.pow_add]
    cases negative
    · simp only [Bool.false_eq_true, if_false]
      ring
    · simp only [if_true]
      ring
  unfold decode
  rw [Nat.pow_add, ← Nat.div_div_eq_div_mul, ← Nat.pow_add, isSum, Nat.add_mul_mod_self_left,
    Nat.add_mul_div_left _ _ positive, Nat.mod_eq_of_lt small', Nat.div_eq_of_lt small', zero_add]
  congr 1
  · cases negative <;> simp [Nat.div_eq_of_lt small]
  · cases negative <;> simp [Nat.mod_eq_of_lt small]

/-- Every pattern is made of its fields. -/
theorem exists_fields {bits : Nat}
    (fits : bits < 2 ^ (format.fraction + format.exponent) * 2) :
    ∃ (negative : Bool) (e m : Nat), e < 2 ^ format.exponent ∧ m < 2 ^ format.fraction ∧
      bits = (if negative then 2 ^ (format.fraction + format.exponent) else 0) +
        e * 2 ^ format.fraction + m := by
  have positive : 0 < 2 ^ format.fraction := Nat.two_pow_pos _
  have split (rest : Nat) (small : rest < 2 ^ (format.fraction + format.exponent)) :
      ∃ e m, e < 2 ^ format.exponent ∧ m < 2 ^ format.fraction ∧
        rest = e * 2 ^ format.fraction + m := by
    refine ⟨rest / 2 ^ format.fraction, rest % 2 ^ format.fraction, ?_, Nat.mod_lt _ positive, ?_⟩
    · exact Nat.div_lt_of_lt_mul (by rwa [← Nat.pow_add])
    · rw [mul_comm]
      exact (Nat.div_add_mod _ _).symm
  by_cases negative : 2 ^ (format.fraction + format.exponent) ≤ bits
  · rcases split (bits - 2 ^ (format.fraction + format.exponent)) (by omega)
      with ⟨e, m, small, small', sum⟩
    refine ⟨true, e, m, small, small', ?_⟩
    rw [if_pos rfl, add_assoc, ← sum]
    omega
  · rcases split bits (by omega) with ⟨e, m, small, small', sum⟩
    refine ⟨false, e, m, small, small', ?_⟩
    rw [if_neg Bool.false_ne_true, zero_add]
    exact sum

/-- A number is below the next power of two. -/
theorem magnitude_lt {e m : Nat} (small : m < 2 ^ format.fraction) :
    format.magnitude e m < 2 ^ ((max e 1 : Nat) + 1 - format.bias : Int) := by
  have scale (e : Int) : (2 : Rat) ^ (e + 1 - format.bias) =
      (2 * 2 ^ format.fraction) * 2 ^ (e - format.bias - format.fraction) := by
    rw [← pow_succ', ← zpow_natCast, ← zpow_add₀ two_ne_zero]
    congr 1
    push_cast
    ring
  have ulp (e : Int) : (0 : Rat) < 2 ^ (e - format.bias - format.fraction) := zpow_pos two_pos _
  have bound : (m : Rat) < 2 ^ format.fraction := by exact_mod_cast small
  unfold magnitude
  split
  · have isOne : max e 1 = 1 := by omega
    rw [isOne, Nat.cast_one, scale]
    refine mul_lt_mul_of_pos_right ?_ (ulp 1)
    have := pow_pos (two_pos (α := Rat)) format.fraction
    linarith
  · have isE : max e 1 = e := by omega
    rw [isE, scale]
    refine mul_lt_mul_of_pos_right ?_ (ulp e)
    push_cast
    linarith

theorem magnitude_nonneg (e m : Nat) : 0 ≤ format.magnitude e m := by
  unfold magnitude
  split
  · exact mul_nonneg (Nat.cast_nonneg m) (zpow_pos two_pos _).le
  · exact mul_nonneg (Nat.cast_nonneg _) (zpow_pos two_pos _).le

/-- An integer of the format is encoded exactly. -/
theorem decode_encodeInt {n : Int} (fits : n.natAbs < 2 ^ (format.fraction + 1))
    (normal : 0 < format.bias)
    (inRange : format.bias + format.fraction < 2 ^ format.exponent - 1) :
    format.decode (format.encodeInt n) = .finite n := by
  unfold encodeInt
  by_cases zero : n = 0
  · have isZero := decode_fields format false (e := 0) (m := 0) (Nat.two_pow_pos _)
      (Nat.two_pow_pos _)
    have notLast : (0 : Nat) ≠ 2 ^ format.exponent - 1 := by omega
    rw [if_pos zero, zero]
    simpa [number, magnitude, notLast] using isZero
  · have some : n.natAbs ≠ 0 := Int.natAbs_ne_zero.mpr zero
    have low : 2 ^ n.natAbs.log2 ≤ n.natAbs := Nat.log2_self_le some
    have high : n.natAbs < 2 ^ (n.natAbs.log2 + 1) := Nat.lt_log2_self
    have small : n.natAbs.log2 ≤ format.fraction :=
      Nat.lt_succ_iff.mp ((Nat.log2_lt some).mpr fits)
    rw [if_neg zero]
    generalize n.natAbs.log2 = e at low high small
    have scaledLow : 2 ^ format.fraction ≤ n.natAbs * 2 ^ (format.fraction - e) := by
      calc 2 ^ format.fraction = 2 ^ e * 2 ^ (format.fraction - e) := by
            rw [← Nat.pow_add, Nat.add_sub_cancel' small]
        _ ≤ _ := Nat.mul_le_mul_right _ low
    have scaledHigh : n.natAbs * 2 ^ (format.fraction - e) < 2 * 2 ^ format.fraction := by
      calc _ < 2 ^ (e + 1) * 2 ^ (format.fraction - e) :=
            Nat.mul_lt_mul_of_pos_right high (Nat.two_pow_pos _)
        _ = 2 * 2 ^ format.fraction := by
            rw [← Nat.pow_add, ← Nat.pow_succ']
            congr 1
            omega
    have fields := decode_fields format (decide (n < 0)) (e := format.bias + e)
      (m := n.natAbs * 2 ^ (format.fraction - e) - 2 ^ format.fraction)
      (by omega) (by omega)
    simp only [decide_eq_true_eq] at fields
    rw [fields]
    have notLast : format.bias + e ≠ 2 ^ format.exponent - 1 := by omega
    have notFirst : format.bias + e ≠ 0 := by omega
    unfold number magnitude
    rw [if_neg notLast, if_neg notFirst, Nat.add_sub_cancel' scaledLow]
    have exact' : ((n.natAbs * 2 ^ (format.fraction - e) : Nat) : Rat) *
        2 ^ (((format.bias + e : Nat) : Int) - format.bias - format.fraction) = n.natAbs := by
      have exponents : ((format.bias + e : Nat) : Int) - format.bias - format.fraction =
          -((format.fraction - e : Nat) : Int) := by omega
      rw [exponents, zpow_neg, zpow_natCast, Nat.cast_mul, Nat.cast_pow, Nat.cast_ofNat, mul_assoc,
        mul_inv_cancel₀ (pow_ne_zero _ two_ne_zero), mul_one]
    rw [exact']
    congr 1
    split
    · have isNeg : n < 0 := by simpa using ‹decide (n < 0) = true›
      have := Int.natAbs_of_nonneg (a := -n) (by omega)
      rw [Int.natAbs_neg] at this
      rw [← Int.cast_natCast, this, Int.cast_neg, neg_neg]
    · have notNeg : ¬ n < 0 := by simpa using ‹¬ decide (n < 0) = true›
      rw [← Int.cast_natCast, Int.natAbs_of_nonneg (by omega)]

/-- A small integer is rounded as if the exponents had no bounds. -/
theorem round_intCast (normal : 0 < format.bias) {n : Int} (small : n.natAbs ≤ 2 ^ format.bias) :
    format.round n = .finite (Rounding.roundTo (format.fraction + 1) n) := by
  have positive : (0 : Rat) < 2 ^ ((1 : Int) - format.bias - format.fraction) := zpow_pos two_pos _
  have least :
      (2 : Rat) ^ format.fraction * 2 ^ ((1 : Int) - format.bias - format.fraction) ≤ 1 := by
    rw [← zpow_natCast, ← zpow_add₀ two_ne_zero]
    exact zpow_le_one_of_nonpos₀ one_le_two (by omega)
  have isNearest : (if |(n : Rat)| <
        2 ^ format.fraction * 2 ^ ((1 : Int) - format.bias - format.fraction) then
      (Rounding.roundEven ((n : Rat) / 2 ^ ((1 : Int) - format.bias - format.fraction)) : Rat) *
        2 ^ ((1 : Int) - format.bias - format.fraction)
      else Rounding.roundTo (format.fraction + 1) (n : Rat)) =
        Rounding.roundTo (format.fraction + 1) (n : Rat) := by
    split
    · have below : |(n : Rat)| < 1 := lt_of_lt_of_le ‹_› least
      have zero : n = 0 := by
        rw [← Int.abs_lt_one_iff]
        exact_mod_cast below
      rw [zero, Int.cast_zero, zero_div, ← Int.cast_zero, Rounding.roundEven_intCast]
      simp
    · rfl
  have nats {k : Nat} (small : k ≤ 2 ^ format.bias) :
      |Rounding.roundTo (format.fraction + 1) (k : Rat)| ≤ 2 ^ format.bias := by
    rw [abs_of_nonneg (Rounding.roundTo_nonneg (by omega) (Nat.cast_nonneg k))]
    rcases Nat.eq_zero_or_pos k with rfl | some
    · simp
    · rw [← zpow_natCast]
      refine Rounding.roundTo_le_zpow (by omega) (Nat.cast_pos.mpr some) ?_
      rw [zpow_natCast]
      exact_mod_cast small
  have bounded : |Rounding.roundTo (format.fraction + 1) (n : Rat)| < 2 ^ (format.bias + 1) := by
    have powers : (2 : Rat) ^ format.bias < 2 ^ (format.bias + 1) :=
      pow_lt_pow_right₀ one_lt_two (Nat.lt_succ_self _)
    refine lt_of_le_of_lt ?_ powers
    rcases Int.natAbs_eq n with isNat | isNeg
    · rw [isNat, Int.cast_natCast]
      exact nats small
    · rw [isNeg, Int.cast_neg, Int.cast_natCast, Rounding.roundTo_neg, abs_neg]
      exact nats small
  unfold round
  dsimp only
  rw [isNearest, if_neg (not_le.mpr bounded)]

end FloatFormat

end CoralReef
