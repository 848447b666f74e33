import CoralReef.Codegen.NagaTranslate.Proofs.Operators
import CoralReef.Codegen.NagaTranslate.WgslCast

/-!
# Integer division

The quotient and the remainder by way of single precision, where every result of a float op is the
exact one rounded to 24 significant bits.
-/

namespace CoralReef.NagaTranslate

open Wgsl Rounding

/-- The truncated quotient of two integers in single precision. -/
def floatQuotient (a b : Int) : Int := truncate (single (single a * single (1 / single b)))

theorem single_intCast {n : Int} (small : n.natAbs < 2 ^ 24) : single n = n := by
  unfold single
  rcases Int.natAbs_eq n with isNat | isNeg
  · rw [isNat, Int.cast_natCast]
    exact roundTo_natCast small
  · rw [isNeg, Int.cast_neg, Int.cast_natCast, roundTo_neg]
    exact congrArg Neg.neg (roundTo_natCast small)

theorem single_ne_zero {n : Int} (nonzero : n ≠ 0) : single n ≠ 0 := by
  have large {x : Rat} (one : 1 ≤ x) : roundTo 24 x ≠ 0 := by
    have := zpow_le_roundTo (K := Rat) (p := 24) (e := 0) (by decide) (by simpa using one)
    rw [zpow_zero] at this
    linarith
  unfold single
  rcases lt_or_gt_of_ne nonzero with negative | positive
  · have one : (1 : Rat) ≤ ((-n : Int) : Rat) := by exact_mod_cast (by omega : 1 ≤ -n)
    have := large one
    rw [Int.cast_neg, roundTo_neg] at this
    exact fun zero => this (by rw [zero, neg_zero])
  · exact large (by exact_mod_cast positive)

@[simp] theorem truncate_neg (x : Rat) : truncate (-x) = -truncate x := by
  unfold truncate
  rcases lt_trichotomy x 0 with negative | rfl | positive
  · have notNeg : ¬ -x < 0 := by linarith
    rw [if_neg notNeg, if_pos negative, Int.floor_neg]
  · simp
  · have neg : -x < 0 := by linarith
    have notNeg : ¬ x < 0 := by linarith
    rw [if_pos neg, if_neg notNeg, Int.ceil_neg]

theorem truncate_intCast (n : Int) : truncate n = n := by
  unfold truncate
  split <;> simp

theorem floatQuotient_neg_left (a b : Int) : floatQuotient (-a) b = -floatQuotient a b := by
  unfold floatQuotient single
  rw [Int.cast_neg, roundTo_neg, neg_mul, roundTo_neg, truncate_neg]

theorem floatQuotient_neg_right (a b : Int) : floatQuotient a (-b) = -floatQuotient a b := by
  unfold floatQuotient single
  rw [Int.cast_neg, roundTo_neg, one_div_neg_eq_neg_one_div, roundTo_neg, mul_neg, roundTo_neg,
    truncate_neg]

theorem floatQuotient_natCast {a b : Nat} (small : a < 2 ^ 23) (positive : 0 < b) :
    floatQuotient a b = approxQuotient 24 a b := by
  have nonneg : (0 : Rat) ≤ single (single a * single (1 / single b)) := by
    have zero : (0 : Rat) ≤ a := Nat.cast_nonneg a
    have zero' : (0 : Rat) ≤ b := Nat.cast_nonneg b
    have step {x : Rat} (nonneg : 0 ≤ x) : 0 ≤ single x := roundTo_nonneg (by decide) nonneg
    exact step (mul_nonneg (step zero) (step (one_div_nonneg.mpr (step zero'))))
  have fits : a < 2 ^ 24 := small.trans (by decide)
  unfold floatQuotient truncate
  rw [Int.cast_natCast, Int.cast_natCast, if_neg (not_lt.mpr nonneg)]
  unfold single
  rw [roundTo_natCast fits]
  exact floor_mul_recip (by decide) positive small

/-- The quotient of small integers is that of `approxQuotient`, with the sign of the operands. -/
theorem floatQuotient_eq {a b : Int} (small : a.natAbs < 2 ^ 23) (nonzero : b ≠ 0) :
    floatQuotient a b = a.sign * b.sign * approxQuotient 24 a.natAbs b.natAbs := by
  have nats {a b : Nat} (small : a < 2 ^ 23) (positive : 0 < b) :
      floatQuotient a b = (a : Int).sign * (b : Int).sign * approxQuotient 24 a b := by
    rw [floatQuotient_natCast small positive, Int.sign_natCast_of_ne_zero positive.ne', mul_one]
    rcases Nat.eq_zero_or_pos a with rfl | some
    · simp [approxQuotient]
    · rw [Int.sign_natCast_of_ne_zero some.ne', one_mul]
  rcases Int.eq_nat_or_neg a with ⟨n, rfl | rfl⟩ <;> rcases Int.eq_nat_or_neg b with ⟨m, rfl | rfl⟩
  · exact nats (by simpa using small) (by omega)
  · rw [floatQuotient_neg_right, nats (by simpa using small) (by omega)]
    simp
  · rw [floatQuotient_neg_left, nats (by simpa using small) (by omega)]
    simp
  · rw [floatQuotient_neg_right, floatQuotient_neg_left, nats (by simpa using small) (by omega)]
    simp

/-- The quotient that truncates toward zero. -/
theorem tdiv_eq_sign_mul (a b : Int) :
    a.tdiv b = a.sign * b.sign * ((a.natAbs / b.natAbs : Nat) : Int) := by
  have nats (n m : Nat) :
      (n : Int).tdiv m = (n : Int).sign * (m : Int).sign * ((n / m : Nat) : Int) := by
    rw [← Int.ofNat_tdiv]
    rcases Nat.eq_zero_or_pos n with rfl | some
    · simp
    rcases Nat.eq_zero_or_pos m with rfl | some'
    · simp
    rw [Int.sign_natCast_of_ne_zero some.ne', Int.sign_natCast_of_ne_zero some'.ne', mul_one,
      one_mul]
  rcases Int.eq_nat_or_neg a with ⟨n, rfl | rfl⟩ <;>
    rcases Int.eq_nat_or_neg b with ⟨m, rfl | rfl⟩ <;> simp [nats]

/-- The quotient is exact unless it is misrounded. -/
theorem floatQuotient_eq_tdiv_iff {a b : Int} (small : a.natAbs < 2 ^ 23) (nonzero : b ≠ 0) :
    floatQuotient a b = a.tdiv b ↔ ¬ Misrounded 24 a.natAbs b.natAbs := by
  rw [floatQuotient_eq small nonzero, tdiv_eq_sign_mul]
  unfold approxQuotient
  split
  · have one := Misrounded.one_le ‹_›
    refine iff_of_false ?_ (not_not.mpr ‹_›)
    have some : a ≠ 0 := by
      rintro rfl
      simp at one
    have signs : a.sign * b.sign ≠ 0 := mul_ne_zero (Int.sign_eq_zero_iff_zero.not.mpr some)
      (Int.sign_eq_zero_iff_zero.not.mpr nonzero)
    intro same
    have := Int.eq_of_mul_eq_mul_left signs same
    omega
  · exact iff_of_true rfl ‹_›

/-- The quotient is no larger than the exact one. -/
theorem approxQuotient_le (p a b : Nat) : approxQuotient p a b ≤ a / b := by
  unfold approxQuotient
  split
  · exact Nat.sub_le _ _
  · exact le_rfl

theorem natAbs_floatQuotient_mul_le {a b : Int} (small : a.natAbs < 2 ^ 23) (nonzero : b ≠ 0) :
    (floatQuotient a b * b).natAbs ≤ a.natAbs := by
  rw [floatQuotient_eq small nonzero, Int.natAbs_mul, Int.natAbs_mul, Int.natAbs_mul,
    Int.natAbs_natCast, Int.natAbs_sign_of_ne_zero nonzero]
  have sign : a.sign.natAbs ≤ 1 := by
    rcases Int.sign_trichotomy a with isSign | isSign | isSign <;> simp [isSign]
  calc a.sign.natAbs * 1 * approxQuotient 24 a.natAbs b.natAbs * b.natAbs
      ≤ 1 * 1 * (a.natAbs / b.natAbs) * b.natAbs :=
        Nat.mul_le_mul_right _ (Nat.mul_le_mul (Nat.mul_le_mul_right _ sign)
          (approxQuotient_le 24 _ _))
    _ ≤ a.natAbs := by
      rw [one_mul, one_mul]
      exact Nat.div_mul_le_self _ _

/-- The remainder that goes with the quotient, in single precision. -/
def floatRemainder (a b : Int) : Int :=
  truncate (single (single a + -single (floatQuotient a b * single b)))

theorem floatRemainder_eq {a b : Int} (small : a.natAbs < 2 ^ 23) (nonzero : b ≠ 0) :
    floatRemainder a b = a - floatQuotient a b * b := by
  have bound := natAbs_floatQuotient_mul_le small nonzero
  have isA : single a = a := single_intCast (small.trans (by decide))
  have isProduct : single (floatQuotient a b * single b) = (floatQuotient a b * b : Int) := by
    by_cases fits : b.natAbs < 2 ^ 24
    · rw [single_intCast fits, ← Int.cast_mul]
      exact single_intCast (by omega)
    · have zero : floatQuotient a b = 0 := by
        have less : a.natAbs < b.natAbs := by omega
        have := approxQuotient_le 24 a.natAbs b.natAbs
        rw [Nat.div_eq_of_lt less] at this
        rw [floatQuotient_eq small nonzero, Nat.le_zero.mp this]
        simp
      rw [zero]
      simp [single]
  unfold floatRemainder
  rw [isA, isProduct, ← Int.cast_neg, ← Int.cast_add, single_intCast (by omega), truncate_intCast]
  ring

/-! ## Words -/

theorem toInt_saturate {n : Int} (small : n.natAbs < 2 ^ 31) : (saturate n).toInt = n := by
  unfold saturate
  rw [BitVec.toInt_ofInt_eq_self (by decide) (by omega) (by omega)]
  omega

theorem toInt_ne_zero {b : BitVec 32} (nonzero : b ≠ 0) : b.toInt ≠ 0 := fun zero =>
  nonzero (BitVec.eq_of_toInt_eq (by simpa using zero))

section

attribute [local simp] roundedUnit operandNumber

theorem divideValue_words (a : BitVec 32) {b : BitVec 32} (nonzero : b ≠ 0) :
    divideValue roundedUnit (some (.word a)) (some (.word b)) =
      some (.word (saturate (floatQuotient a.toInt b.toInt))) := by
  have isSome := single_ne_zero (toInt_ne_zero nonzero)
  simp [divideValue, quotient, asFloat, truncated, asInt, isSome, floatQuotient, truncate_intCast]

theorem moduloValue_words (a : BitVec 32) {b : BitVec 32} (nonzero : b ≠ 0) :
    moduloValue roundedUnit (some (.word a)) (some (.word b)) =
      some (.word (saturate (floatRemainder a.toInt b.toInt))) := by
  have isSome := single_ne_zero (toInt_ne_zero nonzero)
  simp [moduloValue, quotient, asFloat, truncated, asInt, isSome, floatQuotient, floatRemainder]

/-- No word is read as a float. -/
theorem floatDivideValue_words (a b : BitVec 32) :
    floatDivideValue roundedUnit (some (.word a)) (some (.word b)) = none := by
  simp [floatDivideValue, quotient]

theorem floatModuloValue_words (a b : BitVec 32) :
    floatModuloValue roundedUnit (some (.word a)) (some (.word b)) = none := by
  simp [floatModuloValue]

end

/-! ## When a component is right -/

/-- The number that a word stands for. -/
def number (kind : Kind) (w : BitVec 32) : Int := if kind = .sint then w.toInt else w.toNat

/-- The operands of which the quotient and the remainder are those of WGSL. The conversions are of
signed words, so that a large unsigned divisor is a negative one. -/
def DivisionRight (kind : Kind) (a b : BitVec 32) : Prop :=
  if kind ≠ .sint ∧ b.msb = true then
    a.toNat < 2 ^ 32 - b.toNat ∨
      a.toNat = 2 ^ 32 - b.toNat ∧ Misrounded 24 a.toNat (2 ^ 32 - b.toNat)
  else ¬ Misrounded 24 a.toInt.natAbs b.toInt.natAbs

section component

variable {kind : Kind} {a b : BitVec 32}

/-- The conversion of a small operand is that of its number. -/
theorem toInt_eq_number (small : (number kind a).natAbs < 2 ^ 23) : a.toInt = number kind a := by
  unfold number at small ⊢
  split at small
  · rw [if_pos ‹_›]
  · rw [if_neg ‹_›, BitVec.toInt_eq_toNat_of_lt]
    omega

theorem natAbs_floatQuotient_lt {a b : Int} (small : a.natAbs < 2 ^ 23) (nonzero : b ≠ 0) :
    (floatQuotient a b).natAbs < 2 ^ 23 := by
  have bound := natAbs_floatQuotient_mul_le small nonzero
  rw [Int.natAbs_mul] at bound
  exact ((Nat.le_mul_of_pos_right _ (Int.natAbs_pos.mpr nonzero)).trans bound).trans_lt small

/-- The quotient of small integers is zero when the divisor is the larger, or when it is the same
and the quotient falls short of one. -/
theorem approxQuotient_eq_zero_iff {p a b : Nat} (positive : 0 < b) :
    approxQuotient p a b = 0 ↔ a < b ∨ a = b ∧ Misrounded p a b := by
  unfold approxQuotient
  split
  · have misrounded : Misrounded p a b := ‹_›
    have one := misrounded.one_le
    rcases misrounded.1 with ⟨q, rfl⟩
    rw [Nat.mul_div_cancel_left q positive] at one ⊢
    constructor
    · intro zero
      have isOne : q = 1 := by omega
      exact .inr ⟨by rw [isOne, mul_one], misrounded⟩
    · rintro (less | ⟨same, -⟩)
      · exact absurd less (not_lt.mpr (Nat.le_mul_of_pos_right b one))
      · have : q = 1 := Nat.eq_of_mul_eq_mul_left positive (by omega)
        omega
  · rw [Nat.div_eq_zero_iff]
    constructor
    · rintro (zero | less)
      · omega
      · exact .inl less
    · rintro (less | ⟨-, never⟩)
      · exact .inr less
      · exact absurd never ‹_›

theorem floatQuotient_eq_zero_iff {a b : Int} (small : a.natAbs < 2 ^ 23) (nonzero : b ≠ 0) :
    floatQuotient a b = 0 ↔
      a.natAbs < b.natAbs ∨ a.natAbs = b.natAbs ∧ Misrounded 24 a.natAbs b.natAbs := by
  rw [floatQuotient_eq small nonzero, ← approxQuotient_eq_zero_iff (Int.natAbs_pos.mpr nonzero)]
  constructor
  · intro zero
    rcases mul_eq_zero.mp zero with signs | zero
    · rcases mul_eq_zero.mp signs with isZero | isZero
      · rw [Int.sign_eq_zero_iff_zero.mp isZero]
        simp [approxQuotient]
      · exact absurd (Int.sign_eq_zero_iff_zero.mp isZero) nonzero
    · exact_mod_cast zero
  · intro zero
    rw [zero, Int.natCast_zero, mul_zero]

theorem number_eq_toInt_or (kind : Kind) (b : BitVec 32) :
    (kind ≠ .sint ∧ b.msb = true) ∨ number kind b = b.toInt := by
  unfold number
  by_cases signed : kind = .sint
  · exact .inr (if_pos signed)
  · rw [if_neg signed]
    cases sign : b.msb with
    | true => exact .inl ⟨signed, rfl⟩
    | false => exact .inr (BitVec.toInt_eq_toNat_of_msb sign).symm

/-- The number of a large unsigned divisor and the negative one that is converted. -/
theorem large_divisor (signed : kind ≠ .sint) (large : b.msb = true) :
    number kind b = b.toNat ∧ 2 ^ 31 ≤ b.toNat ∧ b.toInt.natAbs = 2 ^ 32 - b.toNat := by
  have isLarge : 2 ^ 31 ≤ b.toNat := by
    rw [BitVec.msb_eq_decide] at large
    simpa using large
  refine ⟨if_neg signed, isLarge, ?_⟩
  rw [BitVec.toInt_eq_msb_cond, if_pos large]
  omega

theorem floatQuotient_eq_iff (small : (number kind a).natAbs < 2 ^ 23) (nonzero : b ≠ 0) :
    floatQuotient a.toInt b.toInt = (number kind a).tdiv (number kind b) ↔
      DivisionRight kind a b := by
  have nonzero' := toInt_ne_zero nonzero
  have isA := toInt_eq_number small
  unfold DivisionRight
  by_cases negative : kind ≠ .sint ∧ b.msb = true
  · rcases large_divisor negative.1 negative.2 with ⟨isB, large, magnitude⟩
    have isNat : number kind a = a.toNat := if_neg negative.1
    have less : a.toNat < b.toNat := by omega
    have zero : (number kind a).tdiv (number kind b) = 0 := by
      rw [isNat, isB, ← Int.ofNat_tdiv, Nat.div_eq_of_lt less]
      rfl
    rw [if_pos negative, zero, isA, floatQuotient_eq_zero_iff small nonzero', magnitude, isNat,
      Int.natAbs_natCast]
  · have isB := (number_eq_toInt_or kind b).resolve_left negative
    rw [if_neg negative, isB, isA]
    exact floatQuotient_eq_tdiv_iff small nonzero'

theorem floatRemainder_eq_iff (small : (number kind a).natAbs < 2 ^ 23) (nonzero : b ≠ 0) :
    floatRemainder a.toInt b.toInt = (number kind a).tmod (number kind b) ↔
      DivisionRight kind a b := by
  have nonzero' := toInt_ne_zero nonzero
  have isA := toInt_eq_number small
  rw [← floatQuotient_eq_iff small nonzero, floatRemainder_eq (isA ▸ small) nonzero',
    Int.tmod_def, isA]
  have cancels {q r : Int} (scaled : q * b.toInt = r * b.toInt) : q = r :=
    mul_right_cancel₀ nonzero' scaled
  rcases number_eq_toInt_or kind b with ⟨signed, large⟩ | isB
  · rcases large_divisor signed large with ⟨isB, large, -⟩
    have isNat : number kind a = a.toNat := if_neg signed
    have zero : (number kind a).tdiv (number kind b) = 0 := by
      rw [isNat, isB, ← Int.ofNat_tdiv, Nat.div_eq_of_lt (by omega)]
      rfl
    rw [zero, mul_zero]
    constructor
    · intro same
      exact cancels (by omega)
    · intro same
      rw [same, zero_mul]
  · rw [isB]
    constructor
    · intro same
      refine cancels ?_
      linarith
    · intro same
      rw [same, mul_comm]

/-- The quotient of WGSL as an integer. -/
theorem toInt_divide (small : (number kind a).natAbs < 2 ^ 23)
    (nonzero : b ≠ 0) : ∃ w, binaryInt .divide kind a b = .int w ∧
      w.toInt = (number kind a).tdiv (number kind b) := by
  refine ⟨_, rfl, ?_⟩
  rw [if_neg nonzero]
  unfold number at small ⊢
  by_cases signed : kind = .sint
  · rw [if_pos signed] at small
    simp only [if_pos signed]
    refine BitVec.toInt_sdiv_of_ne_or_ne a b (.inl ?_)
    rintro rfl
    exact absurd small (by decide)
  · rw [if_neg signed, Int.natAbs_natCast] at small
    simp only [if_neg signed]
    rw [BitVec.toInt_udiv_of_msb (BitVec.msb_eq_false_iff_two_mul_lt.mpr (by omega))]
    rfl

theorem toInt_modulo (small : (number kind a).natAbs < 2 ^ 23)
    (nonzero : b ≠ 0) : ∃ w, binaryInt .modulo kind a b = .int w ∧
      w.toInt = (number kind a).tmod (number kind b) := by
  refine ⟨_, rfl, ?_⟩
  rw [if_neg nonzero]
  unfold number at small ⊢
  by_cases signed : kind = .sint
  · simp only [if_pos signed]
    exact BitVec.toInt_srem a b
  · rw [if_neg signed, Int.natAbs_natCast] at small
    simp only [if_neg signed]
    have positive : a.msb = false := BitVec.msb_eq_false_iff_two_mul_lt.mpr (by omega)
    rw [BitVec.toInt_umod_of_msb positive, BitVec.toInt_eq_toNat_of_msb positive]
    rfl

/-- A result that is small is what it is saturated to. -/
theorem saturate_eq_iff {n : Int} (small : n.natAbs < 2 ^ 31) {w : BitVec 32} :
    saturate n = w ↔ n = w.toInt := by
  rw [← BitVec.toInt_inj, toInt_saturate small]

theorem divide_component (small : (number kind a).natAbs < 2 ^ 23) (nonzero : b ≠ 0) :
    Represents (toGpr (divideValue roundedUnit (some (.word a)) (some (.word b))))
      (binaryInt .divide kind a b) ↔ DivisionRight kind a b := by
  rcases toInt_divide small nonzero with ⟨w, isDivide, isQuotient⟩
  have bound := natAbs_floatQuotient_lt (toInt_eq_number small ▸ small) (toInt_ne_zero nonzero)
  rw [divideValue_words a nonzero, isDivide, ← floatQuotient_eq_iff small nonzero, ← isQuotient]
  exact saturate_eq_iff (bound.trans (by decide))

theorem modulo_component (small : (number kind a).natAbs < 2 ^ 23) (nonzero : b ≠ 0) :
    Represents (toGpr (moduloValue roundedUnit (some (.word a)) (some (.word b))))
      (binaryInt .modulo kind a b) ↔ DivisionRight kind a b := by
  rcases toInt_modulo small nonzero with ⟨w, isModulo, isRemainder⟩
  have small' : a.toInt.natAbs < 2 ^ 23 := toInt_eq_number small ▸ small
  have bound := natAbs_floatQuotient_mul_le small' (toInt_ne_zero nonzero)
  rw [moduloValue_words a nonzero, isModulo, ← floatRemainder_eq_iff small nonzero, ← isRemainder]
  refine saturate_eq_iff ?_
  rw [floatRemainder_eq small' (toInt_ne_zero nonzero)]
  omega

end component

/-! ## Vectors -/

section vectors

variable {x y : Operand} {l r : List (Option Value)} {op : BinaryOperator}
variable {g : Option Value → Option Value → Option Value}

/-- No divisor is zero. -/
def NonzeroDivisors (y : Operand) : Prop := ∀ b ∈ y.vals, b ≠ .int 0

/-- The dividends are exact in single precision, with a bit to spare for the quotient. -/
def SmallDividends (x : Operand) : Prop :=
  ∀ a, .int a ∈ x.vals → (number x.ty.kind a).natAbs < 2 ^ 23

/-- Every component of the quotient and of the remainder is right. -/
def DivisionsRight (x y : Operand) : Prop :=
  ∀ (c : Nat) (a b : BitVec 32), x.vals[c]? = some (.int a) → y.vals[c]? = some (.int b) →
    DivisionRight x.ty.kind a b

/-- The results of the components of a quotient. -/
theorem division_yields (first : RepresentsAll l x) (second : RepresentsAll r y)
    (notBool : x.ty.kind ≠ .bool) (same : x.ty = y.ty) (nonzero : NonzeroDivisors y)
    (small : SmallDividends x) (component : ∀ a b, (number x.ty.kind a).natAbs < 2 ^ 23 → b ≠ 0 →
      (Represents (toGpr (g (some (.word a)) (some (.word b)))) (binaryInt op x.ty.kind a b) ↔
        DivisionRight x.ty.kind a b)) :
    Yields (eachValue g l r) (binary op x y) ↔ DivisionsRight x y := by
  have lengths := allowed_lengths same
  rw [each_yields first, and_iff_right lengths.le]
  have here {c : Nat} {a b : BitVec 32} (isA : x.vals[c]? = some (.int a))
      (isB : y.vals[c]? = some (.int b)) :=
    component a b (small a (List.mem_of_getElem? isA)) fun zero =>
      nonzero (.int b) (List.mem_of_getElem? isB) (by rw [zero])
  have at_eq (c : Nat) (less : c < x.vals.length) :
      x.at? c = x.vals[c]? ∧ y.at? c = y.vals[c]? := by
    simp [Operand.at?, less, lengths]
  constructor
  · intro each c a b isA isB
    rcases List.getElem?_eq_some_iff.mp isA with ⟨less, -⟩
    rcases each c less with ⟨s, isScalar, holds⟩
    rcases first.int notBool c with ⟨a', atX, isL⟩
    rcases second.int (same ▸ notBool) c with ⟨b', atY, isR⟩
    rw [(at_eq c less).1, isA] at atX
    rw [(at_eq c less).2, isB] at atY
    cases atX
    cases atY
    have isResult : some (binaryInt op x.ty.kind a b) = some s := by
      rw [← isScalar, scalarAt, (at_eq c less).1, (at_eq c less).2, isA, isB]
      rfl
    cases isResult
    rw [isL, isR] at holds
    exact (here isA isB).mp holds
  · intro right c less
    rcases first.int notBool c with ⟨a, atX, isL⟩
    rcases second.int (same ▸ notBool) c with ⟨b, atY, isR⟩
    have isA := (at_eq c less).1.symm.trans atX
    have isB := (at_eq c less).2.symm.trans atY
    refine ⟨binaryInt op x.ty.kind a b, ?_, ?_⟩
    · rw [scalarAt, atX, atY]
      rfl
    · rw [isL, isR]
      exact (here isA isB).mpr (right c a b isA isB)

/-- Code for floats gives words no value. -/
theorem floats_not_yield (first : RepresentsAll l x) (second : RepresentsAll r y)
    (notBool : x.ty.kind ≠ .bool) (same : x.ty = y.ty)
    (silent : ∀ a b, g (some (.word a)) (some (.word b)) = none) :
    ¬ Yields (eachValue g l r) (binary op x y) := by
  rw [each_yields first]
  rintro ⟨-, each⟩
  rcases each 0 (vals_pos x) with ⟨s, -, holds⟩
  rcases first.int notBool 0 with ⟨a, -, isL⟩
  rcases second.int (same ▸ notBool) 0 with ⟨b, -, isR⟩
  rw [isL, isR, silent] at holds
  exact holds

end vectors

/-! ## Division in a program -/

/-- The arms of an operator that go by way of floats. -/
theorem arithmetic_division_iff {s : FuncTranslator} {start : Env} {l r : SSARef} {x y : Operand}
    {op : BinaryOperator} {onF64 : SSARef → SSARef → EmitM SSARef}
    {onFloat onInt : SSAValue → SSAValue → EmitM SSAValue}
    {g h : Option Value → Option Value → Option Value} {isFloat isF64 : Bool}
    (live : s.deadCode = false) (left : Ready s l) (right : Ready s r)
    (first : RepresentsAll (l.map (s.env roundedUnit start)) x)
    (second : RepresentsAll (r.map (s.env roundedUnit start)) y)
    (undefined : Undefined roundedUnit onF64) (floats : Computes roundedUnit onFloat g)
    (ints : Computes roundedUnit onInt h) (doubles : isF64 = true → isFloat = true)
    (notBool : x.ty.kind ≠ .bool) (same : x.ty = y.ty) (nonzero : NonzeroDivisors y)
    (small : SmallDividends x)
    (silent : ∀ a b, g (some (.word a)) (some (.word b)) = none)
    (component : ∀ a b, (number x.ty.kind a).natAbs < 2 ^ 23 → b ≠ 0 →
      (Represents (toGpr (h (some (.word a)) (some (.word b)))) (binaryInt op x.ty.kind a b) ↔
        DivisionRight x.ty.kind a b)) :
    (∃ dst s', translateArithmetic isFloat isF64 l r onF64 onFloat onInt s = .ok (dst, s') ∧
        Yields (dst.map (s'.env roundedUnit start)) (binary op x y)) ↔
      isFloat = false ∧ DivisionsRight x y := by
  rw [emitsValues_meets (arithmetic_emits undefined floats ints live left right isFloat isF64)]
  cases isF64 with
  | true =>
    have positive : 0 < (l.map (s.env roundedUnit start)).length := first.length_eq ▸ vals_pos x
    rw [doubles rfl]
    simpa using not_yields_pairs positive
  | false =>
    cases isFloat with
    | true => simpa using floats_not_yield first second notBool same silent
    | false => simpa using division_yields first second notBool same nonzero small component

theorem division_meets_iff {s : FuncTranslator} {start : Env} {op : BinaryOperator}
    {l r : SSARef} {left : Expression} {x y : Operand} (live : s.deadCode = false)
    (first : Holds roundedUnit s start l x) (second : Holds roundedUnit s start r y)
    (divides : op = .divide ∨ op = .modulo) (allows : allowed op x.ty y.ty = true)
    (nonzero : NonzeroDivisors y) (small : SmallDividends x) :
    BinaryMeets roundedUnit s start op l r left x y ↔
      s.ctx.isFloatExpr left = false ∧ DivisionsRight x y := by
  have silent {code : FloatCode} (isDouble : code = .dMul .nearestEven ∨ code = .dAdd .nearestEven)
      (srcs : List (SrcMod × List (Option Value))) (i : Nat) : roundedUnit code srcs i = none := by
    rcases isDouble with rfl | rfl <;> rfl
  have kinds : x.ty = y.ty ∧ x.ty.kind ≠ .bool := by
    rcases divides with rfl | rfl <;> simpa [allowed] using allows
  rcases divides with rfl | rfl
  · exact arithmetic_division_iff live first.ready second.ready first.represents second.represents
      (f64Divide_undefined (silent (.inl rfl))) floatDivide_computes divide_computes
      isFloatExpr_of_isF64Expr kinds.2 kinds.1 nonzero small floatDivideValue_words
      fun _ _ => divide_component
  · exact arithmetic_division_iff live first.ready second.ready first.represents second.represents
      (f64Modulo_undefined (silent (.inr rfl))) floatModulo_computes modulo_computes
      isFloatExpr_of_isF64Expr kinds.2 kinds.1 nonzero small floatModuloValue_words
      fun _ _ => modulo_component

/-- The quotient and the remainder are those of WGSL where the operands are taken for integers, the
dividends are small, and no component falls short of an exact quotient or has a large unsigned
divisor taken for a negative one. Of small dividends, only there. -/
theorem translateDivision_correct_iff (s : FuncTranslator) (start : Env) (op : BinaryOperator)
    (l r : SSARef) (left : Expression) (x y : Operand) (live : s.deadCode = false)
    (first : Holds roundedUnit s start l x) (second : Holds roundedUnit s start r y)
    (divides : op = .divide ∨ op = .modulo) (allows : allowed op x.ty y.ty = true)
    (nonzero : NonzeroDivisors y) :
    (s.ctx.isFloatExpr left = false ∧ SmallDividends x ∧ DivisionsRight x y →
      BinaryMeets roundedUnit s start op l r left x y) ∧
    (SmallDividends x → BinaryMeets roundedUnit s start op l r left x y →
      s.ctx.isFloatExpr left = false ∧ DivisionsRight x y) := by
  have meets (small : SmallDividends x) : BinaryMeets roundedUnit s start op l r left x y ↔
      s.ctx.isFloatExpr left = false ∧ DivisionsRight x y :=
    division_meets_iff live first second divides allows nonzero small
  constructor
  · rintro ⟨isInt, small, right⟩
    exact (meets small).mpr ⟨isInt, right⟩
  · intro small holds
    exact (meets small).mp holds

theorem wordPair_holds_rounded (sm : Nat) (a b : BitVec 32) :
    Holds roundedUnit (wordPair sm) (wordPairEnv a b) [⟨.gpr, 1⟩] (i32 a) ∧
      Holds roundedUnit (wordPair sm) (wordPairEnv a b) [⟨.gpr, 2⟩] (i32 b) := by
  refine ⟨⟨by simp [wordPair, FuncTranslator.count], .cons rfl .nil⟩, ?_⟩
  exact ⟨by simp [wordPair, FuncTranslator.count], .cons rfl .nil⟩

theorem divisionsRight_i32 {a b : BitVec 32} :
    DivisionsRight (i32 a) (i32 b) ↔ ¬ Misrounded 24 a.toInt.natAbs b.toInt.natAbs := by
  constructor
  · intro right
    exact right 0 a b rfl rfl
  · intro exact' c a' b' isA isB
    rcases c with _ | c
    · cases isA
      cases isB
      exact exact'
    · cases isA

theorem translateDivision_correct_words :
    BinaryMeets roundedUnit (wordPair 70) (wordPairEnv (-42) 5) .divide [⟨.gpr, 1⟩] [⟨.gpr, 2⟩]
        .other (i32 (-42)) (i32 5) ∧
      BinaryMeets roundedUnit (wordPair 70) (wordPairEnv (-42) 5) .modulo [⟨.gpr, 1⟩] [⟨.gpr, 2⟩]
        .other (i32 (-42)) (i32 5) := by
  rcases wordPair_holds_rounded 70 (-42) 5 with ⟨first, second⟩
  have small : SmallDividends (i32 (-42)) := by
    intro a member
    cases List.mem_singleton.mp member
    decide
  have nonzero : NonzeroDivisors (i32 5) := by
    intro b member
    cases List.mem_singleton.mp member
    decide
  have right : DivisionsRight (i32 (-42)) (i32 5) := divisionsRight_i32.mpr (by decide)
  constructor
  · exact (translateDivision_correct_iff _ _ .divide _ _ .other _ _ rfl first second (.inl rfl) rfl
      nonzero).1 ⟨rfl, small, right⟩
  · exact (translateDivision_correct_iff _ _ .modulo _ _ .other _ _ rfl first second (.inr rfl) rfl
      nonzero).1 ⟨rfl, small, right⟩

/-- The reciprocal of 41 is rounded down, and 41 divided by itself is 0. -/
theorem translateDivision_fortyOne_fails :
    ¬ BinaryMeets roundedUnit (wordPair 70) (wordPairEnv 41 41) .divide [⟨.gpr, 1⟩] [⟨.gpr, 2⟩]
        .other (i32 41) (i32 41) ∧
      ¬ BinaryMeets roundedUnit (wordPair 70) (wordPairEnv 41 41) .modulo [⟨.gpr, 1⟩] [⟨.gpr, 2⟩]
        .other (i32 41) (i32 41) := by
  rcases wordPair_holds_rounded 70 41 41 with ⟨first, second⟩
  have small : SmallDividends (i32 41) := by
    intro a member
    cases List.mem_singleton.mp member
    decide
  have nonzero : NonzeroDivisors (i32 41) := by
    intro b member
    cases List.mem_singleton.mp member
    decide
  have wrong : ¬ DivisionsRight (i32 41) (i32 41) :=
    fun right => divisionsRight_i32.mp right (by decide)
  constructor
  · rw [division_meets_iff rfl first second (.inl rfl) rfl nonzero small]
    exact fun holds => wrong holds.2
  · rw [division_meets_iff rfl first second (.inr rfl) rfl nonzero small]
    exact fun holds => wrong holds.2

end CoralReef.NagaTranslate
