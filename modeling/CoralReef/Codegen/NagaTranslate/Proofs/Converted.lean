import CoralReef.Codegen.NagaTranslate.Proofs.Division

/-!
# Words that are read as floats

What the conversions make of words that encode something else than they are converted from.
-/

namespace CoralReef.NagaTranslate

open FloatFormat Rounding

/-- The sign, the exponent and the fraction of a word. -/
theorem word_fields (w : BitVec 32) : ∃ (negative : Bool) (e m : Nat), e < 256 ∧ m < 2 ^ 23 ∧
    w.toNat = (if negative then 2 ^ 31 else 0) + e * 2 ^ 23 + m ∧
    binary32.decode w.toNat = binary32.number negative e m := by
  rcases exists_fields binary32 w.isLt with ⟨negative, e, m, small, small', sum⟩
  refine ⟨negative, e, m, small, small', sum, ?_⟩
  rw [sum]
  exact decode_fields binary32 negative small small'

theorem toInt_saturate_eq (n : Int) : (saturate n).toInt = max (-2 ^ 31) (min n (2 ^ 31 - 1)) := by
  unfold saturate
  rw [BitVec.toInt_ofInt_eq_self (by decide) (by omega) (by omega)]

section magnitude

variable {e m : Nat}

theorem roundEven_magnitude_nonneg (e m : Nat) : 0 ≤ roundEven (binary32.magnitude e m) := by
  refine le_roundEven ?_
  rw [Int.cast_zero]
  exact magnitude_nonneg binary32 e m

/-- A magnitude below a half is rounded to zero. -/
theorem roundEven_magnitude_small (small : m < 2 ^ 23) (low : e ≤ 125) :
    roundEven (binary32.magnitude e m) = 0 := by
  have below := magnitude_lt binary32 (e := e) small
  have half : (2 : Rat) ^ ((max e 1 : Nat) + 1 - binary32.bias : Int) ≤ 2 ^ (-1 : Int) := by
    refine zpow_le_zpow_right₀ one_le_two ?_
    show ((max e 1 : Nat) : Int) + 1 - 127 ≤ -1
    omega
  rw [zpow_neg_one] at half
  refine roundEven_eq ?_ ?_
  · have := magnitude_nonneg binary32 e m
    push_cast
    linarith
  · push_cast
    linarith

theorem roundEven_magnitude_le (small : m < 2 ^ 23) (low : e ≤ 155) :
    roundEven (binary32.magnitude e m) ≤ 2 ^ 29 := by
  have below := magnitude_lt binary32 (e := e) small
  have power : (2 : Rat) ^ ((max e 1 : Nat) + 1 - binary32.bias : Int) ≤ 2 ^ (29 : Int) := by
    refine zpow_le_zpow_right₀ one_le_two ?_
    show ((max e 1 : Nat) : Int) + 1 - 127 ≤ 29
    omega
  refine roundEven_le ?_
  push_cast
  exact below.le.trans (by exact_mod_cast power)

/-- A large magnitude is an integer. -/
theorem magnitude_eq (high : 150 ≤ e) :
    binary32.magnitude e m = ((2 ^ 23 + m) * 2 ^ (e - 150) : Nat) := by
  have normal : e ≠ 0 := by omega
  have exponent : (e : Int) - binary32.bias - binary32.fraction = ((e - 150 : Nat) : Int) := by
    show (e : Int) - 127 - 23 = _
    omega
  unfold magnitude
  rw [if_neg normal, exponent, zpow_natCast]
  push_cast
  rfl

theorem roundEven_magnitude_eq (high : 150 ≤ e) :
    roundEven (binary32.magnitude e m) = ((2 ^ 23 + m) * 2 ^ (e - 150) : Nat) := by
  rw [magnitude_eq high, ← Int.cast_natCast, roundEven_intCast]

theorem le_roundEven_magnitude (high : 158 ≤ e) : 2 ^ 31 ≤ roundEven (binary32.magnitude e m) := by
  have power : 2 ^ 8 ≤ 2 ^ (e - 150) := Nat.pow_le_pow_right (by decide) (by omega)
  rw [roundEven_magnitude_eq (by omega)]
  have : 2 ^ 23 * 2 ^ 8 ≤ (2 ^ 23 + m) * 2 ^ (e - 150) :=
    Nat.mul_le_mul (Nat.le_add_right _ _) power
  exact_mod_cast this

end magnitude

/-- The conversion of a word to an integer, as if it was a float, gives back the word zero only. -/
theorem nearestInt_eq_self_iff (w : BitVec 32) :
    nearestInt (binary32.decode w.toNat) = w ↔ w = 0 := by
  constructor
  · intro same
    rcases word_fields w with ⟨negative, e, m, small, small', sum, decoded⟩
    have isInt := BitVec.toInt_eq_toNat_cond w
    have converted := congrArg BitVec.toInt same
    rw [decoded] at converted
    refine BitVec.eq_of_toNat_eq ?_
    change w.toNat = 0
    unfold FloatFormat.number at converted
    by_cases last : e = 2 ^ binary32.exponent - 1
    · have isLast : e = 255 := last
      rw [if_pos last] at converted
      by_cases zero : m = 0
      · rw [if_pos zero] at converted
        cases negative <;> simp [nearestInt, toInt_saturate_eq] at converted sum <;> omega
      · rw [if_neg zero] at converted
        cases negative <;> simp [nearestInt] at converted sum <;> omega
    · have notLast : e ≠ 255 := last
      rw [if_neg last] at converted
      have isRounded : (if negative then -roundEven (binary32.magnitude e m)
          else roundEven (binary32.magnitude e m)) =
            roundEven (if negative then -binary32.magnitude e m else binary32.magnitude e m) := by
        cases negative <;> simp [roundEven_neg]
      rw [nearestInt, toInt_saturate_eq, ← isRounded] at converted
      have nonneg := roundEven_magnitude_nonneg e m
      have small₁ := roundEven_magnitude_small (e := e) small'
      have small₂ := roundEven_magnitude_le (e := e) small'
      have exact₁ := roundEven_magnitude_eq (e := e) (m := m)
      have large := le_roundEven_magnitude (e := e) (m := m)
      generalize roundEven (binary32.magnitude e m) = r at *
      by_cases high : 158 ≤ e
      · have := large high
        cases negative <;> simp at converted sum <;> omega
      · by_cases low : e ≤ 155
        · have := small₂ low
          cases negative <;> simp at converted sum <;> omega
        · rcases (by omega : e = 156 ∨ e = 157) with rfl | rfl
          · have := exact₁ (by omega)
            cases negative <;> simp at converted sum <;> omega
          · have := exact₁ (by omega)
            cases negative <;> simp at converted sum <;> omega
  · rintro rfl
    decide +kernel

/-! ## Integers as floats -/

theorem single_neg (x : Rat) : single (-x) = -single x := roundTo_neg 24 x

theorem single_nonneg {x : Rat} (nonneg : 0 ≤ x) : 0 ≤ single x := roundTo_nonneg (by decide) nonneg

theorem single_le_pow {n : Int} {e : Nat} (le : n ≤ 2 ^ e) : single n ≤ 2 ^ e := by
  have power : (0 : Rat) < 2 ^ e := pow_pos two_pos e
  rcases lt_or_ge 0 n with positive | nonpos
  · have le' : (n : Rat) ≤ 2 ^ (e : Int) := by
      rw [zpow_natCast]
      exact_mod_cast le
    have := roundTo_le_zpow (p := 24) (by decide) (Int.cast_pos.mpr positive) le'
    rwa [zpow_natCast] at this
  · have nonneg : 0 ≤ single (-(n : Rat)) :=
      single_nonneg (neg_nonneg.mpr (Int.cast_nonpos.mpr nonpos))
    rw [single_neg] at nonneg
    linarith

theorem pow_le_single {n : Int} {e : Nat} (le : 2 ^ e ≤ n) : 2 ^ e ≤ single n := by
  have le' : (2 : Rat) ^ (e : Int) ≤ n := by
    rw [zpow_natCast]
    exact_mod_cast le
  have := zpow_le_roundTo (p := 24) (by decide) le'
  rwa [zpow_natCast] at this

/-- Integers that wrap to the same word are different floats. -/
theorem single_ne_of_wrap {n m k : Int} (low : -2 ^ 31 ≤ m) (high : m < 2 ^ 31)
    (wraps : n = m + k * 2 ^ 32) (other : n ≠ m) : single n ≠ single m := by
  have apart {n m k : Int} (low : -2 ^ 31 ≤ m) (high : m ≤ 2 ^ 31) (wraps : n = m + k * 2 ^ 32)
      (positive : 1 ≤ k) : single m < single n := by
    have large : 2 ^ 31 ≤ n := by omega
    rcases lt_or_ge m 0 with negative | nonneg
    · have notMore : single m ≤ 0 := by
        have := single_nonneg (x := -(m : Rat)) (by
          rw [neg_nonneg]
          exact_mod_cast negative.le)
        rw [single_neg] at this
        linarith
      exact notMore.trans_lt ((pow_pos two_pos 31).trans_le (pow_le_single (e := 31) large))
    · have above := pow_le_single (e := 32) (n := n) (by omega)
      have below := single_le_pow (e := 31) high
      have powers : (2 : Rat) ^ 31 < 2 ^ 32 := by norm_num
      linarith
  rcases lt_trichotomy k 0 with negative | rfl | positive
  · have less := apart (n := -n) (m := -m) (k := -k) (by omega) (by omega) (by omega) (by omega)
    rw [Int.cast_neg, Int.cast_neg, single_neg, single_neg] at less
    intro same
    linarith
  · omega
  · exact (apart low high.le wraps positive).ne'

/-- An integer of a word becomes an integer of a word. -/
theorem exists_single {n : Int} (small : n.natAbs ≤ 2 ^ 31) :
    ∃ k : Int, single n = k ∧ k.natAbs ≤ 2 ^ 31 := by
  have nats {n : Nat} (small : n ≤ 2 ^ 31) : ∃ k : Nat, single (n : Int) = k ∧ k ≤ 2 ^ 31 := by
    rcases exists_roundTo_natCast (K := Rat) 24 n with ⟨k, isK⟩
    have isK : single (n : Int) = k := by simpa [single] using isK
    have bound := single_le_pow (n := n) (e := 31) (by exact_mod_cast small)
    refine ⟨k, isK, ?_⟩
    rw [isK] at bound
    exact_mod_cast bound
  rcases nats small with ⟨k, isK, bound⟩
  rcases Int.natAbs_eq n with isNat | isNeg
  · refine ⟨k, ?_, by simpa using bound⟩
    rw [isNat]
    exact isK
  · refine ⟨-k, ?_, by simpa using bound⟩
    rw [isNeg, Int.cast_neg, single_neg, isK]
    push_cast
    rfl

/-- A pair of words encodes what its pattern does. -/
theorem decode_words (bits : Nat) :
    binary64.decode (BitVec.ofNat 32 (bits / 2 ^ (32 * 1)) ++
      BitVec.ofNat 32 (bits / 2 ^ (32 * 0))).toNat = binary64.decode bits := by
  have isPair : (BitVec.ofNat 32 (bits / 2 ^ (32 * 1)) ++
      BitVec.ofNat 32 (bits / 2 ^ (32 * 0))).toNat = bits % 2 ^ 64 := by
    rw [BitVec.toNat_append, BitVec.toNat_ofNat, BitVec.toNat_ofNat,
      ← Nat.shiftLeft_add_eq_or_of_lt (Nat.mod_lt _ (by decide)), Nat.shiftLeft_eq]
    omega
  have isSign : bits % 2 ^ 64 / 2 ^ 63 % 2 = bits / 2 ^ 63 % 2 := by omega
  have isExponent : bits % 2 ^ 64 / 2 ^ 52 % 2 ^ 11 = bits / 2 ^ 52 % 2 ^ 11 := by omega
  have isFraction : bits % 2 ^ 64 % 2 ^ 52 = bits % 2 ^ 52 := by omega
  rw [isPair]
  show FloatFormat.number _ (decide (bits % 2 ^ 64 / 2 ^ 63 % 2 = 1))
    (bits % 2 ^ 64 / 2 ^ 52 % 2 ^ 11) (bits % 2 ^ 64 % 2 ^ 52) = _
  rw [isSign, isExponent, isFraction]
  rfl

/-- The conversion of a word to a double, by way of single precision. -/
def doubleOf (w : BitVec 32) (i : Nat) : Option Value :=
  convertUnit (.f2F .f64 .f32 .nearestEven false false false) [plain (some (.float
    (single w.toInt)))] i

theorem doubleOf_decode (w : BitVec 32) : ∃ lo hi, doubleOf w 0 = some (.word lo) ∧
    doubleOf w 1 = some (.word hi) ∧
      binary64.decode (hi ++ lo).toNat = .finite (single w.toInt) := by
  have bounds : w.toInt.natAbs ≤ 2 ^ 31 := by
    have := BitVec.le_toInt w
    have := BitVec.toInt_lt (x := w)
    omega
  rcases exists_single bounds with ⟨k, isK, small⟩
  have word (i : Nat) : doubleOf w i =
      some (.word (BitVec.ofNat 32 (binary64.encodeInt k / 2 ^ (32 * i)))) := by
    show (if (single w.toInt).den = 1 then _ else _) = _
    rw [isK, if_pos (Rat.den_intCast k), Rat.num_intCast]
  refine ⟨_, _, word 0, word 1, ?_⟩
  rw [decode_words, decode_encodeInt _ (by simp [binary64]; omega) (by decide) (by decide), isK]

/-! ## Floats as integers -/

theorem truncate_le {q : Rat} {n : Int} (le : q ≤ n) : truncate q ≤ n := by
  unfold truncate
  split
  · exact Int.ceil_le.mpr le
  · exact_mod_cast (Int.floor_le q).trans le

theorem le_truncate {q : Rat} {n : Int} (le : (n : Rat) ≤ q) : n ≤ truncate q := by
  unfold truncate
  split
  · exact_mod_cast le.trans (Int.le_ceil q)
  · exact Int.le_floor.mpr le

theorem truncate_nonneg {q : Rat} (above : -1 < q) : 0 ≤ truncate q := by
  unfold truncate
  split
  · have : (-1 : Int) < ⌈q⌉ := Int.lt_ceil.mpr (by push_cast; exact above)
    omega
  · exact Int.floor_nonneg.mpr (not_lt.mp ‹_›)

/-- The floats whose nearest integer is that of the truncation, in the range of both types. -/
def TruncatedRight (signed : Bool) : FloatNumber → Prop
  | .nan => True
  | .infinite negative => signed = true ∧ negative = true
  | .finite q => q < 2 ^ 31 ∧ roundEven q = truncate q ∧ (signed = false → -1 < q)

/-- What a word encodes is an integer from `2 ^ 31` on, and leaves a gap below. -/
theorem decode_bounds {w : BitVec 32} {q : Rat} (decoded : binary32.decode w.toNat = .finite q) :
    (q < 2 ^ 31 → q ≤ 2 ^ 31 - 128) ∧ (q < -2 ^ 31 → roundEven q = truncate q) := by
  rcases word_fields w with ⟨negative, e, m, small, small', -, isNumber⟩
  rw [decoded] at isNumber
  unfold FloatFormat.number at isNumber
  have nonneg := magnitude_nonneg binary32 e m
  have low (below : e ≤ 156) : binary32.magnitude e m < 2 ^ 30 := by
    refine (magnitude_lt binary32 small').trans_le ?_
    rw [← zpow_natCast]
    refine zpow_le_zpow_right₀ one_le_two ?_
    show ((max e 1 : Nat) : Int) + 1 - 127 ≤ 30
    omega
  have last (isLast : e = 157) : binary32.magnitude e m ≤ 2 ^ 31 - 128 := by
    rw [isLast, magnitude_eq (by decide)]
    have : (2 ^ 23 + m) * 2 ^ (157 - 150) + 128 ≤ 2 ^ 31 := by omega
    rw [le_sub_iff_add_le]
    exact_mod_cast this
  have high (above : 158 ≤ e) : 2 ^ 31 ≤ binary32.magnitude e m ∧
      ∃ k : Nat, binary32.magnitude e m = k := by
    refine ⟨?_, _, magnitude_eq (by omega)⟩
    have := le_roundEven_magnitude (m := m) above
    rw [roundEven_magnitude_eq (by omega)] at this
    rw [magnitude_eq (by omega)]
    exact_mod_cast this
  split at isNumber
  · split at isNumber <;> cases isNumber
  · injection isNumber with isQ
    generalize binary32.magnitude e m = a at *
    constructor
    · intro less
      cases negative with
      | true =>
        rw [if_pos rfl] at isQ
        linarith
      | false =>
        rw [if_neg Bool.false_ne_true] at isQ
        subst isQ
        rcases (by omega : e ≤ 156 ∨ e = 157 ∨ 158 ≤ e) with below | isLast | above
        · have := low below
          norm_num at this ⊢
          linarith
        · exact last isLast
        · have := (high above).1
          linarith
    · intro less
      cases negative with
      | false =>
        rw [if_neg Bool.false_ne_true] at isQ
        linarith
      | true =>
        rw [if_pos rfl] at isQ
        have above : 158 ≤ e := by
          by_contra below
          rcases (by omega : e ≤ 156 ∨ e = 157) with below | isLast
          · have := low below
            norm_num at this less
            linarith
          · have := last isLast
            linarith
        rcases (high above).2 with ⟨k, isK⟩
        have isInt : q = ((-k : Int) : Rat) := by
          rw [isQ, isK]
          push_cast
          rfl
        rw [isInt, roundEven_intCast, truncate_intCast]

/-- The integer that a float is converted to is the truncated one. -/
theorem nearestInt_isTruncation_iff (signed : Bool) (w : BitVec 32) :
    Wgsl.IsTruncation binary32 signed 32 (binary32.decode w.toNat)
        (if signed then (nearestInt (binary32.decode w.toNat)).toInt
        else (nearestInt (binary32.decode w.toNat)).toNat) ↔
      TruncatedRight signed (binary32.decode w.toNat) := by
  have toNat_eq (n : Int) : ((saturate n).toNat : Int) =
      if 0 ≤ n then min n (2 ^ 31 - 1) else 2 ^ 32 + max (-2 ^ 31) n := by
    have isInt := toInt_saturate_eq n
    rw [BitVec.toInt_eq_toNat_cond] at isInt
    have := (saturate n).isLt
    split at isInt <;> split <;> omega
  have below31 : binary32.largestBelow 31 = 2 ^ 31 - 128 := by decide
  have below32 : binary32.largestBelow 32 = 2 ^ 32 - 256 := by decide
  have isBias : binary32.bias = 127 := rfl
  cases decoded : binary32.decode w.toNat with
  | nan => cases signed <;> simp [Wgsl.IsTruncation, TruncatedRight, nearestInt]
  | infinite negative =>
    cases signed <;> cases negative <;>
      simp [Wgsl.IsTruncation, TruncatedRight, nearestInt, toInt_saturate_eq, toNat_eq, below31,
        below32, isBias]
  | finite q =>
    rcases decode_bounds decoded with ⟨gap, low⟩
    have upper (small : q < 2 ^ 31) :
        roundEven q ≤ 2 ^ 31 - 128 ∧ truncate q ≤ 2 ^ 31 - 128 := by
      have le : q ≤ ((2 ^ 31 - 128 : Int) : Rat) := by
        have := gap small
        norm_num at this ⊢
        exact this
      exact ⟨roundEven_le le, truncate_le le⟩
    have lower {n : Int} (le : (n : Rat) ≤ q) : n ≤ roundEven q ∧ n ≤ truncate q :=
      ⟨le_roundEven le, le_truncate le⟩
    have above {n : Int} (le : q ≤ n) : roundEven q ≤ n ∧ truncate q ≤ n :=
      ⟨roundEven_le le, truncate_le le⟩
    have large (notSmall : ¬ q < 2 ^ 31) : 2 ^ 31 ≤ roundEven q ∧ 2 ^ 31 ≤ truncate q := by
      refine lower ?_
      push_cast
      linarith
    cases signed with
    | true =>
      have isRight : TruncatedRight true (.finite q) ↔
          q < 2 ^ 31 ∧ roundEven q = truncate q := by
        simp [TruncatedRight]
      rw [isRight]
      simp only [Wgsl.IsTruncation, if_true, isBias, below31, nearestInt, toInt_saturate_eq]
      by_cases small : q < 2 ^ 31
      · rw [and_iff_right small]
        have bounds := upper small
        by_cases least : q < -2 ^ 31
        · have := low least
          refine iff_of_true ?_ this
          norm_num
          omega
        · have := lower (n := -2 ^ 31) (by push_cast; linarith)
          norm_num
          omega
      · have := large small
        refine iff_of_false ?_ fun never => small never.1
        norm_num
        omega
    | false =>
      have isRight : TruncatedRight false (.finite q) ↔
          q < 2 ^ 31 ∧ roundEven q = truncate q ∧ -1 < q := by
        simp [TruncatedRight]
      rw [isRight]
      simp only [Wgsl.IsTruncation, Bool.false_eq_true, if_false, below32, nearestInt, toNat_eq]
      by_cases small : q < 2 ^ 31
      · rw [and_iff_right small]
        have bounds := upper small
        by_cases negative : q ≤ -1
        · have := above (n := -1) (by push_cast; exact negative)
          refine iff_of_false ?_ fun never => absurd never.2 (not_lt.mpr negative)
          split <;> omega
        · rw [and_iff_left (not_le.mp negative)]
          have isTruncated := truncate_nonneg (not_le.mp negative)
          have := lower (n := -1) (by push_cast; linarith)
          split <;> omega
      · have := large small
        refine iff_of_false ?_ fun never => small never.1
        split <;> omega

end CoralReef.NagaTranslate
