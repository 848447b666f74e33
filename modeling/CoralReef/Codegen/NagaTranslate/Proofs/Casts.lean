import CoralReef.Codegen.NagaTranslate.Proofs.Converted

/-!
# The conversions of WGSL and their code

For which operands the code of `translate_cast` yields the result of an `As` expression.
-/

open List

namespace CoralReef.Wgsl

open NagaTranslate

/-- The low word of a scalar. -/
def Bits.low : Bits → BitVec 32
  | .narrow w => w
  | .wide lo _ => lo
  | .bool b => if b then 1 else 0

/-- The high word of a scalar that is extended to 64 bits. -/
def Bits.high (ty : CastType) : Bits → BitVec 32
  | .narrow w => if ty = .i32 ∧ w.msb = true then BitVec.allOnes 32 else 0
  | .wide _ hi => hi
  | .bool _ => 0

/-- An integer or a bool, as a number. -/
def CastType.number? (ty : CastType) (bits : Bits) : Option Int :=
  match ty.datum bits with
  | some (.int n) => some n
  | some (.bool b) => some (if b then 1 else 0)
  | _ => none

/-! ## Registers of a type -/

attribute [local simp] castValues convertUnit

section reads

attribute [local simp] CastType.datum

variable {regs : List (Option Value)} {y : Datum}

theorem reads_i32 : CastType.i32.Reads regs y ↔
    ∃ w : BitVec 32, regs = [some (.word w)] ∧ y = .int w.toInt := by
  constructor
  · rintro (⟨bits, held, isDatum⟩ | ⟨never, -⟩)
    · cases bits <;> simp at isDatum
      exact ⟨_, held, isDatum.symm⟩
    · cases never
  · rintro ⟨w, rfl, rfl⟩
    exact .inl ⟨.narrow w, rfl, rfl⟩

theorem reads_u32 : CastType.u32.Reads regs y ↔
    ∃ w : BitVec 32, regs = [some (.word w)] ∧ y = .int w.toNat := by
  constructor
  · rintro (⟨bits, held, isDatum⟩ | ⟨never, -⟩)
    · cases bits <;> simp at isDatum
      exact ⟨_, held, isDatum.symm⟩
    · cases never
  · rintro ⟨w, rfl, rfl⟩
    exact .inl ⟨.narrow w, rfl, rfl⟩

theorem reads_i64 : CastType.i64.Reads regs y ↔ ∃ lo hi : BitVec 32,
    regs = [some (.word lo), some (.word hi)] ∧ y = .int (hi ++ lo).toInt := by
  constructor
  · rintro (⟨bits, held, isDatum⟩ | ⟨never, -⟩)
    · cases bits <;> simp at isDatum
      exact ⟨_, _, held, isDatum.symm⟩
    · cases never
  · rintro ⟨lo, hi, rfl, rfl⟩
    exact .inl ⟨.wide lo hi, rfl, rfl⟩

theorem reads_u64 : CastType.u64.Reads regs y ↔ ∃ lo hi : BitVec 32,
    regs = [some (.word lo), some (.word hi)] ∧ y = .int (hi ++ lo).toNat := by
  constructor
  · rintro (⟨bits, held, isDatum⟩ | ⟨never, -⟩)
    · cases bits <;> simp at isDatum
      refine ⟨_, _, held, ?_⟩
      simp [← isDatum]
    · cases never
  · rintro ⟨lo, hi, rfl, rfl⟩
    exact .inl ⟨.wide lo hi, rfl, rfl⟩

theorem reads_f64 : CastType.f64.Reads regs y ↔ ∃ lo hi : BitVec 32,
    regs = [some (.word lo), some (.word hi)] ∧
      y = .float (FloatFormat.binary64.decode (hi ++ lo).toNat) := by
  constructor
  · rintro (⟨bits, held, isDatum⟩ | ⟨never, -⟩)
    · cases bits <;> simp only [CastType.datum, reduceCtorEq, Option.some.injEq] at isDatum
      exact ⟨_, _, held, isDatum.symm⟩
    · cases never
  · rintro ⟨lo, hi, rfl, rfl⟩
    exact .inl ⟨.wide lo hi, rfl, rfl⟩

theorem reads_f32 : CastType.f32.Reads regs y ↔
    (∃ w : BitVec 32, regs = [some (.word w)] ∧
      y = .float (FloatFormat.binary32.decode w.toNat)) ∨
      ∃ q, regs = [some (.float q)] ∧ y = .float (.finite q) := by
  constructor
  · rintro (⟨bits, held, isDatum⟩ | ⟨-, isFloat⟩)
    · cases bits <;> simp only [CastType.datum, reduceCtorEq, Option.some.injEq] at isDatum
      exact .inl ⟨_, held, isDatum.symm⟩
    · exact .inr isFloat
  · rintro (⟨w, rfl, rfl⟩ | isFloat)
    · exact .inl ⟨.narrow w, rfl, rfl⟩
    · exact .inr ⟨rfl, isFloat⟩

theorem reads_bool : CastType.bool.Reads regs y ↔ ∃ b : Bool,
    (regs = [some (.pred b)] ∨ regs = [some (.word (if b then 1 else 0))]) ∧ y = .bool b := by
  constructor
  · rintro (⟨bits, held, isDatum⟩ | ⟨never, -⟩)
    · cases bits <;> simp at isDatum
      exact ⟨_, held, isDatum.symm⟩
    · cases never
  · rintro ⟨b, held, rfl⟩
    exact .inl ⟨.bool b, held, rfl⟩

end reads

/-! ## Integers and bools -/

theorem toNat_append (hi lo : BitVec 32) : (hi ++ lo).toNat = hi.toNat * 2 ^ 32 + lo.toNat := by
  rw [BitVec.toNat_append, ← Nat.shiftLeft_add_eq_or_of_lt lo.isLt, Nat.shiftLeft_eq]

/-- A number and the words of its extension. -/
theorem number?_extends {ty : CastType} {bits : Bits} {n : Int}
    (isNumber : ty.number? bits = some n) :
    n % 2 ^ 64 = (bits.high ty ++ bits.low).toNat ∧ -2 ^ 63 ≤ n ∧ n < 2 ^ 64 := by
  rw [toNat_append]
  have low := bits.low.isLt
  have high := (bits.high ty).isLt
  cases ty <;> cases bits <;> simp [CastType.number?, CastType.datum] at isNumber
  case i32.narrow w =>
    have isInt := BitVec.toInt_eq_msb_cond w
    subst isNumber
    by_cases negative : w.msb = true <;> simp [negative, Bits.high, Bits.low] at * <;> omega
  case u32.narrow w =>
    subst isNumber
    simp [Bits.high, Bits.low] at *
    omega
  case i64.wide lo hi =>
    have isInt := BitVec.toInt_eq_toNat_cond (hi ++ lo)
    rw [toNat_append] at isInt
    subst isNumber
    simp only [Bits.high, Bits.low] at *
    split at isInt <;> omega
  case u64.wide lo hi =>
    have isNat := toNat_append hi lo
    simp only [Bits.high, Bits.low] at *
    omega
  case bool.bool b =>
    cases b <;> simp at isNumber <;> subst isNumber <;> simp [Bits.high, Bits.low]

/-- A conversion of an integer or a bool is that of its number. -/
theorem isConversion_number {source target : CastType} {bits : Bits} {n : Int}
    (isNumber : source.number? bits = some n) {y : Datum} :
    IsCast false source target bits y ↔ y = ofInt target n := by
  unfold IsCast CastType.number? at *
  rw [if_neg Bool.false_ne_true]
  cases isDatum : source.datum bits with
  | none => simp [isDatum] at isNumber
  | some x =>
    cases x with
    | int m =>
      have same : m = n := by simpa [isDatum] using isNumber
      rw [← same]
      simp [IsConversion]
    | float x => simp [isDatum] at isNumber
    | bool b =>
      have same : (if b then 1 else 0) = n := by simpa [isDatum] using isNumber
      simp only [Option.some.injEq, exists_eq_left', IsConversion]
      by_cases isBool : target = .bool
      · rw [if_pos isBool, ← same, isBool]
        cases b <;> simp [ofInt, CastType.format?, CastType.int?]
      · rw [if_neg isBool, same]

section number

variable {ty : CastType} {bits : Bits} {n : Int} {v : Option Value}

theorem number_word (isNumber : ty.number? bits = some n) :
    ∃ k, n = bits.low.toInt + k * 2 ^ 32 := by
  have extends' := (number?_extends isNumber).1
  rw [toNat_append] at extends'
  have isInt := BitVec.toInt_eq_toNat_cond bits.low
  refine ⟨(n - bits.low.toInt) / 2 ^ 32, ?_⟩
  split at isInt <;> omega

/-- A word is the float of the number when the number is that of the word. -/
theorem single_word_iff (isNumber : ty.number? bits = some n) :
    single bits.low.toInt = single n ↔ n = bits.low.toInt := by
  rcases number_word isNumber with ⟨k, wraps⟩
  constructor
  · intro same
    by_contra other
    have low := BitVec.le_toInt bits.low
    have high := BitVec.toInt_lt (x := bits.low)
    exact single_ne_of_wrap low high wraps other same.symm
  · rintro same
    rw [← same]

theorem ofInt_f32 (isNumber : ty.number? bits = some n) :
    ofInt .f32 n = .float (.finite (single n)) := by
  have bounds := (number?_extends isNumber).2
  have small : n.natAbs ≤ 2 ^ FloatFormat.binary32.bias := by
    have : (2 : Nat) ^ 64 ≤ 2 ^ FloatFormat.binary32.bias := Nat.pow_le_pow_right (by decide)
      (by decide)
    omega
  exact congrArg Datum.float (FloatFormat.round_intCast _ (by decide) small)

theorem f32_iff (isNumber : ty.number? bits = some n)
    (held : v = some (.word bits.low) ∨ ∃ b, v = some (.pred b)) :
    CastType.f32.Reads [convertUnit (.i2F .f32 .i32 .nearestEven) [plain v] 0] (ofInt .f32 n) ↔
      n = bits.low.toInt ∧ v = some (.word bits.low) := by
  rw [reads_f32, ofInt_f32 isNumber]
  rcases held with rfl | ⟨b, rfl⟩
  · simp [single_word_iff isNumber, eq_comm (a := single n)]
  · simp

theorem ofInt_f64 (small : n.natAbs < 2 ^ 53) : ofInt .f64 n = .float (.finite n) := by
  have bounded : n.natAbs ≤ 2 ^ FloatFormat.binary64.bias := by
    have : (2 : Nat) ^ 53 ≤ 2 ^ FloatFormat.binary64.bias := Nat.pow_le_pow_right (by decide)
      (by decide)
    omega
  have isExact : Rounding.roundTo 53 (n : Rat) = n := by
    rcases Int.natAbs_eq n with isNat | isNeg
    · rw [isNat, Int.cast_natCast]
      exact Rounding.roundTo_natCast small
    · rw [isNeg, Int.cast_neg, Int.cast_natCast, Rounding.roundTo_neg]
      exact congrArg Neg.neg (Rounding.roundTo_natCast small)
  have rounded := FloatFormat.round_intCast .binary64 (by decide) bounded
  exact congrArg Datum.float (rounded.trans (congrArg FloatNumber.finite isExact))

/-- A number of one register is the double of its word when it is that of the word and a float. -/
theorem f64_iff (isNumber : ty.number? bits = some n) (narrow : n.natAbs < 2 ^ 32)
    (held : v = some (.word bits.low) ∨ ∃ b, v = some (.pred b)) :
    CastType.f64.Reads (castValues convertUnit .float (some 8) [v]) (ofInt .f64 n) ↔
      (n = bits.low.toInt ∧ single n = n) ∧ v = some (.word bits.low) := by
  rw [reads_f64, ofInt_f64 (narrow.trans (by decide))]
  rcases held with rfl | ⟨b, rfl⟩
  · rcases doubleOf_decode bits.low with ⟨lo, hi, isLo, isHi, decoded⟩
    have values : castValues convertUnit .float (some 8) [some (.word bits.low)] =
        [some (.word lo), some (.word hi)] := by
      rw [← isLo, ← isHi]
      rfl
    rw [values, and_iff_left rfl]
    constructor
    · rintro ⟨lo', hi', same, isDouble⟩
      simp only [List.cons.injEq, Option.some.injEq, Value.word.injEq, and_true] at same
      rw [← same.1, ← same.2, decoded] at isDouble
      have isExact : (n : Rat) = single bits.low.toInt := by simpa using isDouble
      have isWord : n = bits.low.toInt := by
        by_contra other
        rcases number_word isNumber with ⟨k, wraps⟩
        rcases lt_trichotomy k 0 with negative | rfl | positive
        · have above : 0 ≤ single bits.low.toInt := by
            refine single_nonneg ?_
            exact_mod_cast (by omega : 0 ≤ bits.low.toInt)
          rw [← isExact] at above
          have : 0 ≤ n := by exact_mod_cast above
          have := BitVec.toInt_lt (x := bits.low)
          omega
        · omega
        · have above : 0 ≤ single (-(bits.low.toInt : Rat)) := by
            refine single_nonneg ?_
            exact_mod_cast (by omega : 0 ≤ -bits.low.toInt)
          rw [single_neg, ← isExact] at above
          have : 0 ≤ -n := by exact_mod_cast above
          have := BitVec.le_toInt bits.low
          omega
      exact ⟨isWord, by rw [isWord, ← isExact, isWord]⟩
    · rintro ⟨isWord, isExact⟩
      refine ⟨lo, hi, rfl, ?_⟩
      rw [decoded, ← isWord, isExact]
  · simp

theorem ofInt_i32 (isNumber : ty.number? bits = some n) : ofInt .i32 n = .int bits.low.toInt := by
  have extends' := (number?_extends isNumber).1
  rw [toNat_append] at extends'
  have lowWord : n % (2 ^ 32 : Nat) = bits.low.toNat := by
    have := bits.low.isLt
    omega
  rw [BitVec.toInt_eq_toNat_bmod, ← lowWord, Int.emod_bmod]
  rfl

theorem ofInt_u32 (isNumber : ty.number? bits = some n) : ofInt .u32 n = .int bits.low.toNat := by
  have extends' := (number?_extends isNumber).1
  rw [toNat_append] at extends'
  have lowWord : n % 2 ^ 32 = bits.low.toNat := by
    have := bits.low.isLt
    omega
  exact congrArg Datum.int lowWord

theorem ofInt_i64 (isNumber : ty.number? bits = some n) :
    ofInt .i64 n = .int (bits.high ty ++ bits.low).toInt := by
  have extends' : n % (2 ^ 64 : Nat) = (bits.high ty ++ bits.low).toNat :=
    (number?_extends isNumber).1
  rw [BitVec.toInt_eq_toNat_bmod, ← extends', Int.emod_bmod]
  rfl

theorem ofInt_u64 (isNumber : ty.number? bits = some n) :
    ofInt .u64 n = .int (bits.high ty ++ bits.low).toNat :=
  congrArg Datum.int (number?_extends isNumber).1

theorem nearest_iff (isNumber : ty.number? bits = some n)
    (held : v = some (.word bits.low) ∨ ∃ b, v = some (.pred b)) {target : CastType}
    (isInt : target = .i32 ∨ target = .u32) :
    target.Reads [convertUnit (.f2I .i32 .f32 .nearestEven false) [plain v] 0] (ofInt target n) ↔
      v = some (.word 0) := by
  rcases held with rfl | ⟨b, rfl⟩
  · have value : convertUnit (.f2I .i32 .f32 .nearestEven false) [plain (some (.word bits.low))] 0 =
        some (.word (nearestInt (FloatFormat.binary32.decode bits.low.toNat))) := rfl
    have isWord (w : BitVec 32) : target.Reads [some (.word w)] (ofInt target n) ↔
        w = bits.low := by
      rcases isInt with rfl | rfl
      · rw [reads_i32, ofInt_i32 isNumber]
        simp [BitVec.toInt_inj, eq_comm (a := w)]
      · rw [reads_u32, ofInt_u32 isNumber]
        simp [BitVec.toNat_inj, eq_comm (a := w)]
    rw [value, isWord, nearestInt_eq_self_iff]
    simp
  · rcases isInt with rfl | rfl
    · simp [reads_i32]
    · simp [reads_u32]

/-- An extension with zeros is that of a number that is not negative. -/
theorem u64_iff (isNumber : ty.number? bits = some n) :
    CastType.u64.Reads [some (.word bits.low), some (.word 0)] (ofInt .u64 n) ↔
      n = bits.low.toNat := by
  rcases number?_extends isNumber with ⟨extends', low, high⟩
  rw [reads_u64, ofInt_u64 isNumber]
  rw [toNat_append] at extends'
  have small := bits.low.isLt
  have isZero : ((0 : BitVec 32) ++ bits.low).toNat = bits.low.toNat := by
    rw [toNat_append]
    simp
  constructor
  · rintro ⟨lo, hi, same, isNat⟩
    simp only [List.cons.injEq, Option.some.injEq, Value.word.injEq, and_true] at same
    rw [← same.1, ← same.2] at isNat
    injection isNat with isNat
    rw [isZero, toNat_append] at isNat
    omega
  · intro isLow
    refine ⟨bits.low, 0, rfl, ?_⟩
    rw [isZero, toNat_append]
    congr 1
    omega

theorem i64_iff (isNumber : ty.number? bits = some n) (w : BitVec 32) :
    CastType.i64.Reads [some (.word bits.low), some (.word w)] (ofInt .i64 n) ↔
      bits.high ty = w := by
  rw [reads_i64, ofInt_i64 isNumber]
  constructor
  · rintro ⟨lo, hi, same, isInt⟩
    simp only [List.cons.injEq, Option.some.injEq, Value.word.injEq, and_true] at same
    rw [← same.1, ← same.2] at isInt
    injection isInt with isInt
    have isNat := congrArg BitVec.toNat (BitVec.toInt_inj.mp isInt)
    rw [toNat_append, toNat_append] at isNat
    exact BitVec.eq_of_toNat_eq (by omega)
  · rintro rfl
    exact ⟨_, _, rfl, rfl⟩

theorem bool_iff (isNumber : ty.number? bits = some n) :
    CastType.bool.Reads [some (.word bits.low)] (ofInt .bool n) ↔
      bits.low = 1 ∨ bits.low = 0 ∧ bits.high ty = 0 := by
  rcases number?_extends isNumber with ⟨extends', low, high⟩
  rw [toNat_append] at extends'
  have isZero : n = 0 ↔ bits.low = 0 ∧ bits.high ty = 0 := by
    have zeroNat : (0 : BitVec 32).toNat = 0 := rfl
    rw [← BitVec.toNat_inj, ← BitVec.toNat_inj, zeroNat]
    omega
  have isBool : ofInt .bool n = .bool (decide (n ≠ 0)) := rfl
  rw [reads_bool, isBool]
  by_cases zero : n = 0
  · have words := isZero.mp zero
    simp [zero, words]
  · have words : ¬ (bits.low = 0 ∧ bits.high ty = 0) := fun zeros => zero (isZero.mpr zeros)
    rw [or_iff_left words]
    simp [zero]

end number

/-! ## When a conversion is right -/

/-- The conversions of a scalar that the code is right for. Of an integer or a bool it is the
signed conversion of the low word that is made a float, and a float that is made an integer; a
predicate is no operand of either. -/
def CastRight (bitcast : Bool) (source target : CastType) (bits : Bits) (v : Option Value) : Prop :=
  if bitcast then source.scalar.width ≤ 4
  else
    match source.number? bits with
    | some n =>
      match target with
      | .f16 => False
      | .f32 => n = bits.low.toInt ∧ v = some (.word bits.low)
      | .f64 => source.scalar.width ≤ 4 ∧ (n = bits.low.toInt ∧ single n = n) ∧
          v = some (.word bits.low)
      | .i32 | .u32 => v = some (.word 0)
      | .i64 => v = some (.word bits.low) ∧ bits.high source = bits.low <<< 1
      | .u64 => n = bits.low.toNat
      | .bool => bits.low = 1 ∨ bits.low = 0 ∧ bits.high source = 0
    | none =>
      match source, target with
      | .f32, .i32 => TruncatedRight true (FloatFormat.binary32.decode bits.low.toNat)
      | .f32, .u32 => TruncatedRight false (FloatFormat.binary32.decode bits.low.toNat)
      | .f32, .bool => bits.low = 0 ∨ bits.low = 1
      | .f16, .f16 | .f64, .f64 => True
      | _, _ => False

/-- The conversions of scalars whose results are not by chance those of other bits. -/
def CastDecided (bitcast : Bool) (source target : CastType) : Prop :=
  bitcast = true ∨
    match source with
    | .f16 => target = .f16
    | .f32 => target = .i32 ∨ target = .u32 ∨ target = .bool
    | .f64 => target = .f64
    | .i64 | .u64 => target ≠ .f16 ∧ target ≠ .f64
    | _ => target ≠ .f16

section scalar

variable {source target : CastType} {bits : Bits} {part : List (Option Value)}

/-- The first register of a scalar. -/
theorem Bits.Held.first (held : bits.Held part) :
    (part[0]?).join = some (.word bits.low) ∨ ∃ b, (part[0]?).join = some (.pred b) := by
  cases bits with
  | narrow w =>
    have isPart : part = [some (.word w)] := held
    rw [isPart]
    exact .inl rfl
  | wide lo hi =>
    have isPart : part = [some (.word lo), some (.word hi)] := held
    rw [isPart]
    exact .inl rfl
  | bool b =>
    rcases held with rfl | rfl
    · exact .inr ⟨b, rfl⟩
    · exact .inl rfl

/-- A copy of the first register to a general one. -/
theorem Bits.Held.copied (held : bits.Held part) :
    toGpr (part[0]?).join = some (.word bits.low) := by
  cases bits with
  | narrow w =>
    have isPart : part = [some (.word w)] := held
    rw [isPart]
    rfl
  | wide lo hi =>
    have isPart : part = [some (.word lo), some (.word hi)] := held
    rw [isPart]
    rfl
  | bool b => rcases held with rfl | rfl <;> rfl

/-- The code yields a result of a scalar. -/
def ScalarYields (bitcast : Bool) (source target : CastType) (bits : Bits)
    (part : List (Option Value)) : Prop :=
  ∃ y, IsCast bitcast source target bits y ∧
    target.Reads (castValues convertUnit target.scalar.kind
      (if bitcast then none else some target.scalar.width) part) y

/-- What is a number is no float, and its bits are those of its width. -/
theorem number?_source {n : Int} (isNumber : source.number? bits = some n) :
    (source = .i32 ∨ source = .u32 ∨ source = .bool) ∧ n.natAbs < 2 ^ 32 ∧
        (∀ lo hi, bits ≠ .wide lo hi) ∨
      (source = .i64 ∨ source = .u64) ∧ ∃ lo hi, bits = .wide lo hi := by
  cases source <;> cases bits <;> simp [CastType.number?, CastType.datum] at isNumber
  case i32.narrow w =>
    have low := BitVec.le_toInt w
    have high := BitVec.toInt_lt (x := w)
    refine .inl ⟨by simp, ?_, by simp⟩
    omega
  case u32.narrow w =>
    have high := w.isLt
    refine .inl ⟨by simp, ?_, by simp⟩
    omega
  case i64.wide lo hi => exact .inr ⟨by simp, lo, hi, rfl⟩
  case u64.wide lo hi => exact .inr ⟨by simp, lo, hi, rfl⟩
  case bool.bool b =>
    refine .inl ⟨by simp, ?_, by simp⟩
    cases b <;> simp at isNumber <;> omega

theorem Bits.Held.single (held : bits.Held part) (narrow : ∀ lo hi, bits ≠ .wide lo hi) :
    part = [(part[0]?).join] := by
  cases bits with
  | narrow w =>
    have isPart : part = [some (.word w)] := held
    rw [isPart]
    rfl
  | wide lo hi => exact absurd rfl (narrow lo hi)
  | bool b => rcases held with rfl | rfl <;> rfl

/-- The conversions of integers and bools. -/
theorem number_yields_iff {n : Int} (isNumber : source.number? bits = some n)
    (held : bits.Held part) (decided : CastDecided false source target) :
    ScalarYields false source target bits part ↔
      CastRight false source target bits (part[0]?).join := by
  have first := held.first
  have copied := held.copied
  unfold ScalarYields CastRight
  simp only [isConversion_number isNumber, exists_eq_left, Bool.false_eq_true, if_false, isNumber]
  cases target with
  | f16 =>
    refine absurd decided ?_
    rcases number?_source isNumber with ⟨rfl | rfl | rfl, -⟩ | ⟨rfl | rfl, -⟩ <;>
      simp [CastDecided]
  | f32 => exact f32_iff isNumber first
  | f64 =>
    rcases number?_source isNumber with ⟨isSource, small, narrow⟩ | ⟨rfl | rfl, -⟩
    · have width : source.scalar.width ≤ 4 := by
        rcases isSource with rfl | rfl | rfl <;> decide
      have values := f64_iff isNumber small first
      rw [← held.single narrow] at values
      rw [and_iff_right width]
      exact values
    · simp [CastDecided] at decided
    · simp [CastDecided] at decided
  | i32 => exact nearest_iff isNumber first (.inl rfl)
  | u32 => exact nearest_iff isNumber first (.inr rfl)
  | i64 =>
    show CastType.i64.Reads [toGpr (part[0]?).join,
      (Value.word? (part[0]?).join).map fun w : BitVec 32 => .word (w <<< 1)] _ ↔ _
    rw [copied]
    rcases first with isWord | ⟨b, isPred⟩
    · rw [isWord, and_iff_right rfl]
      exact i64_iff isNumber _
    · rw [isPred]
      simp [reads_i64]
  | u64 =>
    show CastType.u64.Reads [toGpr (part[0]?).join, some (.word 0)] _ ↔ _
    rw [copied]
    exact u64_iff isNumber
  | bool =>
    show CastType.bool.Reads [toGpr (part[0]?).join] _ ↔ _
    rw [copied]
    exact bool_iff isNumber

/-- The integers of a width of 32 bits. -/
def intOf (signed : Bool) : CastType := if signed then .i32 else .u32

theorem isCast_truncation (signed : Bool) {w : BitVec 32} {y : Datum} :
    IsCast false .f32 (intOf signed) (.narrow w) y ↔ ∃ n, y = .int n ∧
      IsTruncation .binary32 signed 32 (FloatFormat.binary32.decode w.toNat) n := by
  cases signed <;>
  · constructor
    · rintro ⟨x, isX, conversion⟩
      cases isX
      exact conversion
    · intro conversion
      exact ⟨_, rfl, conversion⟩

/-- A float of single precision that becomes an integer. -/
theorem truncated_yields_iff (signed : Bool) {w : BitVec 32} :
    ScalarYields false .f32 (intOf signed) (.narrow w) [some (.word w)] ↔
      TruncatedRight signed (FloatFormat.binary32.decode w.toNat) := by
  have values : castValues convertUnit (intOf signed).scalar.kind
      (if false = true then none else some (intOf signed).scalar.width) [some (.word w)] =
        [some (.word (nearestInt (FloatFormat.binary32.decode w.toNat)))] := by
    cases signed <;> rfl
  have reads (y : Datum) : (intOf signed).Reads
      [some (.word (nearestInt (FloatFormat.binary32.decode w.toNat)))] y ↔
        y = .int (if signed then (nearestInt (FloatFormat.binary32.decode w.toNat)).toInt
          else (nearestInt (FloatFormat.binary32.decode w.toNat)).toNat) := by
    cases signed
    · simp [intOf, reads_u32]
    · simp [intOf, reads_i32]
  rw [← nearestInt_isTruncation_iff]
  unfold ScalarYields
  simp only [values, reads, isCast_truncation]
  simp

/-- A float of single precision that becomes a bool. -/
theorem nonzero_yields_iff {w : BitVec 32} :
    ScalarYields false .f32 .bool (.narrow w) [some (.word w)] ↔ w = 0 ∨ w = 1 := by
  have isCast (y : Datum) : IsCast false .f32 .bool (.narrow w) y ↔
      y = .bool (FloatFormat.binary32.decode w.toNat ≠ .finite 0) := by
    constructor
    · rintro ⟨x, isX, conversion⟩
      cases isX
      exact conversion
    · intro conversion
      exact ⟨_, rfl, conversion⟩
  have values : castValues convertUnit CastType.bool.scalar.kind
      (if false = true then none else some CastType.bool.scalar.width) [some (.word w)] =
        [some (.word w)] := rfl
  have zero : FloatFormat.binary32.decode (0 : BitVec 32).toNat = .finite 0 := by decide +kernel
  have one : FloatFormat.binary32.decode (1 : BitVec 32).toNat ≠ .finite 0 := by decide +kernel
  unfold ScalarYields
  simp only [values, isCast, exists_eq_left, reads_bool]
  constructor
  · rintro ⟨b, held, -⟩
    cases b <;> simp at held <;> simp [held]
  · rintro (rfl | rfl)
    · refine ⟨false, .inr rfl, ?_⟩
      rw [zero]
      simp
    · refine ⟨true, .inr rfl, ?_⟩
      rw [decide_eq_true one]

/-- Bits of one register are copied, those of two are not. -/
theorem bitcast_yields_iff (held : bits.Held part) (isSource : (source.datum bits).isSome)
    (allows : allowedCast true source target = true) :
    ScalarYields true source target bits part ↔ source.scalar.width ≤ 4 := by
  have copied := held.copied
  have same : source.scalar.width = target.scalar.width := by simpa [allowedCast] using allows
  have values : castValues convertUnit target.scalar.kind
      (if true = true then none else some target.scalar.width) part = [some (.word bits.low)] := by
    rw [if_pos rfl, ← copied]
    cases target <;> rfl
  unfold ScalarYields
  rw [values]
  simp only [IsCast, if_true]
  constructor
  · rintro ⟨y, -, reads⟩
    cases target <;> (try exact same.trans_le (by decide))
    · simp [reads_f64] at reads
    · simp [reads_i64] at reads
    · simp [reads_u64] at reads
  · intro narrow
    have isTarget : (target.datum bits).isSome := by
      cases source <;> cases target <;> (try exact absurd same (by decide)) <;>
        (try exact absurd narrow (by decide)) <;> (try exact isSource) <;>
        cases bits <;> first | rfl | exact absurd isSource (by simp [CastType.datum])
    have heldLow : bits.Held [some (.word bits.low)] := by
      cases bits with
      | narrow w => rfl
      | wide lo hi => cases source <;> first | exact absurd narrow (by decide) | cases isSource
      | bool b => exact .inr rfl
    rcases Option.isSome_iff_exists.mp isTarget with ⟨y, isDatum⟩
    exact ⟨y, isDatum, .inl ⟨bits, heldLow, isDatum⟩⟩

/-- What is no number is a float, in the registers of its width. -/
theorem float_source (held : bits.Held part) (isSource : (source.datum bits).isSome)
    (noNumber : source.number? bits = none) :
    (source = .f16 ∨ source = .f32) ∧ (∃ w, bits = .narrow w ∧ part = [some (.word w)]) ∨
      source = .f64 ∧ ∃ lo hi, bits = .wide lo hi ∧ part = [some (.word lo), some (.word hi)] := by
  cases source <;> cases bits <;> simp [CastType.number?, CastType.datum] at noNumber isSource
  case f16.narrow w => exact .inl ⟨.inl rfl, w, rfl, held⟩
  case f32.narrow w => exact .inl ⟨.inr rfl, w, rfl, held⟩
  case f64.wide lo hi => exact .inr ⟨rfl, lo, hi, rfl, held⟩

/-- The registers of a float hold the result of its conversion to its own type. -/
theorem same_reads (isFloat : source = .f16 ∨ source = .f64) (held : bits.Held part)
    (isSource : (source.datum bits).isSome) (noNumber : source.number? bits = none) :
    ∃ y, IsCast false source source bits y ∧ source.Reads part y := by
  rcases Option.isSome_iff_exists.mp isSource with ⟨x, isDatum⟩
  refine ⟨x, ⟨x, isDatum, ?_⟩, .inl ⟨bits, held, isDatum⟩⟩
  unfold CastType.number? at noNumber
  rcases isFloat with rfl | rfl <;> cases x <;> simp [isDatum] at noNumber <;>
  · rename_i x
    cases x <;> simp [IsConversion, CastType.format?]

theorem same_yields (isFloat : source = .f16 ∨ source = .f64) (held : bits.Held part)
    (isSource : (source.datum bits).isSome) (noNumber : source.number? bits = none) :
    ScalarYields false source source bits part := by
  have values : castValues convertUnit source.scalar.kind
      (if false = true then none else some source.scalar.width) part = part := by
    rcases float_source held isSource noNumber with
      ⟨rfl | rfl, w, rfl, rfl⟩ | ⟨rfl, lo, hi, rfl, rfl⟩
    · rfl
    · simp at isFloat
    · rfl
  unfold ScalarYields
  rw [values]
  exact same_reads isFloat held isSource noNumber

/-- The conversions of scalars: where the condition holds the code is right, and of those that are
decided only there. -/
theorem scalar_yields (held : bits.Held part) (isSource : (source.datum bits).isSome)
    {bitcast : Bool} (allows : allowedCast bitcast source target = true) :
    (CastRight bitcast source target bits (part[0]?).join →
      ScalarYields bitcast source target bits part) ∧
    (CastDecided bitcast source target → ScalarYields bitcast source target bits part →
      CastRight bitcast source target bits (part[0]?).join) := by
  cases bitcast with
  | true =>
    have yields := bitcast_yields_iff held isSource allows
    exact ⟨yields.mpr, fun _ => yields.mp⟩
  | false =>
    cases isNumber : source.number? bits with
    | some n =>
      have decided (right : CastRight false source target bits (part[0]?).join) :
          CastDecided false source target := by
        unfold CastRight at right
        simp only [Bool.false_eq_true, if_false, isNumber] at right
        rcases number?_source isNumber with ⟨rfl | rfl | rfl, -⟩ | ⟨rfl | rfl, -⟩ <;>
          cases target <;> simp [CastDecided, CastType.scalar] at right ⊢
      refine ⟨fun right => ?_, fun decided => (number_yields_iff isNumber held decided).mp⟩
      exact (number_yields_iff isNumber held (decided right)).mpr right
    | none =>
      have same (isFloat : source = .f16 ∨ source = .f64) :=
        same_yields isFloat held isSource isNumber
      rcases float_source held isSource isNumber with
        ⟨rfl | rfl, w, rfl, rfl⟩ | ⟨rfl, lo, hi, rfl, rfl⟩
      · have right : CastRight false .f16 target (.narrow w) (some (.word w)) ↔ target = .f16 := by
          unfold CastRight
          simp only [Bool.false_eq_true, if_false, isNumber]
          cases target <;> simp
        have decided : CastDecided false .f16 target ↔ target = .f16 := by
          simp [CastDecided]
        have value : (([some (.word w)] : List (Option Value))[0]?).join = some (.word w) := rfl
        rw [value, right, decided]
        refine ⟨?_, fun isTarget _ => isTarget⟩
        rintro rfl
        exact same (.inl rfl)
      · cases target with
        | i32 =>
          have yields := truncated_yields_iff true (w := w)
          exact ⟨yields.mpr, fun _ => yields.mp⟩
        | u32 =>
          have yields := truncated_yields_iff false (w := w)
          exact ⟨yields.mpr, fun _ => yields.mp⟩
        | bool =>
          have yields := nonzero_yields_iff (w := w)
          exact ⟨yields.mpr, fun _ => yields.mp⟩
        | _ => exact ⟨False.elim, fun decided => by simp [CastDecided] at decided⟩
      · cases target with
        | f64 => exact ⟨fun _ => same (.inr rfl), fun _ _ => trivial⟩
        | _ => exact ⟨False.elim, fun decided => by simp [CastDecided] at decided⟩

end scalar

/-! ## Scalars and vectors -/

/-- The registers of a scalar. -/
def CastType.words : CastType → Nat
  | .f64 | .i64 | .u64 => 2
  | _ => 1

theorem CastType.Reads.length {ty : CastType} {regs : List (Option Value)} {y : Datum}
    (reads : ty.Reads regs y) : regs.length = ty.words := by
  rcases reads with ⟨bits, held, isDatum⟩ | ⟨rfl, q, rfl, -⟩
  · cases bits with
    | narrow w =>
      have isRegs : regs = [some (.word w)] := held
      rw [isRegs]
      cases ty <;> first | rfl | simp [CastType.datum] at isDatum
    | wide lo hi =>
      have isRegs : regs = [some (.word lo), some (.word hi)] := held
      rw [isRegs]
      cases ty <;> first | rfl | simp [CastType.datum] at isDatum
    | bool b =>
      cases ty <;> rcases held with rfl | rfl <;> first | rfl | simp [CastType.datum] at isDatum
  · rfl

theorem held_length {ty : CastType} {bits : Bits} {part : List (Option Value)}
    (held : bits.Held part) (isSource : (ty.datum bits).isSome) : part.length = ty.words := by
  rcases Option.isSome_iff_exists.mp isSource with ⟨y, isDatum⟩
  exact CastType.Reads.length (.inl ⟨bits, held, isDatum⟩)

theorem flatten_length {β : Type} {n : Nat} {R : β → List (Option Value) → Prop} {l : List β}
    {parts : List (List (Option Value))} (related : List.Forall₂ R l parts)
    (each : ∀ b ∈ l, ∀ part, R b part → part.length = n) :
    parts.flatten.length = n * l.length := by
  induction related with
  | nil => simp
  | cons first rest ih =>
    rw [flatten_cons, length_append, each _ mem_cons_self _ first,
      ih fun b member => each b (mem_cons_of_mem _ member), length_cons, Nat.mul_succ,
      Nat.add_comm]

section operand

variable {x : CastOperand} {regs : List (Option Value)} {bitcast : Bool} {target : CastType}

theorem CastOperand.isSource {bits : Bits} (member : bits ∈ x.vals) :
    (x.ty.datum bits).isSome := all_eq_true.mp x.has_vals bits member

theorem CastOperand.HeldBy.length (held : x.HeldBy regs) :
    regs.length = x.ty.words * x.vals.length := by
  rcases held with ⟨parts, rfl, related⟩
  exact flatten_length related fun bits member part heldPart =>
    held_length heldPart (x.isSource member)

theorem CastYields.length (yields : CastYields bitcast target x regs) :
    regs.length = target.words * x.vals.length := by
  rcases yields with ⟨parts, rfl, related⟩
  refine flatten_length related fun bits _ part result => ?_
  rcases result with ⟨y, -, reads⟩
  exact reads.length

/-- The operands that the code of an `As` expression is right for. Of the vectors it is the
conversion of 64-bit floats to themselves. -/
def CastsRight (bitcast : Bool) (target : CastType) (x : CastOperand) (regs : List (Option Value)) :
    Prop :=
  match x.size with
  | none => ∃ bits, x.vals = [bits] ∧ CastRight bitcast x.ty target bits (regs[0]?).join
  | some _ => bitcast = false ∧ x.ty = .f64 ∧ target = .f64

/-- The expressions that are right for no other operand. -/
def CastsDecided (bitcast : Bool) (target : CastType) (x : CastOperand) : Prop :=
  match x.size with
  | none => CastDecided bitcast x.ty target
  | some _ => ¬ (bitcast = false ∧ target = .f64 ∧ (x.ty = .i64 ∨ x.ty = .u64))

/-- The values that the code returns for an operand. -/
def castsValues (bitcast : Bool) (target : CastType) (regs : List (Option Value)) :
    List (Option Value) :=
  castValues convertUnit target.scalar.kind (if bitcast then none else some target.scalar.width) regs

/-- The registers of one component, but those of an operand that is a pair of registers already. -/
theorem castsValues_length (bitcast : Bool) (target : CastType) (regs : List (Option Value)) :
    (castsValues bitcast target regs).length = (if bitcast then 1 else target.words) ∨
      bitcast = false ∧ target = .f64 ∧ castsValues bitcast target regs = regs := by
  cases bitcast with
  | true => cases target <;> exact .inl rfl
  | false =>
    cases target with
    | f64 =>
      by_cases pair : 2 ≤ regs.length
      · exact .inr ⟨rfl, rfl, if_pos pair⟩
      · refine .inl ?_
        have values : castsValues false .f64 regs = _ := if_neg pair
        rw [values]
        rfl
    | _ => exact .inl rfl

theorem scalars_yield (held : x.HeldBy regs) (isScalar : x.size = none)
    (allows : allowedCast bitcast x.ty target = true) :
    (CastsRight bitcast target x regs →
      CastYields bitcast target x (castsValues bitcast target regs)) ∧
    (CastsDecided bitcast target x →
      CastYields bitcast target x (castsValues bitcast target regs) →
        CastsRight bitcast target x regs) := by
  have one : x.vals.length = 1 := by
    rw [x.length_vals, isScalar]
    rfl
  rcases length_eq_one_iff.mp one with ⟨bits, isVals⟩
  rcases held with ⟨parts, rfl, related⟩
  rw [isVals] at related
  rcases forall₂_cons_left_iff.mp related with ⟨part, rest, heldPart, last, rfl⟩
  rw [forall₂_nil_left_iff.mp last, flatten_cons, flatten_nil, append_nil]
  have isSource : (x.ty.datum bits).isSome := x.isSource (by rw [isVals]; exact mem_cons_self)
  have yields := scalar_yields heldPart isSource allows
  have right : CastsRight bitcast target x part ↔
      CastRight bitcast x.ty target bits (part[0]?).join := by
    simp [CastsRight, isScalar, isVals]
  have decided : CastsDecided bitcast target x ↔ CastDecided bitcast x.ty target := by
    simp [CastsDecided, isScalar]
  have scalar : CastYields bitcast target x (castsValues bitcast target part) ↔
      ScalarYields bitcast x.ty target bits part := by
    constructor
    · rintro ⟨results, isResults, related⟩
      rw [isVals] at related
      rcases forall₂_cons_left_iff.mp related with ⟨result, rest, yields, last, rfl⟩
      rw [forall₂_nil_left_iff.mp last, flatten_cons, flatten_nil,
        append_nil] at isResults
      rw [← isResults] at yields
      exact yields
    · intro yields
      refine ⟨[castsValues bitcast target part], by simp, ?_⟩
      rw [isVals]
      exact .cons yields .nil
  rw [right, decided, scalar]
  exact yields

theorem vectors_yield {size : VectorSize} (held : x.HeldBy regs) (isVector : x.size = some size)
    (allows : allowedCast bitcast x.ty target = true) :
    (CastsRight bitcast target x regs →
      CastYields bitcast target x (castsValues bitcast target regs)) ∧
    (CastsDecided bitcast target x →
      CastYields bitcast target x (castsValues bitcast target regs) →
        CastsRight bitcast target x regs) := by
  have right : CastsRight bitcast target x regs ↔
      bitcast = false ∧ x.ty = .f64 ∧ target = .f64 := by
    simp [CastsRight, isVector]
  have decided : CastsDecided bitcast target x ↔
      ¬ (bitcast = false ∧ target = .f64 ∧ (x.ty = .i64 ∨ x.ty = .u64)) := by
    simp [CastsDecided, isVector]
  have several : 2 ≤ x.vals.length := by
    rw [x.length_vals, isVector]
    exact (comps_bounds size).1
  have source := held.length
  rw [right, decided]
  constructor
  · rintro ⟨rfl, isSource, rfl⟩
    have pair : 2 ≤ regs.length := by
      rw [source, isSource]
      show 2 ≤ 2 * _
      omega
    have values : castsValues false .f64 regs = regs := if_pos pair
    rw [values]
    rcases held with ⟨parts, rfl, related⟩
    refine ⟨parts, rfl, ?_⟩
    rw [forall₂_iff_get] at related ⊢
    refine ⟨related.1, fun i inside inside' => ?_⟩
    have isSome := x.isSource (get_mem x.vals ⟨i, inside⟩)
    have heldPart := related.2 i inside inside'
    rw [isSource] at isSome ⊢
    have noNumber : CastType.f64.number? (x.vals.get ⟨i, inside⟩) = none := by
      cases isBits : x.vals.get ⟨i, inside⟩ with
      | narrow w => rfl
      | wide lo hi => rfl
      | bool b => rfl
    exact same_reads (.inr rfl) heldPart isSome noNumber
  · intro notPaired yields
    have results := yields.length
    have positive : 1 ≤ target.words := by cases target <;> decide
    have more : target.words * 2 ≤ target.words * x.vals.length := Nat.mul_le_mul_left _ several
    rcases castsValues_length bitcast target regs with short | ⟨isConversion, isTarget, values⟩
    · split at short <;> omega
    · refine ⟨isConversion, ?_, isTarget⟩
      rw [values, source, isTarget] at results
      have paired : x.ty.words = 2 := Nat.eq_of_mul_eq_mul_right (by omega) results
      cases isSource : x.ty with
      | f64 => rfl
      | i64 => exact absurd ⟨isConversion, isTarget, .inl isSource⟩ notPaired
      | u64 => exact absurd ⟨isConversion, isTarget, .inr isSource⟩ notPaired
      | _ =>
        rw [isSource] at paired
        cases paired

/-- The values that the code returns are those of WGSL where the condition holds. -/
theorem casts_yield (held : x.HeldBy regs) (allows : allowedCast bitcast x.ty target = true) :
    (CastsRight bitcast target x regs →
      CastYields bitcast target x (castsValues bitcast target regs)) ∧
    (CastsDecided bitcast target x →
      CastYields bitcast target x (castsValues bitcast target regs) →
        CastsRight bitcast target x regs) := by
  cases isSize : x.size with
  | none => exact scalars_yield held isSize allows
  | some size => exact vectors_yield held isSize allows

end operand

end CoralReef.Wgsl

namespace CoralReef.NagaTranslate

open Wgsl (CastType CastOperand CastYields CastsRight CastsDecided allowedCast Bits casts_yield)

/-- The code of an `As` expression returns registers that hold its result. -/
def CastMeets (s : FuncTranslator) (start : Env) (bitcast : Bool) (target : CastType)
    (val : SSARef) (x : CastOperand) : Prop :=
  ∃ dst s', translateCast val target.scalar.kind
      (if bitcast then none else some target.scalar.width) s = .ok (dst, s') ∧
    CastYields bitcast target x (dst.map (s'.env convertUnit start))

section meets

variable {s : FuncTranslator} {start : Env} {bitcast : Bool} {target : CastType} {val : SSARef}
  {x : CastOperand}

theorem castMeets_iff (live : s.deadCode = false) (allocated : ∀ v ∈ val, v.idx ≤ s.count)
    (held : x.HeldBy (val.map (s.env convertUnit start))) :
    CastMeets s start bitcast target val x ↔ CastYields bitcast target x
      (Wgsl.castsValues bitcast target (val.map (s.env convertUnit start))) := by
  have nonempty : val ≠ [] := by
    rintro rfl
    have none := held.length
    have words : 1 ≤ x.ty.words := by cases x.ty <;> decide
    have positive : 1 ≤ x.vals.length := by
      rw [x.length_vals]
      cases x.size with
      | none => exact Nat.le_refl 1
      | some size => exact (Wgsl.comps_bounds size).1.trans' (by decide)
    have := Nat.mul_le_mul words positive
    simp only [map_nil, length_nil] at none
    omega
  have emits : EmitsValues convertUnit _ s _ := translateCast_emits live nonempty allocated
    target.scalar.kind (if bitcast then none else some target.scalar.width)
  exact emitsValues_iff emits start fun regs => CastYields bitcast target x regs

end meets

/-- Where the conversion of each operand is right the code is, and where what a word encodes does
not decide it by chance only there. -/
theorem translateCast_correct_iff (s : FuncTranslator) (start : Env) (bitcast : Bool)
    (target : CastType) (val : SSARef) (x : CastOperand) (live : s.deadCode = false)
    (allocated : ∀ v ∈ val, v.idx ≤ s.count) (held : x.HeldBy (val.map (s.env convertUnit start)))
    (allows : allowedCast bitcast x.ty target = true) :
    (CastsRight bitcast target x (val.map (s.env convertUnit start)) →
      CastMeets s start bitcast target val x) ∧
    (CastsDecided bitcast target x → CastMeets s start bitcast target val x →
      CastsRight bitcast target x (val.map (s.env convertUnit start))) := by
  rw [castMeets_iff live allocated held]
  exact casts_yield held allows

/-- A scalar of one word. -/
def narrowOperand (ty : CastType) (w : BitVec 32) (isDatum : (ty.datum (.narrow w)).isSome) :
    CastOperand where
  ty := ty
  size := none
  vals := [.narrow w]
  length_vals := rfl
  has_vals := by simp [isDatum]

theorem narrowOperand_heldBy (ty : CastType) (w : BitVec 32)
    (isDatum : (ty.datum (.narrow w)).isSome) :
    (narrowOperand ty w isDatum).HeldBy
      ([⟨.gpr, 1⟩].map ((wordPair 70).env convertUnit (wordPairEnv w 0))) :=
  ⟨[[some (.word w)]], rfl, .cons rfl .nil⟩

theorem translateCast_correct_words :
    CastMeets (wordPair 70) (wordPairEnv (-42) 0) false .f32 [⟨.gpr, 1⟩]
        (narrowOperand .i32 (-42) rfl) ∧
      CastMeets (wordPair 70) (wordPairEnv 0x40200000 0) false .u32 [⟨.gpr, 1⟩]
        (narrowOperand .f32 0x40200000 rfl) := by
  have allocated : ∀ v ∈ ([⟨.gpr, 1⟩] : SSARef), v.idx ≤ (wordPair 70).count := by
    simp [wordPair, FuncTranslator.count]
  constructor
  · refine (translateCast_correct_iff (wordPair 70) (wordPairEnv (-42) 0) false .f32 [⟨.gpr, 1⟩]
      (narrowOperand .i32 (-42) rfl) rfl allocated (narrowOperand_heldBy _ _ _) rfl).1 ?_
    exact ⟨.narrow (-42), rfl, rfl, rfl⟩
  · refine (translateCast_correct_iff (wordPair 70) (wordPairEnv 0x40200000 0) false .u32
      [⟨.gpr, 1⟩] (narrowOperand .f32 0x40200000 rfl) rfl allocated (narrowOperand_heldBy _ _ _)
      rfl).1 ?_
    refine ⟨.narrow 0x40200000, rfl, ?_⟩
    have isFloat : FloatFormat.binary32.decode (0x40200000 : BitVec 32).toNat =
        .finite (5 / 2) := by decide +kernel
    show TruncatedRight false (FloatFormat.binary32.decode (0x40200000 : BitVec 32).toNat)
    rw [isFloat]
    exact ⟨by norm_num, by decide +kernel, fun _ => by norm_num⟩

/-- The float 1.5 is converted to 2. -/
theorem translateCast_oneAndHalf_fails :
    ¬ CastMeets (wordPair 70) (wordPairEnv 0x3FC00000 0) false .i32 [⟨.gpr, 1⟩]
      (narrowOperand .f32 0x3FC00000 rfl) := by
  have allocated : ∀ v ∈ ([⟨.gpr, 1⟩] : SSARef), v.idx ≤ (wordPair 70).count := by
    simp [wordPair, FuncTranslator.count]
  have held := narrowOperand_heldBy .f32 0x3FC00000 rfl
  have isFloat : FloatFormat.binary32.decode (0x3FC00000 : BitVec 32).toNat =
      .finite (3 / 2) := by decide +kernel
  rw [castMeets_iff rfl allocated held]
  intro yields
  have decided : CastsDecided false .i32 (narrowOperand .f32 0x3FC00000 rfl) := .inr (.inl rfl)
  rcases (casts_yield held rfl).2 decided yields with ⟨bits, isBits, right⟩
  cases isBits
  have truncated : TruncatedRight true
      (FloatFormat.binary32.decode (0x3FC00000 : BitVec 32).toNat) := right
  rw [isFloat] at truncated
  exact absurd truncated.2.1 (by decide +kernel)

end CoralReef.NagaTranslate
