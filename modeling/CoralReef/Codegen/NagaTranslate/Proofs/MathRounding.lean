import CoralReef.Codegen.NagaTranslate.Proofs.ExactDouble
import CoralReef.Codegen.NagaTranslate.WgslCast

/-!
# Which doubles are rounded right

The rounding builtins of 64-bit floats, with exponents of any size: right below `2 ^ 52`, and above
it for the numbers that survive the addition of `2 ^ 52`.
-/

namespace CoralReef.NagaTranslate

open Straight Rounding

variable {start : HalfEnv} {s : FuncTranslator} {vec : SSARef} {x : Double}

/-- The code of a builtin leaves a number. -/
def LeavesDouble (start : HalfEnv) (s : FuncTranslator) (p : EmitM SSARef) (v : Rat) : Prop :=
  EmitsExact p s fun dst t => ∃ y, HoldsDouble start t dst y ∧ y.value = v

theorem HoldsDouble.unique {y : Double} (first : HoldsDouble start s vec x)
    (second : HoldsDouble start s vec y) : x = y := by
  rcases first with ⟨lo, hi, low, rfl, -, isHi, -⟩
  rcases second with ⟨lo', hi', low', same, -, isHi', -⟩
  cases same
  have halves := isHi.value.symm.trans isHi'.value
  injection halves with halves
  injection halves

/-- What code leaves is one number. -/
theorem LeavesDouble.iff {p : EmitM SSARef} {v : Rat} (leaves : LeavesDouble start s p v) (w : Rat) :
    LeavesDouble start s p w ↔ v = w := by
  constructor
  · rintro ⟨dst, t, ran, -, y, isY, isW⟩
    rcases leaves with ⟨dst', t', ran', -, z, isZ, isV⟩
    cases ran.symm.trans ran'
    rw [← isV, ← isW, isY.unique isZ]
  · rintro rfl
    exact leaves

theorem rounding_eq {rndMode : FRndMode} {onF64 : SSARef → EmitM SSARef} {arg : Expression}
    (isF64 : s.ctx.isF64Expr arg = true) {v : Rat} :
    LeavesDouble start s (translateRounding rndMode onF64 vec arg) v ↔
      LeavesDouble start s (onF64 vec) v := by
  have same : translateRounding rndMode onF64 vec arg s = onF64 vec s := by
    show (if s.ctx.isF64Expr arg then _ else _ : EmitM SSARef) s = _
    rw [if_pos isF64]
  unfold LeavesDouble EmitsExact Straight.Emits
  rw [same]

theorem fract_eq {arg : Expression} (isF64 : s.ctx.isF64Expr arg = true) {v : Rat} :
    LeavesDouble start s (translateFract vec arg) v ↔ LeavesDouble start s (do
      let floored ← emitF64Floor vec
      emitDAdd (srcVec vec) (fneg (srcVec floored))) v := by
  have same : translateFract vec arg s = (do
      let floored ← emitF64Floor vec
      emitDAdd (srcVec vec) (fneg (srcVec floored)) : EmitM SSARef) s := by
    show (if s.ctx.isF64Expr arg then _ else _ : EmitM SSARef) s = _
    rw [if_pos isF64]
  unfold LeavesDouble EmitsExact Straight.Emits
  rw [same]

/-- What is not zero is not rounded to zero. -/
theorem roundTo_ne_zero {q : Rat} (nonzero : q ≠ 0) : roundTo 53 q ≠ 0 := by
  have positive {q : Rat} (positive : 0 < q) : roundTo 53 q ≠ 0 := by
    rcases exists_binade positive with ⟨e, low, -⟩
    exact ((zpow_pos two_pos e).trans_le (zpow_le_roundTo (by decide) low)).ne'
  rcases lt_or_gt_of_ne nonzero with negative | above
  · have mirrored := positive (neg_pos.mpr negative)
    rw [roundTo_neg] at mirrored
    exact fun zero => mirrored (by rw [zero, neg_zero])
  · exact positive above

/-- A truncation is right where the floor of the magnitude is. -/
theorem trunc_iff (x : Double) :
    (if x.negative then -magicFloor 52 |x.value| else magicFloor 52 |x.value|) =
      truncate x.value ↔ magicFloor 52 |x.value| = ⌊|x.value|⌋ := by
  rcases x.value_sign with ⟨low, high⟩
  unfold truncate
  rcases lt_trichotomy x.value 0 with negative | zero | positive
  · have isNegative : x.negative = true := by
      by_contra other
      exact absurd (high (by simpa using other)) (not_le.mpr negative)
    rw [if_pos isNegative, if_pos negative, abs_of_neg negative, Int.floor_neg, Int.cast_neg,
      neg_eq_iff_eq_neg]
  · have isZero : magicFloor 52 |x.value| = 0 := by
      rw [zero, abs_zero, magicFloor_small (by decide) (by norm_num)]
      simp
    rw [isZero, zero]
    simp
  · have isPositive : ¬ x.negative = true := fun isNegative =>
      absurd (low isNegative) (not_le.mpr positive)
    rw [if_neg isPositive, if_neg positive.not_gt, abs_of_pos positive]

/-- A fraction is right where the floor is. -/
theorem fract_iff {q : Rat} (rounded : roundTo 53 q = q) :
    roundTo 53 (q - magicFloor 52 q) = roundTo 53 (q - ⌊q⌋) ↔ magicFloor 52 q = ⌊q⌋ := by
  by_cases small : |q| < 2 ^ 52
  · have right := magicFloor_small (p := 52) (by decide) small
    exact iff_of_true (by rw [right]) right
  · rcases exists_grid (p := 52) rounded small with ⟨n, k, grid⟩
    have isInt : (⌊q⌋ : Rat) = q := by
      rcases onGrid_int grid with ⟨m, isM⟩
      rw [isM, Int.floor_intCast]
    rw [isInt, sub_self, roundTo_zero]
    constructor
    · intro zero
      by_contra other
      exact roundTo_ne_zero (sub_ne_zero.mpr (Ne.symm other)) zero
    · intro same
      rw [same, sub_self, roundTo_zero]

/-- The rounding of a double is that of its number below `2 ^ 52`, and from there on where
`MagicRight` holds; the functions that rest on the floor are right where `FloorRight` holds, of the
operand, its negation or its magnitude. -/
theorem f64Rounding_correct_iff (start : HalfEnv) (s : FuncTranslator) (vec : SSARef) (x : Double)
    (arg : Expression) (isF64 : s.ctx.isF64Expr arg = true) (held : HoldsDouble start s vec x)
    (isDyadic : IsDyadic 53 x.value) :
    (LeavesDouble start s (translateRound vec arg) (roundEven x.value) ↔ MagicRight 52 x.value) ∧
    (LeavesDouble start s (translateFloor vec arg) ⌊x.value⌋ ↔ FloorRight 52 x.value) ∧
    (LeavesDouble start s (translateCeil vec arg) ⌈x.value⌉ ↔ FloorRight 52 (-x.value)) ∧
    (LeavesDouble start s (translateTrunc vec arg) (truncate x.value) ↔
      FloorRight 52 |x.value|) ∧
    (LeavesDouble start s (translateFract vec arg) (roundTo 53 (x.value - ⌊x.value⌋)) ↔
      FloorRight 52 x.value) := by
  have rounded := isDyadic.roundTo
  have negated : roundTo 53 (-x.value) = -x.value := by rw [roundTo_neg, rounded]
  have absolute : roundTo 53 |x.value| = |x.value| := by
    rcases abs_choice x.value with same | same
    · rw [same, rounded]
    · rw [same, negated]
  refine ⟨?_, ?_, ?_, ?_, ?_⟩
  · rw [translateRound, rounding_eq isF64, LeavesDouble.iff (emitF64Round_exact held),
      signedRound_eq_iff (by decide) rounded]
  · rw [translateFloor, rounding_eq isF64, LeavesDouble.iff (emitF64Floor_exact held),
      magicFloor_eq_iff (by decide) rounded]
  · rw [translateCeil, rounding_eq isF64, LeavesDouble.iff (emitF64Ceil_exact held rounded),
      ← magicFloor_eq_iff (by decide) negated, Int.floor_neg, Int.cast_neg, neg_eq_iff_eq_neg]
  · rw [translateTrunc, rounding_eq isF64, LeavesDouble.iff (emitF64Trunc_exact held rounded),
      ← magicFloor_eq_iff (by decide) absolute]
    exact trunc_iff x
  · rw [fract_eq isF64, LeavesDouble.iff (emitF64Fract_exact held),
      ← magicFloor_eq_iff (by decide) rounded]
    exact fract_iff rounded

/-- A translation with a double in its first two registers. -/
def doubleTranslator (sm : Nat) : FuncTranslator where
  ctx := { types := [.scalar ⟨.float, 8⟩] }
  sm
  ssaAlloc := ⟨2⟩

def doubleHalves (q : Rat) : HalfEnv := fun x =>
  if x.idx = 1 then some (.low (Double.ofRat false q)) else some (.high (Double.ofRat false q))

theorem doubleTranslator_holds (sm : Nat) (q : Rat) :
    HoldsDouble (doubleHalves q) (doubleTranslator sm) [⟨.gpr, 1⟩, ⟨.gpr, 2⟩]
      (Double.ofRat false q) :=
  ⟨⟨.gpr, 1⟩, ⟨.gpr, 2⟩, Double.ofRat false q, rfl,
    ⟨⟨by simp [doubleTranslator], rfl⟩, rfl⟩, ⟨⟨by simp [doubleTranslator], rfl⟩, rfl⟩, rfl⟩

theorem f64Rounding_correct_half :
    LeavesDouble (doubleHalves (5 / 2)) (doubleTranslator 70)
        (translateRound [⟨.gpr, 1⟩, ⟨.gpr, 2⟩] (.literal .f64))
        (roundEven (Double.ofRat false (5 / 2)).value) ∧
      LeavesDouble (doubleHalves (5 / 2)) (doubleTranslator 70)
        (translateFloor [⟨.gpr, 1⟩, ⟨.gpr, 2⟩] (.literal .f64))
        ⌊(Double.ofRat false (5 / 2)).value⌋ := by
  have isDyadic : IsDyadic 53 (Double.ofRat false (5 / 2)).value := by
    refine ⟨5, -1, by decide, ?_⟩
    rw [Double.value_ofRat]
    norm_num
  have small : MagicRight 52 (Double.ofRat false (5 / 2)).value := by
    refine .inl ?_
    rw [Double.value_ofRat]
    norm_num
  rcases f64Rounding_correct_iff (doubleHalves (5 / 2)) (doubleTranslator 70)
    [⟨.gpr, 1⟩, ⟨.gpr, 2⟩] (Double.ofRat false (5 / 2)) (.literal .f64) rfl
    (doubleTranslator_holds 70 _) isDyadic with ⟨rounds, floors, -⟩
  exact ⟨rounds.mpr small, floors.mpr (.inl small)⟩

theorem floorRight_odd : ¬ FloorRight 52 (2 ^ 52 + 1 : Rat) := by
  have isAbs : |(2 : Rat) ^ 52 + 1| = 2 ^ 52 + 1 := by norm_num
  have unit {n k : Nat} (grid : OnGrid 52 |(2 : Rat) ^ 52 + 1| n k) : k = 0 ∧ n = 2 ^ 52 + 1 := by
    have isProduct : 2 ^ 52 + 1 = n * 2 ^ k := by
      have := grid.eq
      rw [isAbs] at this
      exact_mod_cast this
    rcases k with _ | k
    · exact ⟨rfl, by omega⟩
    · have low := grid.low
      have power : 1 ≤ 2 ^ k := Nat.one_le_two_pow
      have isNext : n * 2 ^ (k + 1) = n * 2 ^ k * 2 := by rw [pow_succ, Nat.mul_assoc]
      have := Nat.mul_le_mul low power
      omega
  rintro ((small | ⟨n, k, grid, right⟩) | ⟨n, grid, odd⟩)
  · rw [isAbs] at small
    norm_num at small
  · rcases unit grid with ⟨rfl, rfl⟩
    rcases right with ⟨-, even | short⟩ | ⟨never, -⟩ | never <;> omega
  · rcases unit grid with ⟨-, rfl⟩
    rcases odd with ⟨-, three⟩ | ⟨negative, -⟩
    · omega
    · norm_num at negative

/-- The integer `2 ^ 52 + 1` is rounded to `2 ^ 52`, and so is its floor. -/
theorem f64Rounding_odd_fails :
    ¬ LeavesDouble (doubleHalves (2 ^ 52 + 1)) (doubleTranslator 70)
        (translateRound [⟨.gpr, 1⟩, ⟨.gpr, 2⟩] (.literal .f64))
        (roundEven (Double.ofRat false (2 ^ 52 + 1)).value) ∧
      ¬ LeavesDouble (doubleHalves (2 ^ 52 + 1)) (doubleTranslator 70)
        (translateFloor [⟨.gpr, 1⟩, ⟨.gpr, 2⟩] (.literal .f64))
        ⌊(Double.ofRat false (2 ^ 52 + 1)).value⌋ := by
  have held := doubleTranslator_holds 70 (2 ^ 52 + 1)
  have rounded : roundTo 53 (2 ^ 52 + 1 : Rat) = 2 ^ 52 + 1 := by
    have isNat : (2 ^ 52 + 1 : Rat) = (2 ^ 52 + 1 : Nat) := by norm_num
    rw [isNat]
    exact roundTo_natCast (by decide)
  constructor
  · rw [translateRound, rounding_eq rfl, LeavesDouble.iff (emitF64Round_exact held),
      Double.value_ofRat, signedRound_eq_iff (by decide) rounded]
    exact fun right => floorRight_odd (.inl right)
  · rw [translateFloor, rounding_eq rfl, LeavesDouble.iff (emitF64Floor_exact held),
      Double.value_ofRat, magicFloor_eq_iff (by decide) rounded]
    exact floorRight_odd

end CoralReef.NagaTranslate
