import CoralReef.Codegen.Builder.Proofs.Emit

/-!
# The shifts of the builder
-/

open List
open Function (update_self)

namespace CoralReef

theorem IntType.toNat_mask (dataType : IntType) (n : BitVec 32) :
    (n &&& BitVec.ofNat 32 (dataType.bits - 1)).toNat = n.toNat % dataType.bits := by
  rw [BitVec.toNat_and]
  cases dataType
  case u8 | i8 => exact Nat.and_two_pow_sub_one_eq_mod n.toNat 3
  case u16 | i16 => exact Nat.and_two_pow_sub_one_eq_mod n.toNat 4
  case u32 | i32 => exact Nat.and_two_pow_sub_one_eq_mod n.toNat 5
  case u64 | i64 => exact Nat.and_two_pow_sub_one_eq_mod n.toNat 6

/-! ## Shifts whose amount wraps around -/

namespace OpShf

variable {op : OpShf} {sm : Nat} {env : Env} {low high n : BitVec 32}
  (isLow : env.getU32Src (op.srcs 0) = some low) (isHigh : env.getU32Src (op.srcs 1) = some high)
  (isShift : env.getU32Src (op.srcs 2) = some n) (wraps : op.wrap = true)

include isLow isHigh isShift wraps

theorem fold_wrap : op.fold sm env =
    let k := n.toNat % op.dataType.bits
    let x : BitVec 64 := high ++ low
    let shifted := if op.right then
        if (sm < 70 ∧ op.dstHigh ∧ op.dataType ≠ .i64) ∨ !op.dataType.isSigned then x >>> k
        else x.sshiftRight k
      else x <<< k
    some (.word ((if (sm < 70 ∧ !op.right) ∨ op.dstHigh then shifted >>> 32 else shifted).setWidth
      32)) := by
  unfold fold
  rw [isLow, isHigh, isShift, wraps]
  simp only [← IntType.toNat_mask]
  rfl

theorem fold_left_low (left : op.right = false) (later : ¬ sm < 70) (isLow' : op.dstHigh = false) :
    op.fold sm env = some (.word (((high ++ low) <<< (n.toNat % op.dataType.bits)).setWidth 32)) := by
  rw [fold_wrap isLow isHigh isShift wraps]
  simp only [left, later, isLow', false_and, Bool.false_eq_true, or_self, if_false]

theorem fold_left_high (left : op.right = false) (isHigh' : sm < 70 ∨ op.dstHigh = true) :
    op.fold sm env =
      some (.word ((((high ++ low) <<< (n.toNat % op.dataType.bits)) >>> 32).setWidth 32)) := by
  rw [fold_wrap isLow isHigh isShift wraps]
  simp only [left, Bool.not_false, and_true, Bool.false_eq_true, if_false, if_pos isHigh']

theorem fold_right_logical (right : op.right = true)
    (unsigned : (sm < 70 ∧ op.dstHigh = true ∧ op.dataType ≠ .i64) ∨ op.dataType.isSigned = false) :
    op.fold sm env = some (.word
      ((if op.dstHigh then ((high ++ low) >>> (n.toNat % op.dataType.bits)) >>> 32
        else (high ++ low) >>> (n.toNat % op.dataType.bits)).setWidth 32)) := by
  rw [fold_wrap isLow isHigh isShift wraps]
  simp only [right, Bool.not_true, Bool.false_eq_true, and_false, false_or, if_true,
    Bool.not_eq_true', if_pos unsigned]

theorem fold_right_arith (right : op.right = true) (signed : op.dataType.isSigned = true)
    (kept : 70 ≤ sm ∨ op.dstHigh = false ∨ op.dataType = .i64) :
    op.fold sm env = some (.word
      ((if op.dstHigh then ((high ++ low).sshiftRight (n.toNat % op.dataType.bits)) >>> 32
        else (high ++ low).sshiftRight (n.toNat % op.dataType.bits)).setWidth 32)) := by
  have arith : ¬ ((sm < 70 ∧ op.dstHigh = true ∧ op.dataType ≠ .i64) ∨
      (!op.dataType.isSigned) = true) := by
    rw [signed]
    rintro (⟨old, isHigh, other⟩ | unsigned)
    · rcases kept with later | isLow | wide
      · exact absurd old (Nat.not_lt.mpr later)
      · exact absurd isHigh (isLow ▸ Bool.false_ne_true)
      · exact other wide
    · exact Bool.false_ne_true unsigned
  rw [fold_wrap isLow isHigh isShift wraps]
  simp only [right, Bool.not_true, Bool.false_eq_true, and_false, false_or, if_true, if_neg arith]

end OpShf

section

variable {env : Env} {v n : BitVec 32}

theorem OpShl.fold_wrap {op : OpShl} (isSrc : env.getU32Src (op.srcs 0) = some v)
    (isShift : env.getU32Src (op.srcs 1) = some n) (wraps : op.wrap = true) :
    op.fold env = some (.word (v <<< (n.toNat % 32))) := by
  unfold OpShl.fold
  rw [isSrc, isShift, wraps, ← show (n &&& 31).toNat = n.toNat % 32 from IntType.toNat_mask .u32 n]
  rfl

theorem OpShr.fold_wrap {op : OpShr} (isSrc : env.getU32Src (op.srcs 0) = some v)
    (isShift : env.getU32Src (op.srcs 1) = some n) (wraps : op.wrap = true) :
    op.fold env = some (.word
      (if op.signed then v.sshiftRight (n.toNat % 32) else v >>> (n.toNat % 32))) := by
  unfold OpShr.fold
  rw [isSrc, isShift, wraps, ← show (n &&& 31).toNat = n.toNat % 32 from IntType.toNat_mask .u32 n]
  rfl

end

/-! ## Halves -/

section

variable {n : Nat} (hi lo : BitVec 32)

theorem eq_halves (v : BitVec 64) : v = (v >>> 32).setWidth 32 ++ v.setWidth 32 := by
  apply BitVec.eq_of_getLsbD_eq
  intro i inside
  rw [BitVec.getLsbD_append]
  split
  next low => simp [low]
  next high =>
    have shifted : 32 + (i - 32) = i := by omega
    have below : i - 32 < 32 := by omega
    simp [shifted, below]

/-- The low half of a shift to the left. -/
theorem low_shiftLeft : ((hi ++ lo) <<< n).setWidth 32 = lo <<< n := by
  apply BitVec.eq_of_getLsbD_eq
  intro i inside
  rw [BitVec.getLsbD_setWidth, BitVec.getLsbD_shiftLeft, BitVec.getLsbD_append,
    BitVec.getLsbD_shiftLeft]
  simp [inside, show i < 64 by omega, show i - n < 32 by omega]

/-- The high half of a shift to the left of what is only high. -/
theorem high_shiftLeft : (((lo ++ 0#32) <<< n) >>> 32).setWidth 32 = lo <<< n := by
  apply BitVec.eq_of_getLsbD_eq
  intro i inside
  rw [BitVec.getLsbD_setWidth, BitVec.getLsbD_ushiftRight, BitVec.getLsbD_shiftLeft,
    BitVec.getLsbD_append, BitVec.getLsbD_shiftLeft]
  by_cases less : i < n
  · by_cases low : 32 + i < n
    · simp [less, low]
    · simp [less, low, show 32 + i - n < 32 by omega]
  · simp [less, inside, show ¬ 32 + i < n by omega, show 32 + i < 64 by omega,
      show ¬ 32 + i - n < 32 by omega, show 32 + i - n - 32 = i - n by omega]

/-- The high half of a shift to the right does not depend on the low half. -/
theorem high_ushiftRight : (((hi ++ lo) >>> n) >>> 32).setWidth 32 = hi >>> n := by
  apply BitVec.eq_of_getLsbD_eq
  intro i inside
  rw [BitVec.getLsbD_setWidth, BitVec.getLsbD_ushiftRight, BitVec.getLsbD_ushiftRight,
    BitVec.getLsbD_append, BitVec.getLsbD_ushiftRight]
  simp [inside, show ¬ n + (32 + i) < 32 by omega, show n + (32 + i) - 32 = n + i by omega]

theorem high_sshiftRight :
    (((hi ++ lo).sshiftRight n) >>> 32).setWidth 32 = hi.sshiftRight n := by
  apply BitVec.eq_of_getLsbD_eq
  intro i inside
  simp only [BitVec.getLsbD_setWidth, BitVec.getLsbD_ushiftRight, BitVec.getLsbD_sshiftRight,
    BitVec.getLsbD_append, BitVec.msb_append]
  by_cases within : n + i < 32
  · simp [inside, within, show n + (32 + i) < 64 by omega, show ¬ 64 ≤ 32 + i by omega,
      show ¬ n + (32 + i) < 32 by omega, show n + (32 + i) - 32 = n + i by omega]
  · simp [inside, within, show ¬ n + (32 + i) < 64 by omega, show ¬ 64 ≤ 32 + i by omega]

/-- A word beside itself, shifted to the left, has the rotated word above. -/
theorem rotateLeft_eq (x : BitVec 32) (less : n < 32) :
    (((x ++ x) <<< n) >>> 32).setWidth 32 = x.rotateLeft n := by
  apply BitVec.eq_of_getLsbD_eq
  intro i inside
  rw [BitVec.getLsbD_setWidth, BitVec.getLsbD_ushiftRight, BitVec.getLsbD_shiftLeft,
    BitVec.getLsbD_append, BitVec.getLsbD_rotateLeft, Nat.mod_eq_of_lt less]
  by_cases wrapped : i < n
  · simp [inside, wrapped, show 32 + i < 64 by omega, show ¬ 32 + i < n by omega,
      show 32 - n + i < 32 by omega, show 32 + i - n = 32 - n + i by omega]
  · simp [inside, wrapped, show 32 + i < 64 by omega, show ¬ 32 + i < n by omega,
      show ¬ 32 + i - n < 32 by omega, show 32 + i - n - 32 = i - n by omega]

theorem rotateRight_eq (x : BitVec 32) (less : n < 32) :
    ((x ++ x) >>> n).setWidth 32 = x.rotateRight n := by
  apply BitVec.eq_of_getLsbD_eq
  intro i inside
  rw [BitVec.getLsbD_setWidth, BitVec.getLsbD_ushiftRight, BitVec.getLsbD_append,
    BitVec.getLsbD_rotateRight, Nat.mod_eq_of_lt less]
  by_cases wrapped : i < 32 - n
  · simp [inside, wrapped, show n + i < 32 by omega]
  · simp [inside, wrapped, show ¬ n + i < 32 by omega, show n + i - 32 = i - (32 - n) by omega]

end

namespace Builder

variable {b : Builder} {start : Env} {x shift : Src} {n : BitVec 32}
variable {pair : SSAValue × SSAValue}

theorem shl_run : shl x shift b = .ok (b.fresh .gpr 0, b.emit 1 [
    if 70 ≤ b.sm then
      .value (.shf { dst := .ofSsa (b.fresh .gpr 0), srcs := ![x, zero, shift], right := false
                     wrap := true, dataType := .i32, dstHigh := false })
    else .value (.shl { dst := .ofSsa (b.fresh .gpr 0), srcs := ![x, shift], wrap := true })]) := by
  show (if 70 ≤ b.sm then _ else _ : BuilderM SSAValue) _ = _
  split <;> rfl

theorem shr_run {signed : Bool} : shr x shift signed b = .ok (b.fresh .gpr 0, b.emit 1 [
    if 70 ≤ b.sm then
      .value (.shf { dst := .ofSsa (b.fresh .gpr 0), srcs := ![zero, x, shift], right := true
                     wrap := true, dataType := if signed then .i32 else .u32, dstHigh := true })
    else .value (.shr { dst := .ofSsa (b.fresh .gpr 0), srcs := ![x, shift], wrap := true
                        signed })]) := by
  show (if 70 ≤ b.sm then _ else _ : BuilderM SSAValue) _ = _
  split <;> rfl

theorem shl64_run {rest : List SSAValue} (isSsa : x.asSsa = some (pair.1 :: pair.2 :: rest))
    (plain : shift.isUnmodified = true) :
    shl64 x shift b = .ok ((b.fresh .gpr 0, b.fresh .gpr 1), b.emit 2 [
      if 70 ≤ b.sm then
        .value (.shf { dst := .ofSsa (b.fresh .gpr 0), srcs := ![.ofSsa pair.1, zero, shift]
                       right := false, wrap := true, dataType := .u64, dstHigh := false })
      else .value (.shf { dst := .ofSsa (b.fresh .gpr 0), srcs := ![zero, .ofSsa pair.1, shift]
                          right := false, wrap := true, dataType := .u64, dstHigh := true }),
      .value (.shf { dst := .ofSsa (b.fresh .gpr 1), srcs := ![.ofSsa pair.1, .ofSsa pair.2, shift]
                     right := false, wrap := true, dataType := .u64, dstHigh := true })]) := by
  unfold shl64
  rw [pairOf_ran isSsa, plain]
  show (if 70 ≤ b.sm then _ else _ : BuilderM (SSAValue × SSAValue)) _ = _
  split <;> exact emit_two _ b 2 _ _

theorem shr64_run {signed : Bool} {rest : List SSAValue}
    (isSsa : x.asSsa = some (pair.1 :: pair.2 :: rest)) (plain : shift.isUnmodified = true) :
    shr64 x shift signed b = .ok ((b.fresh .gpr 0, b.fresh .gpr 1), b.emit 2 [
      .value (.shf { dst := .ofSsa (b.fresh .gpr 0), srcs := ![.ofSsa pair.1, .ofSsa pair.2, shift]
                     right := true, wrap := true, dataType := if signed then .i64 else .u64
                     dstHigh := false }),
      .value (.shf { dst := .ofSsa (b.fresh .gpr 1), srcs := ![zero, .ofSsa pair.2, shift]
                     right := true, wrap := true, dataType := if signed then .i64 else .u64
                     dstHigh := true })]) := by
  unfold shr64
  rw [pairOf_ran isSsa, plain]
  exact emit_two _ b 2 _ _

theorem urol_run (new : 32 ≤ b.sm) : urol x shift b = .ok (b.fresh .gpr 0, b.emit 1 [
    .value (.shf { dst := .ofSsa (b.fresh .gpr 0), srcs := ![x, x, shift], right := false
                   wrap := true, dataType := .u32, dstHigh := true })]) := by
  have holds : decide (32 ≤ b.sm) = true := decide_eq_true new
  show (assertThat (decide (32 ≤ b.sm)) _ >>= _) >>= _ = _
  rw [holds]
  rfl

theorem uror_run (new : 32 ≤ b.sm) : uror x shift b = .ok (b.fresh .gpr 0, b.emit 1 [
    .value (.shf { dst := .ofSsa (b.fresh .gpr 0), srcs := ![x, x, shift], right := true
                   wrap := true, dataType := .u32, dstHigh := false })]) := by
  have holds : decide (32 ≤ b.sm) = true := decide_eq_true new
  show (assertThat (decide (32 ≤ b.sm)) _ >>= _) >>= _ = _
  rw [holds]
  rfl

/-- `shl` shifts by the low five bits of the amount. -/
theorem shl_emits {v : BitVec 32} (reads : b.Reads start x v) (amount : b.Reads start shift n) :
    Emits (shl x shift) b fun dst b' => b'.env start dst = some (.word (v <<< (n.toNat % 32))) := by
  refine Emits.of_run shl_run ?_ ?_
  · intro op member y written
    rw [mem_singleton.mp member] at written
    split at written <;> rw [mem_singleton.mp written] <;> exact fresh_new b .gpr 0
  · rw [env_emit]
    split
    next later =>
      rw [run_value rfl]
      refine (update_self _ _ _).trans ?_
      refine (OpShf.fold_left_low reads.value rfl amount.value rfl rfl (Nat.not_lt.mpr later)
        rfl).trans ?_
      exact congrArg (some <| Value.word ·) (low_shiftLeft 0#32 v)
    next earlier =>
      rw [run_value rfl]
      exact (update_self _ _ _).trans (OpShl.fold_wrap reads.value amount.value rfl)

theorem shr_emits {v : BitVec 32} (signed : Bool) (reads : b.Reads start x v)
    (amount : b.Reads start shift n) : Emits (shr x shift signed) b fun dst b' =>
      b'.env start dst = some (.word
        (if signed then v.sshiftRight (n.toNat % 32) else v >>> (n.toNat % 32))) := by
  refine Emits.of_run shr_run ?_ ?_
  · intro op member y written
    rw [mem_singleton.mp member] at written
    split at written <;> rw [mem_singleton.mp written] <;> exact fresh_new b .gpr 0
  · rw [env_emit]
    split
    next later =>
      rw [run_value rfl]
      refine (update_self _ _ _).trans ?_
      cases signed with
      | false =>
        refine (OpShf.fold_right_logical rfl reads.value amount.value rfl rfl (.inr rfl)).trans ?_
        exact congrArg (some <| Value.word ·) (high_ushiftRight v 0#32)
      | true =>
        refine (OpShf.fold_right_arith rfl reads.value amount.value rfl rfl rfl
          (.inl later)).trans ?_
        exact congrArg (some <| Value.word ·) (high_sshiftRight v 0#32)
    next earlier =>
      rw [run_value rfl]
      exact (update_self _ _ _).trans (OpShr.fold_wrap reads.value amount.value rfl)

/-- `shl64` shifts by the low six bits of the amount. -/
theorem shl64_emits {v : BitVec 64} (reads : b.Reads64 start pair x v)
    (amount : b.Reads start shift n) (plain : shift.isUnmodified = true) :
    Emits (shl64 x shift) b fun dst b' => Pair (b'.env start) dst (v <<< (n.toNat % 64)) := by
  obtain ⟨rest, isSsa⟩ := reads.isSsa
  refine Emits.of_run (shl64_run isSsa plain) ?_ ?_
  · intro op member y written
    rcases mem_pair.mp member with isOp | isOp
    · rw [isOp] at written
      split at written <;> rw [mem_singleton.mp written] <;> exact fresh_new b .gpr 0
    · rw [isOp] at written
      rw [mem_singleton.mp written]
      exact fresh_new b .gpr 1
  · have low : (v.setWidth 32) <<< (n.toNat % 64) = (v <<< (n.toNat % 64)).setWidth 32 := by
      rw [eq_halves v, low_shiftLeft, ← eq_halves v]
    split
    next later =>
      refine Pair.of_two rfl rfl ?_ fun w => ?_
      · refine (OpShf.fold_left_low reads.low.value rfl amount.value rfl rfl (Nat.not_lt.mpr later)
          rfl).trans ?_
        exact congrArg (some <| Value.word ·) ((low_shiftLeft 0#32 _).trans low)
      · refine (OpShf.fold_left_high (reads.low.of_update .gpr 0 w) (reads.high.of_update .gpr 0 w)
          (amount.of_update .gpr 0 w) rfl rfl (.inr rfl)).trans ?_
        rw [← eq_halves v]
        rfl
    next earlier =>
      refine Pair.of_two rfl rfl ?_ fun w => ?_
      · refine (OpShf.fold_left_high rfl reads.low.value amount.value rfl rfl (.inr rfl)).trans ?_
        exact congrArg (some <| Value.word ·) ((high_shiftLeft _).trans low)
      · refine (OpShf.fold_left_high (reads.low.of_update .gpr 0 w) (reads.high.of_update .gpr 0 w)
          (amount.of_update .gpr 0 w) rfl rfl (.inr rfl)).trans ?_
        rw [← eq_halves v]
        rfl

theorem shr64_emits {v : BitVec 64} (signed : Bool) (reads : b.Reads64 start pair x v)
    (amount : b.Reads start shift n) (plain : shift.isUnmodified = true) :
    Emits (shr64 x shift signed) b fun dst b' =>
      Pair (b'.env start) dst
        (if signed then v.sshiftRight (n.toNat % 64) else v >>> (n.toNat % 64)) := by
  obtain ⟨rest, isSsa⟩ := reads.isSsa
  refine Emits.of_run (shr64_run isSsa plain) ?_ ?_
  · intro op member y written
    rcases mem_pair.mp member with isOp | isOp <;> rw [isOp] at written <;>
      rw [mem_singleton.mp written]
    · exact fresh_new b .gpr 0
    · exact fresh_new b .gpr 1
  · cases signed with
    | false =>
      refine Pair.of_two rfl rfl ?_ fun w => ?_
      · refine (OpShf.fold_right_logical reads.low.value reads.high.value amount.value rfl rfl
          (.inr rfl)).trans ?_
        rw [← eq_halves v]
        rfl
      · refine (OpShf.fold_right_logical rfl (reads.high.of_update .gpr 0 w)
          (amount.of_update .gpr 0 w) rfl rfl (.inr rfl)).trans ?_
        refine congrArg (some <| Value.word ·) ((high_ushiftRight _ 0#32).trans ?_)
        conv_rhs => rw [eq_halves v]
        exact (high_ushiftRight _ _).symm
    | true =>
      refine Pair.of_two rfl rfl ?_ fun w => ?_
      · refine (OpShf.fold_right_arith reads.low.value reads.high.value amount.value rfl rfl rfl
          (.inr (.inl rfl))).trans ?_
        rw [← eq_halves v]
        rfl
      · refine (OpShf.fold_right_arith rfl (reads.high.of_update .gpr 0 w)
          (amount.of_update .gpr 0 w) rfl rfl rfl (.inr (.inr rfl))).trans ?_
        refine congrArg (some <| Value.word ·) ((high_sshiftRight _ 0#32).trans ?_)
        conv_rhs => rw [eq_halves v]
        exact (high_sshiftRight _ _).symm

theorem urol_emits {v : BitVec 32} (reads : b.Reads start x v) (amount : b.Reads start shift n)
    (new : 32 ≤ b.sm) : Emits (urol x shift) b fun dst b' =>
      b'.env start dst = some (.word (v.rotateLeft (n.toNat % 32))) := by
  refine Emits.of_run (urol_run new) ?_ ?_
  · intro op member y written
    rw [mem_singleton.mp member] at written
    rw [mem_singleton.mp written]
    exact fresh_new b .gpr 0
  · rw [env_emit, run_value rfl]
    refine (update_self _ _ _).trans ?_
    refine (OpShf.fold_left_high reads.value reads.value amount.value rfl rfl (.inr rfl)).trans ?_
    exact congrArg (some <| Value.word ·) (rotateLeft_eq v (Nat.mod_lt n.toNat (Nat.succ_pos 31)))

theorem uror_emits {v : BitVec 32} (reads : b.Reads start x v) (amount : b.Reads start shift n)
    (new : 32 ≤ b.sm) : Emits (uror x shift) b fun dst b' =>
      b'.env start dst = some (.word (v.rotateRight (n.toNat % 32))) := by
  refine Emits.of_run (uror_run new) ?_ ?_
  · intro op member y written
    rw [mem_singleton.mp member] at written
    rw [mem_singleton.mp written]
    exact fresh_new b .gpr 0
  · rw [env_emit, run_value rfl]
    refine (update_self _ _ _).trans ?_
    refine (OpShf.fold_right_logical reads.value reads.value amount.value rfl rfl (.inr rfl)).trans ?_
    exact congrArg (some <| Value.word ·) (rotateRight_eq v (Nat.mod_lt n.toNat (Nat.succ_pos 31)))

/-- On every chip the helpers shift and rotate by the amount modulo the width of the operand. -/
theorem shifts_exact (amount : b.Reads start shift n) :
    (∀ x v, b.Reads start x v →
      Emits (shl x shift) b (fun dst b' =>
        b'.env start dst = some (.word (v <<< (n.toNat % 32)))) ∧
      (∀ signed, Emits (shr x shift signed) b fun dst b' => b'.env start dst = some (.word
        (if signed then v.sshiftRight (n.toNat % 32) else v >>> (n.toNat % 32)))) ∧
      (32 ≤ b.sm →
        Emits (urol x shift) b (fun dst b' =>
          b'.env start dst = some (.word (v.rotateLeft (n.toNat % 32)))) ∧
        Emits (uror x shift) b fun dst b' =>
          b'.env start dst = some (.word (v.rotateRight (n.toNat % 32))))) ∧
    (shift.isUnmodified = true → ∀ pair x v, b.Reads64 start pair x v →
      Emits (shl64 x shift) b (fun dst b' => Pair (b'.env start) dst (v <<< (n.toNat % 64))) ∧
      ∀ signed, Emits (shr64 x shift signed) b fun dst b' => Pair (b'.env start) dst
        (if signed then v.sshiftRight (n.toNat % 64) else v >>> (n.toNat % 64))) := by
  constructor
  · intro x v reads
    refine ⟨shl_emits reads amount, fun signed => shr_emits signed reads amount, fun new => ?_⟩
    exact ⟨urol_emits reads amount new, uror_emits reads amount new⟩
  · intro plain pair x v reads
    exact ⟨shl64_emits reads amount plain, fun signed => shr64_emits signed reads amount plain⟩

theorem shifts_exact_one : Emits (shl { reference := .imm32 1 } { reference := .imm32 33 })
    { sm := 75 } fun dst b' => b'.env (fun _ => none) dst = some (.word 2) := by
  have known : ∀ u, Known { sm := 75 } { reference := .imm32 u } := fun u x member => nomatch member
  have amount : Reads { sm := 75 } (fun _ => none) { reference := .imm32 33 } 33 := ⟨known 33, rfl⟩
  exact ((shifts_exact amount).1 _ 1 ⟨known 1, rfl⟩).1

end Builder

end CoralReef
