import CoralReef.Codegen.Ir.Proofs.Foldable

/-!
# The values of an op are what its fold writes

The values of straight-line code and the folds of `Foldable` read the same operands. Where an op
with a fold has a value, a release build's fold returns and its first result is that value.
-/

open List

namespace CoralReef

open FixedWidth

theorem Value.of_word? {v : Option Value} {x : BitVec 32} (isWord : word? v = some x) :
    v = some (.word x) := by
  rcases v with _ | (b | x | q) <;> cases isWord
  rfl

theorem Value.of_pred? {v : Option Value} {b : Bool} (isPred : pred? v = some b) :
    v = some (.pred b) := by
  rcases v with _ | (b | x | q) <;> cases isPred
  rfl

/-- The data of a value. The word that encodes a number is not known. -/
def Value.foldData : Value → Option FoldData
  | .pred b => some (.pred b)
  | .word x => some (.u32 x)
  | .float _ => none

/-- The data of an operand in SSA values. -/
def Env.foldData (env : Env) : List SSAValue → Option FoldData
  | [x] => env x >>= Value.foldData
  | [lo, hi] => do return .vec2 (← Value.word? (env lo)) (← Value.word? (env hi))
  | _ => none

/-- The op as a fold has it. The ops that are left have no fold. -/
def ValueOp.foldable : ValueOp → Option FoldableOp
  | .iAdd2 op => some (.iAdd2 op)
  | .iAdd3 op => some (.iAdd3 op)
  | .iSetP op => some (.iSetP op)
  | .lop2 op => some (.lop2 op)
  | .lop3 op => some (.lop3 op)
  | .shf op => some (.shf op)
  | .shl op => some (.shl op)
  | .shr op => some (.shr op)
  | .pSetP op => some (.pSetP op)
  | .popC op => some (.popC op)
  | .flo op => some (.flo op)
  | .dSetP op => some (.dSetP op)
  | .iMad _ | .iMul _ | .pLop3 _ | .bRev _ | .sel _ | .copy _ | .float .. => none

namespace OpFoldData

/-- The operand at a place may stand there, and its data is what the SSA values hold. -/
structure Shows (f : OpFoldData) (env : Env) (i : Nat) (type : SrcType) (src : Src) : Prop where
  supported : src.supportsType type
  data : ∀ vec data, src.reference = .ssa vec → env.foldData vec = some data →
    f.srcs[i]? = some data

variable {f : OpFoldData} {env : Env} {i : Nat} {type : SrcType} {src : Src}

namespace Shows

theorem word {x : BitVec 32} (shows : f.Shows env i type src)
    (value : env.getU32Src src = some x) : f.getU32Src i src = .ok x := by
  unfold Env.getU32Src Env.srcValue at value
  unfold getU32Src
  split at value
  next isZero =>
    rw [isZero]
    cases value
    rfl
  next u isImm =>
    rw [isImm]
    cases value
    rfl
  next isTrue => cases value
  next isFalse => cases value
  next v isSsa =>
    have holds : env v = some (.word x) := Value.of_word? value
    have found := shows.data [v] (.u32 x) isSsa (by simp [Env.foldData, holds, Value.foldData])
    rw [isSsa]
    simp only [data_ok found, ok_bind]
    rfl
  next => cases value

theorem wordBNot {x : BitVec 32} (shows : f.Shows env i type src) (bitwise : type.isBitwise)
    (value : env.getU32BnotSrc src = some x) : f.getU32BnotSrc i src = .ok x := by
  obtain ⟨word, read, rfl⟩ := Option.map_eq_some_iff.mp value
  rw [getU32BnotSrc, shows.word read, Admits.bNot_eq shows.supported bitwise]
  simp only [ok_bind, decide_eq_true_eq]
  rfl

theorem pred {b : Bool} (shows : f.Shows env i .pred src) (value : env.getPredSrc src = some b) :
    f.getPredSrc i src = .ok b := by
  obtain ⟨plain, read, rfl⟩ := Option.map_eq_some_iff.mp value
  have reads : f.predOf i src = .ok plain := by
    unfold Env.srcValue at read
    unfold predOf
    split at read
    next isZero => cases read
    next u isImm => cases read
    next isTrue =>
      rw [isTrue]
      cases read
      rfl
    next isFalse =>
      rw [isFalse]
      cases read
      rfl
    next v isSsa =>
      have holds : env v = some (.pred plain) := Value.of_pred? read
      have found := shows.data [v] (.pred plain) isSsa
        (by simp [Env.foldData, holds, Value.foldData])
      rw [isSsa]
      simp only [data_ok found, ok_bind]
      rfl
    next => cases read
  rw [getPredSrc, reads, Admits.bNot_eq shows.supported rfl]
  simp only [ok_bind]
  cases plain <;> cases decide (src.modifier = .bNot) <;> rfl

theorem double {x : BitVec 64} (shows : f.Shows env i type src)
    (value : env.getF64Src src = some x) : f.getF64Src i src = .ok x := by
  unfold Env.getF64Src at value
  unfold getF64Src
  split at value
  next isZero =>
    rw [isZero]
    cases value
    rfl
  next u isImm =>
    rw [isImm]
    cases value
    rfl
  next lo hi isSsa =>
    obtain ⟨low, readLow, value⟩ := Option.bind_eq_some_iff.mp value
    obtain ⟨high, readHigh, value⟩ := Option.bind_eq_some_iff.mp value
    cases value
    have found := shows.data [lo, hi] (.vec2 low high) isSsa
      (by simp [Env.foldData, readLow, readHigh])
    rw [isSsa]
    simp only [data_ok found, ok_bind]
    rfl
  next => cases value

end Shows

/-- The fold returns, and its first result is the value. -/
def Writes (run : Except Fault OpFoldData) (v : Value) : Prop :=
  ∃ f', run = .ok f' ∧ f'.dsts[0]? = v.foldData

theorem setDsts_writes {v : Value} {data : FoldData} {rest : List FoldData}
    (isData : v.foldData = some data) (room : (data :: rest).length ≤ f.dsts.length) :
    Writes (f.setDsts (data :: rest)) v := by
  rw [Writes, isData]
  exact setDsts_first room

end OpFoldData

/-- Every operand of the op is shown. -/
structure FoldableOp.Shows (op : FoldableOp) (f : OpFoldData) (env : Env) : Prop where
  operand : ∀ i type src, op.operands[i]? = some (type, src) → f.Shows env i type src
  room : op.numDsts ≤ f.dsts.length

namespace Foldable

open OpFoldData (Writes setDsts_writes)

variable {debug : Bool} {f : OpFoldData} {env : Env} {sm : Nat} {v : Value}

theorem iAdd2_value {op : OpIAdd2} (shows : (FoldableOp.iAdd2 op).Shows f env)
    (value : op.fold env = some v) : Writes (iAdd2 debug op f) v := by
  obtain ⟨_, addX, value⟩ := Option.bind_eq_some_iff.mp value
  obtain ⟨_, addY, value⟩ := Option.bind_eq_some_iff.mp value
  cases value
  obtain ⟨x, readX, rfl⟩ := Option.map_eq_some_iff.mp addX
  obtain ⟨y, readY, rfl⟩ := Option.map_eq_some_iff.mp addY
  have first := shows.operand 0 _ _ rfl
  have second := shows.operand 1 _ _ rfl
  obtain ⟨sum, sums, low⟩ := @sumOf_ok debug [(op.srcs 0, x), (op.srcs 1, y)]
    (by simp [first.supported, second.supported]) (by simp)
  rw [iAdd2, first.word readX, ok_bind, second.word readY, ok_bind, sums, ok_bind]
  refine setDsts_writes ?_ shows.room
  simp only [map_cons, map_nil, foldl_cons, foldl_nil, BitVec.zero_add] at low
  rw [low]
  rfl

theorem iAdd3_value {op : OpIAdd3} (shows : (FoldableOp.iAdd3 op).Shows f env)
    (value : op.fold env = some v) : Writes (iAdd3 debug op f) v := by
  obtain ⟨_, addX, value⟩ := Option.bind_eq_some_iff.mp value
  obtain ⟨_, addY, value⟩ := Option.bind_eq_some_iff.mp value
  obtain ⟨_, addZ, value⟩ := Option.bind_eq_some_iff.mp value
  cases value
  obtain ⟨x, readX, rfl⟩ := Option.map_eq_some_iff.mp addX
  obtain ⟨y, readY, rfl⟩ := Option.map_eq_some_iff.mp addY
  obtain ⟨z, readZ, rfl⟩ := Option.map_eq_some_iff.mp addZ
  have first := shows.operand 0 _ _ rfl
  have second := shows.operand 1 _ _ rfl
  have third := shows.operand 2 _ _ rfl
  obtain ⟨sum, sums, low⟩ := @sumOf_ok debug
    [(op.srcs 0, x), (op.srcs 1, y), (op.srcs 2, z)]
    (by simp [first.supported, second.supported, third.supported]) (by simp)
  rw [iAdd3, first.word readX, ok_bind, second.word readY, ok_bind, third.word readZ, ok_bind,
    sums, ok_bind]
  refine setDsts_writes ?_ shows.room
  simp only [map_cons, map_nil, foldl_cons, foldl_nil, BitVec.zero_add] at low
  rw [low]
  rfl

theorem iSetP_value {op : OpISetP} (shows : (FoldableOp.iSetP op).Shows f env)
    (value : op.fold sm env = some v) : Writes (iSetP sm op f) v := by
  obtain ⟨x, readX, value⟩ := Option.bind_eq_some_iff.mp value
  obtain ⟨y, readY, value⟩ := Option.bind_eq_some_iff.mp value
  obtain ⟨accum, readAccum, value⟩ := Option.bind_eq_some_iff.mp value
  obtain ⟨lowCmp, readLow, value⟩ := Option.bind_eq_some_iff.mp value
  rw [iSetP, (shows.operand 0 _ _ rfl).word readX, ok_bind,
    (shows.operand 1 _ _ rfl).word readY, ok_bind, (shows.operand 2 _ _ rfl).pred readAccum,
    ok_bind, (shows.operand 3 _ _ rfl).pred readLow, ok_bind]
  dsimp only at value ⊢
  split_ifs at value ⊢ with extended old
  · have recent : 70 ≤ sm := by omega
    cases value
    rw [decide_eq_true recent, assertThat_true, ok_bind]
    exact setDsts_writes rfl shows.room
  · cases value
    exact setDsts_writes rfl shows.room

theorem lop2_value {op : OpLop2} (shows : (FoldableOp.lop2 op).Shows f env)
    (value : op.fold env = some v) : Writes (lop2 op f) v := by
  obtain ⟨x, readX, value⟩ := Option.bind_eq_some_iff.mp value
  obtain ⟨y, readY, value⟩ := Option.bind_eq_some_iff.mp value
  cases value
  rw [lop2, (shows.operand 0 _ _ rfl).wordBNot rfl readX, ok_bind,
    (shows.operand 1 _ _ rfl).wordBNot rfl readY, ok_bind]
  exact setDsts_writes rfl shows.room

theorem lop3_value {op : OpLop3} (shows : (FoldableOp.lop3 op).Shows f env)
    (value : op.fold env = some v) : Writes (lop3 op f) v := by
  obtain ⟨x, readX, value⟩ := Option.bind_eq_some_iff.mp value
  obtain ⟨y, readY, value⟩ := Option.bind_eq_some_iff.mp value
  obtain ⟨z, readZ, value⟩ := Option.bind_eq_some_iff.mp value
  cases value
  rw [lop3, (shows.operand 0 _ _ rfl).wordBNot rfl readX, ok_bind,
    (shows.operand 1 _ _ rfl).wordBNot rfl readY, ok_bind,
    (shows.operand 2 _ _ rfl).wordBNot rfl readZ, ok_bind]
  exact setDsts_writes rfl shows.room

/-! ## Shifts -/

/-- A shift to the left by the width or more leaves nothing. -/
theorem shlOrZero_eq {w : Nat} (x : BitVec w) (shift : Nat) : shlOrZero x shift = x <<< shift := by
  unfold shlOrZero
  split_ifs with below
  · rfl
  · exact (BitVec.shiftLeft_eq_zero (by omega)).symm

theorem shrOrZero_eq {w : Nat} (x : BitVec w) (shift : Nat) : shrOrZero x shift = x >>> shift := by
  unfold shrOrZero
  split_ifs with below
  · rfl
  · exact (BitVec.ushiftRight_eq_zero (by omega)).symm

/-- A shift of a signed type by the width or more leaves its sign. -/
theorem sshrOrSign_eq {w : Nat} (x : BitVec w) (shift : Nat) :
    sshrOrSign x shift = x.sshiftRight shift := by
  unfold sshrOrSign
  split_ifs with below
  · rfl
  · refine BitVec.eq_of_getLsbD_eq fun i inside => ?_
    rw [BitVec.getLsbD_sshiftRight, BitVec.getLsbD_sshiftRight,
      if_neg (show ¬ shift + i < w by omega)]
    split_ifs with isLast
    · rw [BitVec.msb_eq_getLsbD_last, show w - 1 + i = w - 1 by omega]
    · rfl

theorem shl_value {op : OpShl} (shows : (FoldableOp.shl op).Shows f env)
    (value : op.fold env = some v) : Writes (shl op f) v := by
  obtain ⟨x, readX, value⟩ := Option.bind_eq_some_iff.mp value
  obtain ⟨shift, readShift, value⟩ := Option.bind_eq_some_iff.mp value
  cases value
  rw [shl, (shows.operand 0 _ _ rfl).word readX, ok_bind,
    (shows.operand 1 _ _ rfl).word readShift, ok_bind, shlOrZero_eq]
  exact setDsts_writes rfl shows.room

theorem shr_value {op : OpShr} (shows : (FoldableOp.shr op).Shows f env)
    (value : op.fold env = some v) : Writes (shr op f) v := by
  obtain ⟨x, readX, value⟩ := Option.bind_eq_some_iff.mp value
  obtain ⟨shift, readShift, value⟩ := Option.bind_eq_some_iff.mp value
  cases value
  rw [shr, (shows.operand 0 _ _ rfl).word readX, ok_bind,
    (shows.operand 1 _ _ rfl).word readShift, ok_bind]
  dsimp only
  rw [sshrOrSign_eq, shrOrZero_eq]
  exact setDsts_writes rfl shows.room

theorem shf_value {op : OpShf} (shows : (FoldableOp.shf op).Shows f env)
    (value : op.fold sm env = some v) : Writes (shf debug sm op f) v := by
  obtain ⟨low, readLow, value⟩ := Option.bind_eq_some_iff.mp value
  obtain ⟨high, readHigh, value⟩ := Option.bind_eq_some_iff.mp value
  obtain ⟨shift, readShift, value⟩ := Option.bind_eq_some_iff.mp value
  have positive : 1 ≤ op.dataType.bits := by cases op.dataType <;> decide
  have amount : shfAmount debug op.wrap op.dataType.bits shift =
      .ok (if op.wrap then (shift &&& BitVec.ofNat 32 (op.dataType.bits - 1)).toNat
        else min shift.toNat op.dataType.bits) := by
    unfold shfAmount
    cases op.wrap with
    | false => rfl
    | true => rw [if_pos rfl, sub_ok positive]; rfl
  cases value
  rw [shf, (shows.operand 0 _ _ rfl).word readLow, ok_bind,
    (shows.operand 1 _ _ rfl).word readHigh, ok_bind, (shows.operand 2 _ _ rfl).word readShift,
    ok_bind, amount, ok_bind]
  dsimp only
  refine setDsts_writes ?_ shows.room
  simp only [shlOrZero_eq, shrOrZero_eq, sshrOrSign_eq, Value.foldData]
  cases op.right <;> cases op.dataType <;> cases op.dstHigh <;> by_cases old : sm < 70 <;>
    simp [old, IntType.isSigned]

/-! ## Predicates, bits and doubles -/

theorem pSetP_value {op : OpPSetP} (shows : (FoldableOp.pSetP op).Shows f env)
    (value : op.fold env = some v) : Writes (pSetP op f) v := by
  obtain ⟨x, readX, value⟩ := Option.bind_eq_some_iff.mp value
  obtain ⟨y, readY, value⟩ := Option.bind_eq_some_iff.mp value
  obtain ⟨z, readZ, value⟩ := Option.bind_eq_some_iff.mp value
  cases value
  rw [pSetP, (shows.operand 0 _ _ rfl).pred readX, ok_bind,
    (shows.operand 1 _ _ rfl).pred readY, ok_bind, (shows.operand 2 _ _ rfl).pred readZ, ok_bind]
  exact setDsts_writes rfl shows.room

theorem popC_value {op : OpPopC} (shows : (FoldableOp.popC op).Shows f env)
    (value : op.fold env = some v) : Writes (popC op f) v := by
  obtain ⟨x, readX, rfl⟩ := Option.map_eq_some_iff.mp value
  rw [popC, (shows.operand 0 _ _ rfl).wordBNot rfl readX, ok_bind]
  exact setDsts_writes rfl shows.room

theorem msb_iff {x : BitVec 32} : x &&& 0x80000000 ≠ 0 ↔ x.msb := by
  rw [show (0x80000000 : BitVec 32) = BitVec.twoPow 32 31 from rfl, BitVec.and_twoPow,
    BitVec.msb_eq_getLsbD_last]
  cases x.getLsbD 31 <;> decide

/-- A release build wraps around where there is no leading bit. -/
theorem floResult_wraps (returnShiftAmount : Bool) (leading : BitVec 32) :
    ∃ dst, floResult false returnShiftAmount leading.toNat = .ok dst ∧
      BitVec.ofNat 32 dst = if returnShiftAmount then leading else 31 - leading := by
  have word := leading.isLt
  unfold floResult
  cases returnShiftAmount with
  | true => exact ⟨_, rfl, BitVec.ofNat_toNat 32 leading⟩
  | false =>
    rcases Nat.lt_or_ge 31 leading.toNat with none | some
    · refine ⟨_, (if_neg (by simp)).trans (if_neg (by omega)), BitVec.eq_of_toNat_eq ?_⟩
      rw [if_neg (by simp), BitVec.toNat_sub, BitVec.toNat_ofNat,
        show (31 : BitVec 32).toNat = 31 from rfl]
      omega
    · refine ⟨_, (if_neg (by simp)).trans (sub_ok some false), BitVec.eq_of_toNat_eq ?_⟩
      rw [if_neg (by simp), BitVec.toNat_sub, BitVec.toNat_ofNat,
        show (31 : BitVec 32).toNat = 31 from rfl]
      omega

theorem flo_value {op : OpFlo} (shows : (FoldableOp.flo op).Shows f env)
    (value : op.fold env = some v) : Writes (flo false op f) v := by
  obtain ⟨x, readX, value⟩ := Option.bind_eq_some_iff.mp value
  cases value
  obtain ⟨dst, found, isLeading⟩ := floResult_wraps op.returnShiftAmount
    (if op.signed ∧ x.msb then (~~~x).clz else x.clz)
  rw [flo, (shows.operand 0 _ _ rfl).word readX, ok_bind]
  simp only [msb_iff, found, ok_bind, isLeading]
  exact setDsts_writes rfl shows.room

theorem dSetP_value {op : OpDSetP} (shows : (FoldableOp.dSetP op).Shows f env)
    (value : op.fold env = some v) : Writes (dSetP op f) v := by
  obtain ⟨a, readA, value⟩ := Option.bind_eq_some_iff.mp value
  obtain ⟨b, readB, value⟩ := Option.bind_eq_some_iff.mp value
  obtain ⟨accum, readAccum, value⟩ := Option.bind_eq_some_iff.mp value
  cases value
  rw [dSetP, (shows.operand 0 _ _ rfl).double readA, ok_bind,
    (shows.operand 1 _ _ rfl).double readB, ok_bind, (shows.operand 2 _ _ rfl).pred readAccum,
    ok_bind]
  exact setDsts_writes rfl shows.room

end Foldable

/-- Where an op with a fold has a value, a release build's fold writes it. -/
theorem ValueOp.fold_value {unit : FloatUnit} {sm i : Nat} {op : ValueOp} {folded : FoldableOp}
    {f : OpFoldData} {env : Env} {x : SSAValue} {v : Value} (hasFold : op.foldable = some folded)
    (shows : folded.Shows f env) (value : op.value unit sm env x i = some v) :
    ∃ f', folded.fold false sm f = .ok f' ∧ f'.dsts[0]? = v.foldData := by
  cases op with
  | iAdd2 op => cases hasFold; exact Foldable.iAdd2_value shows value
  | iAdd3 op => cases hasFold; exact Foldable.iAdd3_value shows value
  | iSetP op => cases hasFold; exact Foldable.iSetP_value shows value
  | lop2 op => cases hasFold; exact Foldable.lop2_value shows value
  | lop3 op => cases hasFold; exact Foldable.lop3_value shows value
  | shf op => cases hasFold; exact Foldable.shf_value shows value
  | shl op => cases hasFold; exact Foldable.shl_value shows value
  | shr op => cases hasFold; exact Foldable.shr_value shows value
  | pSetP op => cases hasFold; exact Foldable.pSetP_value shows value
  | popC op => cases hasFold; exact Foldable.popC_value shows value
  | flo op => cases hasFold; exact Foldable.flo_value shows value
  | dSetP op => cases hasFold; exact Foldable.dSetP_value shows value
  | iMad | iMul | pLop3 | bRev | sel | copy | float => cases hasFold

end CoralReef
