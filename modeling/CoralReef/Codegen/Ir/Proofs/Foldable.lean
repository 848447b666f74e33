import CoralReef.Codegen.Ir.Foldable
import Mathlib.Tactic.Linarith

/-!
# Where folding aborts

An op whose operands hold data of their types and whose flags are legal is folded without an
abort, except for `OpFlo` on a word without leading bits, where `31 - leading` underflows, and for
`OpIAdd2X` with its carry in a register, where `get_carry_src` asserts an SSA value.
-/

open List

namespace CoralReef

open FixedWidth

/-- Whether the data can stand for an operand of the type. -/
def FoldData.ofType : FoldData → SrcType → Bool
  | .u32 _, .gpr | .u32 _, .alu | .u32 _, .i32 | .u32 _, .b32 => true
  | .pred _, .pred | .carry _, .carry | .vec2 _ _, .f64 => true
  | _, _ => false

/-- Whether the operands of the type are words. -/
def SrcType.isWord : SrcType → Bool
  | .gpr | .alu | .i32 | .b32 => true
  | _ => false

/-- Whether operands of the type have no modifier or `bnot`. -/
def SrcType.isBitwise : SrcType → Bool
  | .gpr | .alu | .b32 | .pred => true
  | _ => false

/-- Whether the operand is a constant, which has no data. -/
def SrcRef.isConstant : SrcRef → Bool
  | .zero | .imm32 _ | .boolTrue | .boolFalse => true
  | _ => false

/-- The operand at a place may stand there, and its data is of its type. -/
structure OpFoldData.Admits (f : OpFoldData) (i : Nat) (type : SrcType) (src : Src) : Prop where
  supported : src.supportsType type
  data : src.reference.isConstant = false → ∃ data, f.srcs[i]? = some data ∧ data.ofType type

/-- The computation does not abort. -/
abbrev Returns {α : Type} (run : Except Fault α) : Prop := ∃ a, run = .ok a

theorem Returns.bind {α β : Type} {first : Except Fault α} {next : α → Except Fault β}
    (returns : Returns first) (rest : ∀ a, Returns (next a)) : Returns (first >>= next) := by
  obtain ⟨a, runs⟩ := returns
  rw [runs, ok_bind]
  exact rest a

namespace OpFoldData

variable {f : OpFoldData} {i : Nat} {type : SrcType} {src : Src}

theorem data_ok {data : FoldData} (found : f.srcs[i]? = some data) : f.data i = .ok data := by
  rw [OpFoldData.data, found, expect_some]

/-- Results are written from a place on, and what is before it stays. -/
theorem setDsts_from (results : List FoldData) : ∀ (k : Nat) (here : OpFoldData),
    k + results.length ≤ here.dsts.length →
      ∃ f', (results.zipIdx k).foldlM (fun f (data, i) => f.setDst i data) here = .ok f' ∧
        ∀ j, j < k → f'.dsts[j]? = here.dsts[j]? := by
  induction results with
  | nil => exact fun k here _ => ⟨here, rfl, fun _ _ => rfl⟩
  | cons data rest ih =>
    intro k here room
    rw [length_cons] at room
    have writes : here.setDst k data = .ok { here with dsts := here.dsts.set k data } :=
      if_pos (by omega)
    obtain ⟨f', folds, stays⟩ := ih (k + 1) { here with dsts := here.dsts.set k data }
      (by rw [length_set]; omega)
    refine ⟨f', ?_, ?_⟩
    · rw [zipIdx_cons, foldlM_cons]
      simp only [writes, ok_bind]
      exact folds
    · intro j below
      rw [stays j (by omega), getElem?_set_ne (by omega)]

theorem setDsts_ok {results : List FoldData} (room : results.length ≤ f.dsts.length) :
    Returns (f.setDsts results) := by
  obtain ⟨f', folds, -⟩ := setDsts_from results 0 f (by omega)
  exact ⟨f', folds⟩

/-- The first result stands in front. -/
theorem setDsts_first {first : FoldData} {rest : List FoldData}
    (room : (first :: rest).length ≤ f.dsts.length) :
    ∃ f', f.setDsts (first :: rest) = .ok f' ∧ f'.dsts[0]? = some first := by
  rw [length_cons] at room
  have writes : f.setDst 0 first = .ok { f with dsts := f.dsts.set 0 first } := if_pos (by omega)
  obtain ⟨f', folds, stays⟩ := setDsts_from rest 1 { f with dsts := f.dsts.set 0 first }
    (by rw [length_set]; omega)
  refine ⟨f', ?_, ?_⟩
  · rw [setDsts, zipIdx_cons, foldlM_cons]
    simp only [writes, ok_bind]
    exact folds
  · rw [stays 0 (by omega), getElem?_set_self (by omega)]

namespace Admits

/-- An operand that is a number is no predicate. -/
theorem notBool (supported : src.supportsType type) (isNumber : type.isWord ∨ type = .f64) :
    src.reference ≠ .boolTrue ∧ src.reference ≠ .boolFalse := by
  constructor
  · intro isTrue
    cases type <;> simp_all [Src.supportsType, SrcRef.isAlu, SrcType.isWord]
  · intro isFalse
    cases type <;> simp_all [Src.supportsType, SrcRef.isAlu, SrcType.isWord]

theorem word (admits : f.Admits i type src) (isWord : type.isWord) :
    Returns (f.getU32Src i src) := by
  obtain ⟨notTrue, notFalse⟩ := notBool admits.supported (.inl isWord)
  have isU32 : ∀ data : FoldData, data.ofType type → ∃ u, data = .u32 u := by
    intro data right
    cases type <;> simp [SrcType.isWord] at isWord <;> cases data <;>
      simp_all [FoldData.ofType]
  have read : src.reference.isConstant = false → ∃ u, f.data i = .ok (.u32 u) := by
    intro varies
    obtain ⟨data, found, right⟩ := admits.data varies
    obtain ⟨u, rfl⟩ := isU32 data right
    exact ⟨u, data_ok found⟩
  unfold getU32Src
  cases isRef : src.reference with
  | zero => exact ⟨_, rfl⟩
  | imm32 imm => exact ⟨_, rfl⟩
  | boolTrue => exact absurd isRef notTrue
  | boolFalse => exact absurd isRef notFalse
  | cbuf | ssa | reg =>
    obtain ⟨u, reads⟩ := read (by rw [isRef]; rfl)
    exact ⟨u, by simp only [reads, ok_bind]; rfl⟩

/-- `bnot` is the one modifier of a bitwise operand. -/
theorem bNot_eq (supported : src.supportsType type) (bitwise : type.isBitwise) :
    src.modifier.isBNot = .ok (decide (src.modifier = .bNot)) := by
  cases type <;> simp [SrcType.isBitwise] at bitwise <;> cases isMod : src.modifier <;>
    simp_all [Src.supportsType, Src.isUnmodified, SrcMod.isBNot]

theorem iNeg_eq (supported : src.supportsType .i32) :
    src.modifier.isINeg = .ok (decide (src.modifier = .iNeg)) := by
  cases isMod : src.modifier <;> simp_all [Src.supportsType, SrcMod.isINeg]

theorem wordBNot (admits : f.Admits i type src) (isWord : type.isWord)
    (bitwise : type.isBitwise) : Returns (f.getU32BnotSrc i src) := by
  obtain ⟨u, reads⟩ := admits.word isWord
  rw [getU32BnotSrc, reads, bNot_eq admits.supported bitwise]
  exact ⟨_, rfl⟩

theorem pred (admits : f.Admits i .pred src) : Returns (f.getPredSrc i src) := by
  have supported := admits.supported
  have read : src.reference.isConstant = false → ∃ b, f.data i = .ok (.pred b) := by
    intro varies
    obtain ⟨data, found, right⟩ := admits.data varies
    cases data <;> simp [FoldData.ofType] at right
    exact ⟨_, data_ok found⟩
  have reads : Returns (f.predOf i src) := by
    unfold predOf
    cases isRef : src.reference with
    | boolTrue | boolFalse => exact ⟨_, rfl⟩
    | zero | imm32 imm => simp [Src.supportsType, isRef, SrcRef.isPredicate] at supported
    | cbuf | ssa | reg =>
      obtain ⟨b, reads⟩ := read (by rw [isRef]; rfl)
      exact ⟨b, by simp only [reads, ok_bind]; rfl⟩
  obtain ⟨b, reads⟩ := reads
  rw [getPredSrc, reads, bNot_eq supported rfl]
  exact ⟨_, rfl⟩

/-- A carry is read off an SSA value only. -/
theorem carry (admits : f.Admits i .carry src) :
    Returns (f.getCarrySrc i src) ↔ ∃ vec, src.reference = .ssa vec := by
  constructor
  · rintro ⟨b, reads⟩
    unfold getCarrySrc at reads
    split at reads
    next vec isSsa => exact ⟨vec, isSsa⟩
    next => cases reads
  · rintro ⟨vec, isSsa⟩
    obtain ⟨data, found, right⟩ := admits.data (by rw [isSsa]; rfl)
    cases data <;> simp [FoldData.ofType] at right
    rename_i b
    exact ⟨b, by simp only [getCarrySrc, isSsa, data_ok found, ok_bind]; rfl⟩

theorem double (admits : f.Admits i .f64 src) : Returns (f.getF64Src i src) := by
  obtain ⟨notTrue, notFalse⟩ := notBool admits.supported (.inr rfl)
  have read : src.reference.isConstant = false → ∃ lo hi, f.data i = .ok (.vec2 lo hi) := by
    intro varies
    obtain ⟨data, found, right⟩ := admits.data varies
    cases data <;> simp [FoldData.ofType] at right
    exact ⟨_, _, data_ok found⟩
  unfold getF64Src
  cases isRef : src.reference with
  | zero => exact ⟨_, rfl⟩
  | imm32 imm => exact ⟨_, rfl⟩
  | boolTrue => exact absurd isRef notTrue
  | boolFalse => exact absurd isRef notFalse
  | cbuf | ssa | reg =>
    obtain ⟨lo, hi, reads⟩ := read (by rw [isRef]; rfl)
    exact ⟨_, by simp only [reads, ok_bind]; rfl⟩

end Admits

end OpFoldData

/-! ## Arithmetic -/

namespace Checked

variable {w amount : Nat} {debug : Bool}

theorem shl_ok (x : BitVec w) (below : amount < w) : shl debug x amount = .ok (x <<< amount) :=
  if_pos below

theorem shr_ok (x : BitVec w) (below : amount < w) : shr debug x amount = .ok (x >>> amount) :=
  if_pos below

theorem addI64_ok {a b : Int} (low : -2 ^ 63 ≤ a + b) (high : a + b < 2 ^ 63) :
    addI64 debug a b = .ok (a + b) := if_pos ⟨low, high⟩

theorem mulI64_ok {a b : Int} (low : -2 ^ 63 ≤ a * b) (high : a * b < 2 ^ 63) :
    mulI64 debug a b = .ok (a * b) := if_pos ⟨low, high⟩

theorem subI32_ok {a b : Int} (low : -2 ^ 31 ≤ a - b) (high : a - b < 2 ^ 31) :
    subI32 debug a b = .ok (a - b) := if_pos ⟨low, high⟩

theorem negI32_ok {a : Int} (low : -2 ^ 31 ≤ -a) (high : -a < 2 ^ 31) :
    negI32 debug a = .ok (-a) := if_pos ⟨low, high⟩

end Checked

namespace Foldable

open BitFields

variable {debug : Bool}

/-- A sum of a few words does not overflow sixty-four bits. -/
theorem sumOfNats_ok {terms : List Nat} (fits : terms.sum < 2 ^ 64) :
    sumOfNats debug terms = .ok terms.sum := by
  have sums : ∀ (terms : List Nat) (start : Nat), start + terms.sum < 2 ^ 64 →
      terms.foldlM (add 64 debug) start = .ok (start + terms.sum) := by
    intro terms
    induction terms with
    | nil => exact fun _ _ => rfl
    | cons term rest ih =>
      intro start fits
      rw [sum_cons] at fits ⊢
      rw [foldlM_cons, add_ok (by omega), ok_bind, ih _ (by omega), Nat.add_assoc]
  have whole := sums terms 0 (by omega)
  rwa [Nat.zero_add] at whole

/-- What an operand adds to the low word of the sum. -/
def addendOf (src : Src) (x : BitVec 32) : BitVec 32 :=
  if src.modifier = .iNeg then ~~~x + 1 else x

/-- An operand adds at most a word, and one where the word is negated. -/
theorem addend_ok {src : Src} (supported : src.supportsType .i32) (x : BitVec 32) :
    ∃ term, addend debug src x = .ok term ∧ term ≤ 2 ^ 32 ∧
      BitVec.ofNat 32 term = addendOf src x := by
  have small := x.isLt
  have smallNot := (~~~x).isLt
  unfold addend
  rw [OpFoldData.Admits.iNeg_eq supported, ok_bind]
  by_cases negated : src.modifier = .iNeg
  · rw [if_pos (decide_eq_true negated), addendOf, if_pos negated]
    refine ⟨_, add_ok (by omega) debug, by omega, ?_⟩
    rw [BitVec.ofNat_add, BitVec.ofNat_toNat, BitVec.setWidth_eq]
    rfl
  · rw [if_neg (by simpa using negated), addendOf, if_neg negated]
    exact ⟨_, rfl, by omega, BitVec.ofNat_toNat 32 x⟩

/-- The sum of a few operands does not overflow sixty-four bits, and its low word is the sum of
theirs. -/
theorem sumOf_ok {operands : List (Src × BitVec 32)}
    (supported : ∀ operand ∈ operands, operand.1.supportsType .i32)
    (few : operands.length < 2 ^ 31) :
    ∃ sum, sumOf debug operands = .ok sum ∧
      BitVec.ofNat 32 sum = (operands.map fun (src, x) => addendOf src x).foldl (· + ·) 0#32 := by
  have sums : ∀ (operands : List (Src × BitVec 32)) (start : Nat),
      (∀ operand ∈ operands, operand.1.supportsType .i32) →
      start + 2 ^ 32 * operands.length < 2 ^ 64 →
      ∃ sum, operands.foldlM (fun sum operand => do
        let term ← addend debug operand.1 operand.2
        add 64 debug sum term) start = .ok sum ∧ BitVec.ofNat 32 sum =
          (operands.map fun (src, x) => addendOf src x).foldl (· + ·) (BitVec.ofNat 32 start) := by
    intro operands
    induction operands with
    | nil => exact fun start _ _ => ⟨start, rfl, rfl⟩
    | cons operand rest ih =>
      rcases operand with ⟨src, x⟩
      intro start supported fits
      obtain ⟨term, adds, small, low⟩ : ∃ term, addend debug src x = .ok term ∧ term ≤ 2 ^ 32 ∧
          BitVec.ofNat 32 term = addendOf src x :=
        addend_ok (supported (src, x) mem_cons_self) x
      rw [length_cons] at fits
      obtain ⟨sum, sums, lowSum⟩ := ih (start + term)
        (fun operand member => supported operand (mem_cons_of_mem _ member)) (by omega)
      refine ⟨sum, ?_, ?_⟩
      · simp only [foldlM_cons, adds, ok_bind, add_ok (w := 64) (a := start) (b := term)
          (by omega) debug]
        exact sums
      · rw [lowSum, BitVec.ofNat_add, low, map_cons, foldl_cons]
  exact sums operands 0 supported (by omega)

/-- A word has thirty-one leading bits at most, unless there is no other bit. -/
theorem floResult_ok {returnShiftAmount : Bool} {x : BitVec 32} :
    (Returns (floResult true returnShiftAmount x.clz.toNat)) ↔ returnShiftAmount ∨ x ≠ 0 := by
  unfold floResult
  cases returnShiftAmount with
  | true => simp
  | false =>
    have room : x.clz.toNat ≤ 31 ↔ x ≠ 0 := by
      rw [← Nat.lt_succ_iff]
      exact BitVec.clz_lt_iff_ne_zero
    constructor
    · rintro ⟨dst, subtracts⟩
      exact .inr (room.mp (sub_debug.mp subtracts).1)
    · intro some
      have fits := room.mpr (some.resolve_left (by simp))
      exact ⟨_, sub_ok fits true⟩

theorem leaShifted_ok {dstHigh : Bool} {shift : Nat} (below : shift < 32) (a aHigh : BitVec 32) :
    Returns (leaShifted debug dstHigh shift a aHigh) := by
  unfold leaShifted
  cases dstHigh with
  | false => exact ⟨_, Checked.shl_ok a below⟩
  | true =>
    rw [if_pos rfl, sub_ok (by omega), ok_bind, Checked.shr_ok _ (by omega)]
    exact ⟨_, rfl⟩

theorem shfAmount_ok (wrap : Bool) {bits : Nat} (positive : 0 < bits) (shift : BitVec 32) :
    Returns (shfAmount debug wrap bits shift) := by
  unfold shfAmount
  cases wrap with
  | false => exact ⟨_, rfl⟩
  | true =>
    rw [if_pos rfl, sub_ok positive, ok_bind]
    exact ⟨_, rfl⟩

theorem prmtBytes_ok (sel : PrmtSel) (vals : Fin 2 → BitVec 32) :
    Returns (prmtBytes debug sel vals) := by
  obtain ⟨dst, folds, -⟩ := foldlM_ok (fun dst (b : Fin 4) => do
      let selByte := sel.get b
      let byte ← Checked.shl debug ((selByte.foldU32 (vals selByte.src)).setWidth 32) (b * 8)
      return dst ||| byte) (fun _ _ => True) (List.finRange 4) [] 0 trivial (by
    intro before b dst _ _
    simp only [Checked.shl_ok _ (show b.val * 8 < 32 by omega), ok_bind]
    exact ⟨_, rfl, trivial⟩)
  exact ⟨dst, folds⟩

theorem sgxtResult_ok (signed : Bool) (a bits : BitVec 32) :
    Returns (sgxtResult debug signed a bits) := by
  unfold sgxtResult
  split_ifs with whole none isSigned
  · exact ⟨_, rfl⟩
  · exact ⟨_, rfl⟩
  all_goals
    have positive : 0 < bits.toNat := by
      rcases Nat.eq_zero_or_pos bits.toNat with isZero | positive
      · exact absurd (BitVec.eq_of_toNat_eq isZero) none
      · exact positive
    rw [sub_ok (by omega), ok_bind, Checked.shl_ok _ (by omega), ok_bind]
    exact ⟨_, if_pos (by omega)⟩

/-! ## Surfaces -/

theorem toMask_ok (round : SuClampRound) : Returns (round.toMask debug) := by
  cases round <;> exact ⟨_, rfl⟩

theorem suClampOut_ok (pitchLinear is2d : Bool) (params clamped : BitVec 32) (isOob : Bool) :
    Returns (suClampOut debug pitchLinear is2d params clamped isOob) := by
  have discarded := getField_lt params 22 4
  have elSize := getField_lt params 26 3
  unfold suClampOut blockLinear
  split_ifs
  · exact ⟨_, rfl⟩
  · exact ⟨_, rfl⟩
  · rw [Checked.shr_ok _ (by omega), ok_bind, Checked.shl_ok _ (by omega), ok_bind]
    exact ⟨_, rfl⟩

theorem lowMask_ok {n : Nat} (below : n < 64) : Returns (lowMask debug n) := by
  have positive : 1 ≤ (1#64 <<< n).toNat := by
    rw [BitVec.toNat_shiftLeft, BitVec.toNat_ofNat, Nat.one_mod, Nat.shiftLeft_eq, Nat.one_mul,
      Nat.mod_eq_of_lt (Nat.pow_lt_pow_right (by omega) below)]
    exact Nat.two_pow_pos n
  rw [lowMask, Checked.shl_ok _ below, ok_bind, sub_ok positive, ok_bind]
  exact ⟨_, rfl⟩

theorem gobOffset_ok (x y z : BitVec 32) {ntx nty ntz : Nat} (tx : ntx < 64) (ty : nty < 64) :
    Returns (gobOffset debug x y z ntx nty ntz) := by
  refine (lowMask_ok tx).bind fun _ => (lowMask_ok (by omega)).bind fun _ =>
    (lowMask_ok (by omega)).bind fun _ => ?_
  simp only [Checked.shl_ok _ ty, Checked.shl_ok _ tx, ok_bind]
  exact ⟨_, rfl⟩

theorem suBfmBlock_ok (is3d : Bool) (x y z : BitVec 32) :
    Returns (suBfmBlock debug is3d x y z) := by
  have tx : getField x 27 3 % 2 < 2 := Nat.mod_lt _ (by omega)
  have ty := getField_lt y 27 3
  have tz := getField_lt z 27 3
  have once : getField z 27 3 * is3d.toNat ≤ getField z 27 3 := by
    cases is3d <;> simp
  have few : [getField x 27 3 % 2, getField y 27 3, getField z 27 3 * is3d.toNat].sum < 2 ^ 64 := by
    simp only [sum_cons, sum_nil]
    omega
  unfold suBfmBlock
  simp only [mul_ok (w := 64) (a := getField z 27 3) (b := is3d.toNat) (by omega), ok_bind,
    sumOfNats_ok few]
  exact (gobOffset_ok x y z (by omega) (by omega)).bind fun _ => ⟨_, rfl⟩

theorem suBfmPitch_ok (x z : BitVec 32) : Returns (suBfmPitch debug x z) := by
  have elSize := getField_lt x 27 3
  rw [suBfmPitch, Checked.shl_ok _ (by omega), ok_bind]
  exact ⟨_, rfl⟩

theorem pitchOffset_ok (off : BitVec 32) {offShift : Nat} (below : offShift < 16) :
    Returns (pitchOffset debug off offShift) := by
  rw [pitchOffset, Checked.subI32_ok (by omega) (by omega), ok_bind]
  split_ifs with negative
  · rw [Checked.negI32_ok (by omega) (by omega), ok_bind]
    exact ⟨_, Checked.shr_ok off (by omega)⟩
  · exact ⟨_, Checked.shl_ok off (by omega)⟩

theorem blockOffset_ok (off bf : BitVec 32) {offShift : Nat} (below : offShift < 16) :
    Returns (blockOffset debug off bf offShift) := by
  rw [blockOffset, add_ok (by omega), ok_bind, Checked.shl_ok _ (by omega), ok_bind,
    Checked.shl_ok _ (by omega), ok_bind]
  exact ⟨_, rfl⟩

/-! ## Multiplications -/

/-- A type other than a whole unsigned word leaves the top bit unset. -/
theorem cast_narrow {type : IMadSpSrcType} (narrow : type ≠ .u32) (v : BitVec 32) :
    -2 ^ 31 ≤ type.cast v ∧ type.cast v < 2 ^ 31 := by
  have ofNat : ∀ n : Nat, n < 2 ^ 31 → -2 ^ 31 ≤ (n : Int) ∧ (n : Int) < 2 ^ 31 := by
    intro n small
    omega
  have ofWord : ∀ x : BitVec 32, -2 ^ 31 ≤ x.toInt ∧ x.toInt < 2 ^ 31 := fun x =>
    ⟨BitVec.le_toInt x, BitVec.toInt_lt⟩
  have ofHalf : ∀ x : BitVec 16, -2 ^ 31 ≤ x.toInt ∧ x.toInt < 2 ^ 31 := by
    intro x
    have low := BitVec.le_toInt x
    have high := BitVec.toInt_lt (x := x)
    omega
  cases type with
  | u32 => exact absurd rfl narrow
  | u24 =>
    have masked : (v &&& 0x00ffffff).toNat ≤ 0x00ffffff := Nat.and_le_right
    exact ofNat _ (by omega)
  | u16Lo =>
    have half := (v.setWidth 16).isLt
    exact ofNat _ (by omega)
  | u16Hi =>
    apply ofNat
    rw [BitVec.toNat_ushiftRight, Nat.shiftRight_eq_div_pow]
    omega
  | s32 => exact ofWord v
  | s24 => exact ofWord _
  | s16Lo => exact ofHalf _
  | s16Hi => exact ofHalf _

theorem cast_bounds (type : IMadSpSrcType) (v : BitVec 32) :
    -2 ^ 31 ≤ type.cast v ∧ type.cast v < 2 ^ 32 := by
  by_cases whole : type = .u32
  · subst whole
    have word := v.isLt
    show -2 ^ 31 ≤ (v.toNat : Int) ∧ (v.toNat : Int) < 2 ^ 32
    omega
  · have bounds := cast_narrow whole v
    omega

theorem product_bounds {a b c : Int} (lowA : -2 ^ 31 ≤ a) (highA : a < 2 ^ 32)
    (lowB : -2 ^ 31 ≤ b) (highB : b < 2 ^ 31) (lowC : -2 ^ 31 ≤ c) (highC : c < 2 ^ 32) :
    (-2 ^ 63 ≤ a * b ∧ a * b < 2 ^ 63) ∧ -2 ^ 63 ≤ a * b + c ∧ a * b + c < 2 ^ 63 := by
  have low : -2 ^ 63 + 2 ^ 31 ≤ a * b := by
    rcases le_total 0 a with nonneg | neg
    · nlinarith
    · nlinarith
  have high : a * b ≤ (2 ^ 32 - 1) * (2 ^ 31 - 1) := by
    rcases le_total 0 a with nonneg | neg
    · nlinarith
    · nlinarith
  constructor <;> constructor <;> omega

theorem iMadSpTypes_ok {mode : IMadSpMode}
    (narrow : ∀ types, mode = .explicit types → types 1 ≠ .u32) (src1 : BitVec 32) :
    ∃ type0 type1 type2, iMadSpTypes mode src1 = .ok (type0, type1, type2) ∧ type1 ≠ .u32 := by
  unfold iMadSpTypes
  cases mode with
  | explicit types => exact ⟨_, _, _, rfl, narrow types rfl⟩
  | fromSrc1 =>
    have lookup : ∀ (types : List IMadSpSrcType) (i : Nat), i < types.length →
        ∃ type ∈ types, expect types[i]? "index out of bounds" = .ok type := fun types i below =>
      ⟨types[i], getElem_mem below, by rw [List.getElem?_eq_getElem below, expect_some]⟩
    obtain ⟨type0, -, found0⟩ :=
      lookup [.u32, .u24, .u16Lo, .u16Hi] _ (getField_lt src1 30 2)
    obtain ⟨type1, member, found1⟩ :=
      lookup [.u16Lo, .u24, .u16Lo, .u24] _ (getField_lt src1 28 2)
    obtain ⟨type2, -, found2⟩ :=
      lookup [.u32, .u24, .u16Lo, .u32] _ (getField_lt src1 26 2)
    refine ⟨type0.unsigned, type1.unsigned, type2.unsigned, ?_, ?_⟩
    · simp only [found0, found1, found2, ok_bind]
      rfl
    · have narrow : ∀ type ∈ [IMadSpSrcType.u16Lo, .u24, .u16Lo, .u24], type.unsigned ≠ .u32 := by
        decide
      exact narrow type1 member

end Foldable

/-! ## The ops -/

namespace FoldableOp

/-- Each operand has data of its type, and there is room for the results. -/
structure Admits (op : FoldableOp) (f : OpFoldData) : Prop where
  operand : ∀ i type src, op.operands[i]? = some (type, src) → f.Admits i type src
  room : op.numDsts ≤ f.dsts.length

/-- The flags that an op may have, where its fields leave room for others. -/
def Legal (sm : Nat) : FoldableOp → Prop
  | .iSetP op => op.ex → 70 ≤ sm ∨ op.cmpOp = .false ∨ op.cmpOp = .true
  | .lea op => op.shift < 32 ∧ (op.intermediateMod = .none ∨ op.intermediateMod = .iNeg)
  | .leaX op => op.shift < 32 ∧ (op.intermediateMod = .none ∨ op.intermediateMod = .bNot)
  | .prmt op => op.mode = .index
  | .iMadSp op => ∀ types, op.mode = .explicit types → types 1 ≠ .u32
  | _ => True

/-- The position of the leading bit is asked of a word that has none, or a carry of a register. -/
def Slips (f : OpFoldData) : FoldableOp → Prop
  | .flo op => op.returnShiftAmount = false ∧
      ∃ u, f.getU32Src 0 op.src = .ok u ∧ (u = 0 ∨ op.signed ∧ u = BitVec.allOnes 32)
  | .iAdd2X op => ¬ ∃ vec, (op.srcs 2).reference = .ssa vec
  | _ => False

end FoldableOp

namespace Foldable

open OpFoldData (setDsts_ok)

variable {debug : Bool} {f : OpFoldData} {sm : Nat}

theorem iAdd2_ok {op : OpIAdd2} (admits : (FoldableOp.iAdd2 op).Admits f) :
    Returns (iAdd2 debug op f) := by
  have first := admits.operand 0 _ _ rfl
  have second := admits.operand 1 _ _ rfl
  refine (first.word rfl).bind fun x => (second.word rfl).bind fun y => ?_
  obtain ⟨sum, sums, -⟩ := @sumOf_ok debug [(op.srcs 0, x), (op.srcs 1, y)]
    (by simp [first.supported, second.supported]) (by simp)
  rw [sums, ok_bind]
  exact setDsts_ok admits.room

/-- `OpIAdd2X` needs its carry in an SSA value. -/
theorem iAdd2X_ok {op : OpIAdd2X} (admits : (FoldableOp.iAdd2X op).Admits f) :
    Returns (iAdd2X debug op f) ↔ ¬ (FoldableOp.iAdd2X op).Slips f := by
  obtain ⟨x, readX⟩ := (admits.operand 0 _ _ rfl).wordBNot rfl rfl
  obtain ⟨y, readY⟩ := (admits.operand 1 _ _ rfl).wordBNot rfl rfl
  show _ ↔ ¬ ¬ ∃ vec, (op.srcs 2).reference = .ssa vec
  rw [not_not, ← (admits.operand 2 _ _ rfl).carry, iAdd2X, readX, ok_bind, readY, ok_bind]
  constructor
  · rintro ⟨f', folds⟩
    obtain ⟨carryIn, reads, -⟩ := bind_eq_ok.mp folds
    exact ⟨carryIn, reads⟩
  · refine fun reads => reads.bind fun carryIn => ?_
    have carries := carryIn.toNat_lt
    rw [sumOfNats_ok (by simp only [sum_cons, sum_nil]; omega), ok_bind]
    exact setDsts_ok admits.room

theorem iAdd3_ok {op : OpIAdd3} (admits : (FoldableOp.iAdd3 op).Admits f) :
    Returns (iAdd3 debug op f) := by
  have first := admits.operand 0 _ _ rfl
  have second := admits.operand 1 _ _ rfl
  have third := admits.operand 2 _ _ rfl
  refine (first.word rfl).bind fun x => (second.word rfl).bind fun y =>
    (third.word rfl).bind fun z => ?_
  obtain ⟨sum, sums, -⟩ := @sumOf_ok debug
    [(op.srcs 0, x), (op.srcs 1, y), (op.srcs 2, z)]
    (by simp [first.supported, second.supported, third.supported]) (by simp)
  rw [sums, ok_bind]
  exact setDsts_ok admits.room

theorem iAdd3X_ok {op : OpIAdd3X} (admits : (FoldableOp.iAdd3X op).Admits f) :
    Returns (iAdd3X debug op f) := by
  refine (admits.operand 0 _ _ rfl).wordBNot rfl rfl |>.bind fun x => ?_
  refine (admits.operand 1 _ _ rfl).wordBNot rfl rfl |>.bind fun y => ?_
  refine (admits.operand 2 _ _ rfl).wordBNot rfl rfl |>.bind fun z => ?_
  refine (admits.operand 3 _ _ rfl).pred.bind fun carry0 => ?_
  refine (admits.operand 4 _ _ rfl).pred.bind fun carry1 => ?_
  have carries0 := carry0.toNat_lt
  have carries1 := carry1.toNat_lt
  rw [sumOfNats_ok (by simp only [sum_cons, sum_nil]; omega), ok_bind]
  exact setDsts_ok admits.room

theorem iSetP_ok {op : OpISetP} (legal : (FoldableOp.iSetP op).Legal sm)
    (admits : (FoldableOp.iSetP op).Admits f) : Returns (iSetP sm op f) := by
  refine (admits.operand 0 _ _ rfl).word rfl |>.bind fun x => ?_
  refine (admits.operand 1 _ _ rfl).word rfl |>.bind fun y => ?_
  refine (admits.operand 2 _ _ rfl).pred.bind fun accum => ?_
  refine (admits.operand 3 _ _ rfl).pred.bind fun lowCmp => ?_
  dsimp only
  split_ifs with extended
  · have recent : 70 ≤ sm := (legal extended.1).resolve_right extended.2.2
    rw [decide_eq_true recent, assertThat_true, ok_bind]
    exact setDsts_ok admits.room
  · exact setDsts_ok admits.room

/-- `OpFlo` needs a leading bit, unless it returns a shift amount. -/
theorem flo_ok {op : OpFlo} (admits : (FoldableOp.flo op).Admits f) :
    Returns (flo true op f) ↔ ¬ (FoldableOp.flo op).Slips f := by
  obtain ⟨x, readX⟩ := (admits.operand 0 _ _ rfl).word rfl
  let bits := if op.signed ∧ x &&& 0x80000000 ≠ 0 then ~~~x else x
  have counts : Returns (flo true op f) ↔
      Returns (floResult true op.returnShiftAmount bits.clz.toNat) := by
    rw [flo, readX, ok_bind]
    dsimp only
    rw [← apply_ite BitVec.clz]
    constructor
    · rintro ⟨f', folds⟩
      obtain ⟨dst, found, -⟩ := bind_eq_ok.mp folds
      exact ⟨dst, found⟩
    · exact fun found => found.bind fun _ => setDsts_ok admits.room
  have none : bits = 0 ↔ x = 0 ∨ op.signed ∧ x = BitVec.allOnes 32 := by
    simp only [bits]
    split_ifs with negative
    · have notZero : x ≠ 0 := by
        rintro rfl
        exact negative.2 rfl
      rw [or_iff_right notZero, and_iff_right negative.1]
      exact ⟨fun h => by rw [← BitVec.not_not (b := x), h]; rfl, fun h => by rw [h]; rfl⟩
    · rw [or_iff_left]
      rintro ⟨isSigned, rfl⟩
      exact negative ⟨isSigned, by decide⟩
  rw [counts, floResult_ok]
  simp only [FoldableOp.Slips, readX, Except.ok.injEq, exists_eq_left', ← none]
  cases op.returnShiftAmount <;> simp

theorem lea_ok {op : OpLea} (legal : (FoldableOp.lea op).Legal sm)
    (admits : (FoldableOp.lea op).Admits f) : Returns (lea debug op f) := by
  have second := admits.operand 1 _ _ rfl
  have intermediate : Returns op.intermediateMod.isINeg := by
    rcases legal.2 with plain | negative
    · exact ⟨_, by rw [plain]; rfl⟩
    · exact ⟨_, by rw [negative]; rfl⟩
  refine (admits.operand 0 _ _ rfl).word rfl |>.bind fun a => ?_
  refine (second.word rfl).bind fun b => ?_
  refine (admits.operand 2 _ _ rfl).word rfl |>.bind fun aHigh => ?_
  refine (leaShifted_ok legal.1 a aHigh).bind fun shifted => ?_
  refine intermediate.bind fun _ => ?_
  simp only [OpFoldData.Admits.iNeg_eq second.supported, ok_bind]
  exact setDsts_ok admits.room

theorem leaX_ok {op : OpLeaX} (legal : (FoldableOp.leaX op).Legal sm)
    (admits : (FoldableOp.leaX op).Admits f) : Returns (leaX debug op f) := by
  have second := admits.operand 1 _ _ rfl
  have intermediate : Returns op.intermediateMod.isBNot := by
    rcases legal.2 with plain | inverted
    · exact ⟨_, by rw [plain]; rfl⟩
    · exact ⟨_, by rw [inverted]; rfl⟩
  refine (admits.operand 0 _ _ rfl).word rfl |>.bind fun a => ?_
  refine (second.word rfl).bind fun b => ?_
  refine (admits.operand 2 _ _ rfl).word rfl |>.bind fun aHigh => ?_
  refine (admits.operand 3 _ _ rfl).pred.bind fun carry => ?_
  refine (leaShifted_ok legal.1 a aHigh).bind fun shifted => ?_
  refine intermediate.bind fun _ => ?_
  simp only [OpFoldData.Admits.bNot_eq second.supported rfl, ok_bind]
  exact setDsts_ok admits.room

theorem shf_ok {op : OpShf} (admits : (FoldableOp.shf op).Admits f) :
    Returns (shf debug sm op f) := by
  have positive : 0 < op.dataType.bits := by cases op.dataType <;> decide
  refine (admits.operand 0 _ _ rfl).word rfl |>.bind fun low => ?_
  refine (admits.operand 1 _ _ rfl).word rfl |>.bind fun high => ?_
  refine (admits.operand 2 _ _ rfl).word rfl |>.bind fun shift => ?_
  exact (shfAmount_ok op.wrap positive shift).bind fun _ => setDsts_ok admits.room

theorem prmt_ok {op : OpPrmt} (legal : (FoldableOp.prmt op).Legal sm)
    (admits : (FoldableOp.prmt op).Admits f) : Returns (prmt debug op f) := by
  refine (admits.operand 0 _ _ rfl).word rfl |>.bind fun x => ?_
  refine (admits.operand 1 _ _ rfl).word rfl |>.bind fun y => ?_
  refine (admits.operand 2 _ _ rfl).word rfl |>.bind fun sel => ?_
  rw [decide_eq_true (show op.mode = .index from legal), assertThat_true, ok_bind]
  exact (prmtBytes_ok _ _).bind fun _ => setDsts_ok admits.room

theorem suClamp_ok {op : OpSuClamp} (admits : (FoldableOp.suClamp op).Admits f) :
    Returns (suClamp debug op f) := by
  refine (admits.operand 0 _ _ rfl).word rfl |>.bind fun src => ?_
  refine (admits.operand 1 _ _ rfl).word rfl |>.bind fun params => ?_
  have small : -2 ^ 31 ≤ (if op.isS32 then src.toInt else src.toNat : Int) ∧
      (if op.isS32 then src.toInt else src.toNat : Int) < 2 ^ 32 := by
    have low := BitVec.le_toInt src
    have high := BitVec.toInt_lt (x := src)
    have word := src.isLt
    split_ifs <;> omega
  have low := BitVec.le_toInt op.imm
  have high := BitVec.toInt_lt (x := op.imm)
  rw [Checked.addI64_ok (by omega) (by omega), ok_bind]
  refine (toMask_ok op.round).bind fun _ => ?_
  exact (suClampOut_ok _ _ _ _ _).bind fun _ => setDsts_ok admits.room

theorem suBfm_ok {op : OpSuBfm} (admits : (FoldableOp.suBfm op).Admits f) :
    Returns (suBfm debug op f) := by
  refine (admits.operand 0 _ _ rfl).word rfl |>.bind fun x => ?_
  refine (admits.operand 1 _ _ rfl).word rfl |>.bind fun y => ?_
  refine (admits.operand 2 _ _ rfl).word rfl |>.bind fun z => ?_
  dsimp only
  split_ifs
  · exact (suBfmPitch_ok x z).bind fun _ => setDsts_ok admits.room
  · exact (suBfmBlock_ok op.is3d x y z).bind fun _ => setDsts_ok admits.room

theorem suEau_ok {op : OpSuEau} (admits : (FoldableOp.suEau op).Admits f) :
    Returns (suEau debug op f) := by
  refine (admits.operand 0 _ _ rfl).word rfl |>.bind fun off => ?_
  refine (admits.operand 1 _ _ rfl).word rfl |>.bind fun bf => ?_
  refine (admits.operand 2 _ _ rfl).word rfl |>.bind fun addr => ?_
  have offShift := BitFields.getField_lt bf 12 4
  dsimp only
  split_ifs with isPitchLinear
  · exact (pitchOffset_ok off offShift).bind fun _ => setDsts_ok admits.room
  · exact (blockOffset_ok off bf offShift).bind fun _ => setDsts_ok admits.room

theorem iMadSp_ok {op : OpIMadSp} (legal : (FoldableOp.iMadSp op).Legal sm)
    (admits : (FoldableOp.iMadSp op).Admits f) : Returns (iMadSp debug op f) := by
  refine (admits.operand 0 _ _ rfl).word rfl |>.bind fun src0 => ?_
  refine (admits.operand 1 _ _ rfl).word rfl |>.bind fun src1 => ?_
  refine (admits.operand 2 _ _ rfl).word rfl |>.bind fun src2 => ?_
  obtain ⟨type0, type1, type2, types, narrow⟩ := iMadSpTypes_ok legal src1
  obtain ⟨low0, high0⟩ := cast_bounds type0 src0
  obtain ⟨low1, high1⟩ := cast_narrow narrow src1
  obtain ⟨low2, high2⟩ := cast_bounds type2 src2
  obtain ⟨⟨lowP, highP⟩, lowS, highS⟩ := product_bounds low0 high0 low1 high1 low2 high2
  rw [types, ok_bind]
  simp only [Checked.mulI64_ok lowP highP, Checked.addI64_ok lowS highS, ok_bind]
  exact setDsts_ok admits.room

end Foldable

open OpFoldData (setDsts_ok)

section Example

/-- A constant operand, and an `OpFlo` on it with no other data. -/
def floOf (imm : Nat) : FoldableOp :=
  .flo { dst := .none, src := ⟨.imm32 imm, .none, .none⟩, signed := false,
         returnShiftAmount := false }

def oneWord : OpFoldData := ⟨[.u32 0], []⟩

theorem floOf_admits (imm : Nat) : (floOf imm).Admits oneWord where
  operand := by
    rintro (_ | _) type src at_
    · cases at_
      refine ⟨rfl, ?_⟩
      intro varies
      cases varies
    · cases at_
  room := Nat.le_refl 1

end Example

end CoralReef
