import CoralReef.Codegen.Ir.Alu
import CoralReef.Codegen.Ir.Semantics

/-!
# Folds

The values of straight-line code over SSA values. The ops of `codegen/ir/fold.rs` have the first
result of their folds in a release build (`Ir/Proofs/Fold` shows it of the implementations of
`Foldable`, which `Ir/Foldable` models with their aborts). An operand that has no value of the kind
the op reads is an internal error of the fold, and the result has no value then. The integer ops
without a fold (`IMad`, `IMul`, `BRev`, `PLop3`, `Sel`, `Copy`) have the values of the instructions
they become; the arithmetic of floats is a parameter.
-/

namespace CoralReef

/-- `FoldData`: a predicate or a 32-bit word. A `float` stands for a word that is known by the
number it encodes. -/
inductive Value where
  | pred (b : Bool)
  | word (x : BitVec 32)
  | float (q : Rat)
  deriving DecidableEq, Repr

namespace Value

def word? : Option Value → Option (BitVec 32)
  | some (.word x) => some x
  | _ => none

def pred? : Option Value → Option Bool
  | some (.pred b) => some b
  | _ => none

@[simp] theorem word?_word (x : BitVec 32) : word? (some (.word x)) = some x := rfl

@[simp] theorem word?_pred (b : Bool) : word? (some (.pred b)) = none := rfl

@[simp] theorem word?_float (q : Rat) : word? (some (.float q)) = none := rfl

@[simp] theorem word?_none : word? none = none := rfl

@[simp] theorem pred?_pred (b : Bool) : pred? (some (.pred b)) = some b := rfl

@[simp] theorem pred?_word (x : BitVec 32) : pred? (some (.word x)) = none := rfl

@[simp] theorem pred?_float (q : Rat) : pred? (some (.float q)) = none := rfl

@[simp] theorem pred?_none : pred? none = none := rfl

end Value

/-- What the SSA values hold. -/
abbrev Env := SSAValue → Option Value

inductive TranscendentalOp where
  | cos | sin | exp2 | log2 | rcp | rsq | rcp64H | rsq64H | sqrt | tanh
  deriving DecidableEq, Repr

/-- The ops on floats, without their operands. -/
inductive FloatCode where
  | fAdd (saturate : Bool) (rndMode : FRndMode) (ftz : Bool)
  | fMul (saturate : Bool) (rndMode : FRndMode) (ftz dnz : Bool)
  | fFma (saturate : Bool) (rndMode : FRndMode) (ftz dnz : Bool)
  | fMnMx (ftz : Bool)
  | fSetP (setOp : PredSetOp) (cmpOp : FloatCmpOp) (ftz : Bool)
  | transcendental (op : TranscendentalOp)
  | fRnd (dstType srcType : FloatType) (rndMode : FRndMode) (ftz : Bool)
  | f2I (dstType : IntType) (srcType : FloatType) (rndMode : FRndMode) (ftz : Bool)
  | i2F (dstType : FloatType) (srcType : IntType) (rndMode : FRndMode)
  | f2F (dstType srcType : FloatType) (rndMode : FRndMode) (ftz dstHigh integerRnd : Bool)
  | dAdd (rndMode : FRndMode)
  | dMul (rndMode : FRndMode)
  | f64Rcp
  deriving DecidableEq, Repr

structure OpIAdd2 where
  dsts : Fin 2 → Dst
  srcs : Fin 2 → Src

structure OpIMad where
  dst : Dst
  srcs : Fin 3 → Src
  signed : Bool

structure OpIMul where
  dst : Dst
  srcs : Fin 2 → Src
  signed : Fin 2 → Bool
  high : Bool

structure OpLop2 where
  dst : Dst
  srcs : Fin 2 → Src
  op : LogicOp2

structure OpShf where
  dst : Dst
  srcs : Fin 3 → Src
  right : Bool
  wrap : Bool
  dataType : IntType
  dstHigh : Bool

structure OpShl where
  dst : Dst
  srcs : Fin 2 → Src
  wrap : Bool

structure OpShr where
  dst : Dst
  srcs : Fin 2 → Src
  wrap : Bool
  signed : Bool

structure OpPSetP where
  dsts : Fin 2 → Dst
  ops : Fin 2 → PredSetOp
  srcs : Fin 3 → Src

structure OpPopC where
  dst : Dst
  src : Src

structure OpBRev where
  dst : Dst
  src : Src

structure OpFlo where
  dst : Dst
  src : Src
  signed : Bool
  returnShiftAmount : Bool

structure OpCopy where
  dst : Dst
  src : Src

structure OpDSetP where
  dst : Dst
  setOp : PredSetOp
  cmpOp : FloatCmpOp
  srcs : Fin 3 → Src

/-- The ops the values of expressions are computed with. -/
inductive ValueOp where
  | iAdd2 (op : OpIAdd2)
  | iAdd3 (op : OpIAdd3)
  | iMad (op : OpIMad)
  | iMul (op : OpIMul)
  | iSetP (op : OpISetP)
  | lop2 (op : OpLop2)
  | lop3 (op : OpLop3)
  | shf (op : OpShf)
  | shl (op : OpShl)
  | shr (op : OpShr)
  | pLop3 (op : OpPLop3)
  | pSetP (op : OpPSetP)
  | popC (op : OpPopC)
  | bRev (op : OpBRev)
  | flo (op : OpFlo)
  | sel (op : OpSel)
  | copy (op : OpCopy)
  | dSetP (op : OpDSetP)
  | float (code : FloatCode) (dst : Dst) (srcs : List Src)

def PredSetOp.eval : PredSetOp → Bool → Bool → Bool
  | .and, a, b => a && b
  | .or, a, b => a || b
  | .xor, a, b => a ^^ b

def IntType.bits : IntType → Nat
  | .u8 | .i8 => 8
  | .u16 | .i16 => 16
  | .u32 | .i32 => 32
  | .u64 | .i64 => 64

def IntType.isSigned : IntType → Bool
  | .i8 | .i16 | .i32 | .i64 => true
  | .u8 | .u16 | .u32 | .u64 => false

namespace Env

variable (env : Env)

/-- The value of an operand of one component, without its modifiers. -/
def srcValue (src : Src) : Option Value :=
  match src.reference with
  | .zero => some (.word 0)
  | .imm32 u => some (.word (BitVec.ofNat 32 u))
  | .boolTrue => some (.pred true)
  | .boolFalse => some (.pred false)
  | .ssa [x] => env x
  | _ => none

/-- `get_u32_src`. -/
def getU32Src (src : Src) : Option (BitVec 32) := Value.word? (env.srcValue src)

/-- `get_u32_bnot_src`. -/
def getU32BnotSrc (src : Src) : Option (BitVec 32) :=
  (env.getU32Src src).map fun x => if src.modifier = .bNot then ~~~x else x

/-- An addend: `ineg` is the complement and one, not the negation of a 64-bit word. -/
def getAddend (src : Src) : Option (BitVec 32) :=
  (env.getU32Src src).map fun x => if src.modifier = .iNeg then ~~~x + 1 else x

/-- `get_pred_src`. -/
def getPredSrc (src : Src) : Option Bool :=
  (Value.pred? (env.srcValue src)).map fun b => b != decide (src.modifier = .bNot)

/-- `get_f64_src`: the bits of a double. -/
def getF64Src (src : Src) : Option (BitVec 64) :=
  match src.reference with
  | .zero => some 0
  | .imm32 u => some (BitVec.ofNat 32 u ++ (0 : BitVec 32))
  | .ssa [lo, hi] => do
    let lo ← Value.word? (env lo)
    let hi ← Value.word? (env hi)
    return hi ++ lo
  | _ => none

/-- The components of an operand of a float op, with its modifier. -/
def floatSrc (src : Src) : SrcMod × List (Option Value) :=
  (src.modifier,
    match src.reference with
    | .ssa vec => vec.map env
    | _ => [env.srcValue src])

end Env

namespace OpIAdd2

/-- `OpIAdd2::fold`, the sum. A carry is never asked for here. -/
def fold (op : OpIAdd2) (env : Env) : Option Value := do
  return .word ((← env.getAddend (op.srcs 0)) + (← env.getAddend (op.srcs 1)))

end OpIAdd2

namespace OpIAdd3

/-- `OpIAdd3::fold`, the sum. -/
def fold (op : OpIAdd3) (env : Env) : Option Value := do
  return .word ((← env.getAddend (op.srcs 0)) + (← env.getAddend (op.srcs 1)) +
    (← env.getAddend (op.srcs 2)))

end OpIAdd3

namespace OpIMad

/-- The low word of a product and a sum does not depend on the signedness. -/
def fold (op : OpIMad) (env : Env) : Option Value := do
  return .word ((← env.getU32Src (op.srcs 0)) * (← env.getU32Src (op.srcs 1)) +
    (← env.getU32Src (op.srcs 2)))

end OpIMad

namespace OpIMul

/-- The low or the high word of the product of the extended operands. -/
def fold (op : OpIMul) (env : Env) : Option Value := do
  let extended (i : Fin 2) : Option (BitVec 64) := (env.getU32Src (op.srcs i)).map fun x =>
    if op.signed i then x.signExtend 64 else x.setWidth 64
  let product := (← extended 0) * (← extended 1)
  return .word ((if op.high then product >>> 32 else product).setWidth 32)

end OpIMul

def IntCmpOp.eval (cmpOp : IntCmpOp) (signed : Bool) (x y : BitVec 32) : Bool :=
  let less (x y : BitVec 32) := if signed then x.slt y else x.ult y
  match cmpOp with
  | .«false» => Bool.false
  | .«true» => Bool.true
  | .eq => x == y
  | .ne => x != y
  | .lt => less x y
  | .le => !less y x
  | .gt => less y x
  | .ge => !less x y

namespace OpISetP

/-- `OpISetP::fold`. The extended form is an assertion failure before SM70. -/
def fold (op : OpISetP) (sm : Nat) (env : Env) : Option Value := do
  let x ← env.getU32Src (op.srcs 0)
  let y ← env.getU32Src (op.srcs 1)
  let accum ← env.getPredSrc (op.srcs 2)
  let lowCmp ← env.getPredSrc (op.srcs 3)
  let constant := op.cmpOp = .false ∨ op.cmpOp = .true
  if op.ex ∧ x = y ∧ ¬ constant then
    if sm < 70 then none else return .pred (op.setOp.eval lowCmp accum)
  else return .pred (op.setOp.eval (op.cmpOp.eval op.cmpType.isSigned x y) accum)

end OpISetP

/-- What `OpLop2::fold` matches on. -/
def LogicOp2.eval : LogicOp2 → BitVec 32 → BitVec 32 → BitVec 32
  | .and, x, y => x &&& y
  | .or, x, y => x ||| y
  | .xor, x, y => x ^^^ y
  | .passB, _, y => y

namespace OpLop2

/-- `OpLop2::fold`. -/
def fold (op : OpLop2) (env : Env) : Option Value := do
  let x ← env.getU32BnotSrc (op.srcs 0)
  let y ← env.getU32BnotSrc (op.srcs 1)
  return .word (op.op.eval x y)

end OpLop2

namespace OpLop3

/-- `OpLop3::fold`. -/
def fold (op : OpLop3) (env : Env) : Option Value := do
  return .word (op.op.eval (← env.getU32BnotSrc (op.srcs 0)) (← env.getU32BnotSrc (op.srcs 1))
    (← env.getU32BnotSrc (op.srcs 2)))

end OpLop3

namespace OpShf

/-- `OpShf::fold`. -/
def fold (op : OpShf) (sm : Nat) (env : Env) : Option Value := do
  let low ← env.getU32Src (op.srcs 0)
  let high ← env.getU32Src (op.srcs 1)
  let shift ← env.getU32Src (op.srcs 2)
  let bits := op.dataType.bits
  let shift :=
    if op.wrap then (shift &&& BitVec.ofNat 32 (bits - 1)).toNat else min shift.toNat bits
  let x : BitVec 64 := high ++ low
  let shifted :=
    if op.right then
      if (sm < 70 ∧ op.dstHigh ∧ op.dataType ≠ .i64) ∨ !op.dataType.isSigned then x >>> shift
      else x.sshiftRight shift
    else x <<< shift
  let high := (sm < 70 ∧ !op.right) ∨ op.dstHigh
  return .word ((if high then shifted >>> 32 else shifted).setWidth 32)

end OpShf

namespace OpShl

/-- `OpShl::fold`. -/
def fold (op : OpShl) (env : Env) : Option Value := do
  let x ← env.getU32Src (op.srcs 0)
  let shift ← env.getU32Src (op.srcs 1)
  let shift := if op.wrap then (shift &&& 31).toNat else min shift.toNat 32
  return .word (x <<< shift)

end OpShl

namespace OpShr

/-- `OpShr::fold`. -/
def fold (op : OpShr) (env : Env) : Option Value := do
  let x ← env.getU32Src (op.srcs 0)
  let shift ← env.getU32Src (op.srcs 1)
  let shift := if op.wrap then (shift &&& 31).toNat else min shift.toNat 32
  return .word (if op.signed then x.sshiftRight shift else x >>> shift)

end OpShr

namespace OpPLop3

/-- The entry of the first truth table. -/
def fold (op : OpPLop3) (env : Env) : Option Value := do
  let x ← env.getPredSrc (op.srcs 0)
  let y ← env.getPredSrc (op.srcs 1)
  let z ← env.getPredSrc (op.srcs 2)
  return .pred ((op.ops 0).result ![x, y, z])

end OpPLop3

namespace OpPSetP

/-- `OpPSetP::fold`, the first result. -/
def fold (op : OpPSetP) (env : Env) : Option Value := do
  let x ← env.getPredSrc (op.srcs 0)
  let y ← env.getPredSrc (op.srcs 1)
  let z ← env.getPredSrc (op.srcs 2)
  return .pred ((op.ops 1).eval z ((op.ops 0).eval x y))

end OpPSetP

namespace OpPopC

/-- `OpPopC::fold`. -/
def fold (op : OpPopC) (env : Env) : Option Value :=
  (env.getU32BnotSrc op.src).map fun x => .word x.cpop

end OpPopC

namespace OpBRev

def fold (op : OpBRev) (env : Env) : Option Value :=
  (env.getU32Src op.src).map fun x => .word x.reverse

end OpBRev

namespace OpFlo

/-- `OpFlo::fold`. The subtraction wraps around, as it does in a release build. -/
def fold (op : OpFlo) (env : Env) : Option Value := do
  let src ← env.getU32Src op.src
  let leading := if op.signed ∧ src.msb then (~~~src).clz else src.clz
  return .word (if op.returnShiftAmount then leading else 31 - leading)

end OpFlo

namespace OpSel

/-- The second operand where the first is true, else the third. -/
def fold (op : OpSel) (env : Env) : Option Value := do
  let cond ← env.getPredSrc (op.srcs 0)
  match env.srcValue (op.srcs (if cond then 1 else 2)) with
  | some (.pred _) => none
  | value => value

end OpSel

namespace OpCopy

/-- A copy between the files, as `LowerCopySwap` lowers it: a predicate becomes 0 or 1, and a word
that is read inverted becomes whether it is zero. -/
def fold (op : OpCopy) (file : RegFile) (env : Env) : Option Value :=
  match file, env.srcValue op.src with
  | .gpr, some (.word x) => if op.src.modifier = .none then some (.word x) else none
  | .gpr, some (.float q) => if op.src.modifier = .none then some (.float q) else none
  | .gpr, some (.pred b) =>
    some (.word (if b != decide (op.src.modifier = .bNot) then 1 else 0))
  | .pred, some (.pred b) => some (.pred (b != decide (op.src.modifier = .bNot)))
  | .pred, some (.word x) => if op.src.modifier = .bNot then some (.pred (x == 0)) else none
  | _, _ => none

end OpCopy

/-- The doubles, as their bits. -/
abbrev F64 := BitVec 64

namespace F64

/-- The bits without the sign. -/
def magnitude (a : F64) : Nat := a.toNat % 2 ^ 63

def isNan (a : F64) : Bool := 0x7ff0000000000000 < magnitude a

/-- The order of the numbers. -/
def key (a : F64) : Int := if a.msb then -(magnitude a : Int) else magnitude a

end F64

def FloatCmpOp.eval (cmpOp : FloatCmpOp) (a b : F64) : Bool :=
  let ordered := !F64.isNan a && !F64.isNan b
  let eq : Bool := ordered && F64.key a = F64.key b
  let lt : Bool := ordered && F64.key a < F64.key b
  let gt : Bool := ordered && F64.key b < F64.key a
  match cmpOp with
  | .ordEq => eq
  | .ordNe => lt || gt
  | .ordLt => lt
  | .ordLe => lt || eq
  | .ordGt => gt
  | .ordGe => gt || eq
  | .unordEq => !ordered || eq
  | .unordNe => !ordered || lt || gt
  | .unordLt => !ordered || lt
  | .unordLe => !ordered || lt || eq
  | .unordGt => !ordered || gt
  | .unordGe => !ordered || gt || eq
  | .isNum => ordered
  | .isNan => !ordered

namespace OpDSetP

/-- `OpDSetP::fold`. -/
def fold (op : OpDSetP) (env : Env) : Option Value := do
  let a ← env.getF64Src (op.srcs 0)
  let b ← env.getF64Src (op.srcs 1)
  let accum ← env.getPredSrc (op.srcs 2)
  return .pred (op.setOp.eval (op.cmpOp.eval a b) accum)

end OpDSetP

/-- The arithmetic of floats: the components of a result. -/
abbrev FloatUnit := FloatCode → List (SrcMod × List (Option Value)) → Nat → Option Value

/-- The ops on floats have no fold. -/
def noFold : FloatUnit := fun _ _ _ => none

namespace ValueOp

variable (unit : FloatUnit) (sm : Nat)

def dst : ValueOp → Dst
  | .iAdd2 op => op.dsts 0
  | .iAdd3 op => op.dsts 0
  | .iMad op => op.dst
  | .iMul op => op.dst
  | .iSetP op => op.dst
  | .lop2 op => op.dst
  | .lop3 op => op.dst
  | .shf op => op.dst
  | .shl op => op.dst
  | .shr op => op.dst
  | .pLop3 op => op.dsts 0
  | .pSetP op => op.dsts 0
  | .popC op => op.dst
  | .bRev op => op.dst
  | .flo op => op.dst
  | .sel op => op.dst
  | .copy op => op.dst
  | .dSetP op => op.dst
  | .float _ dst _ => dst

/-- The value of a component of the result. -/
def value (op : ValueOp) (env : Env) (x : SSAValue) (i : Nat) : Option Value :=
  match op with
  | .iAdd2 op => op.fold env
  | .iAdd3 op => op.fold env
  | .iMad op => op.fold env
  | .iMul op => op.fold env
  | .iSetP op => op.fold sm env
  | .lop2 op => op.fold env
  | .lop3 op => op.fold env
  | .shf op => op.fold sm env
  | .shl op => op.fold env
  | .shr op => op.fold env
  | .pLop3 op => op.fold env
  | .pSetP op => op.fold env
  | .popC op => op.fold env
  | .bRev op => op.fold env
  | .flo op => op.fold env
  | .sel op => op.fold env
  | .copy op => op.fold x.file env
  | .dSetP op => op.fold env
  | .float code _ srcs => unit code (srcs.map env.floatSrc) i

/-- The effect of an op. -/
def exec (env : Env) (op : ValueOp) : Env :=
  assign env (op.dst.iterSsa.zipIdx.map fun (x, i) => (x, op.value unit sm env x i))

/-- The effect of straight-line code. -/
def run (env : Env) (ops : List ValueOp) : Env := ops.foldl (ValueOp.exec unit sm) env

/-- An op with one destination. -/
theorem exec_ofSsa {op : ValueOp} {dst : SSAValue} (isDst : op.dst = .ofSsa dst) (env : Env) :
    op.exec unit sm env = Function.update env dst (op.value unit sm env dst 0) := by
  unfold ValueOp.exec
  rw [isDst]
  rfl

end ValueOp

end CoralReef
