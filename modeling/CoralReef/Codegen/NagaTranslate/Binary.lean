import CoralReef.Codegen.NagaTranslate.Emit

/-!
# Operators

`translate_binary` of `naga_translate/expr_binary.rs` and `translate_unary` of
`naga_translate/func_ops.rs`, on operands whose code has been emitted. The type of a binary
operation is that of its left operand.
-/

namespace CoralReef.NagaTranslate

/-- `naga::BinaryOperator`. -/
inductive BinaryOperator where
  | add | subtract | multiply | divide | modulo
  | equal | notEqual | less | lessEqual | greater | greaterEqual
  | and | exclusiveOr | inclusiveOr | logicalAnd | logicalOr | shiftLeft | shiftRight
  deriving DecidableEq, Repr

/-- `naga::UnaryOperator`. -/
inductive UnaryOperator where
  | negate | logicalNot | bitwiseNot
  deriving DecidableEq, Repr

/-! ## The scalar code -/

/-- The source operand of one value. -/
abbrev src (x : SSAValue) : Src := .ofSsa x

def emitFAdd (a b : Src) : EmitM SSAValue :=
  emitOp .gpr fun dst => .float (.fAdd false .nearestEven false) (.ofSsa dst) [a, b]

def emitFMul (a b : Src) : EmitM SSAValue :=
  emitOp .gpr fun dst => .float (.fMul false .nearestEven false false) (.ofSsa dst) [a, b]

def emitFRnd (rndMode : FRndMode) (a : Src) : EmitM SSAValue :=
  emitOp .gpr fun dst => .float (.fRnd .f32 .f32 rndMode false) (.ofSsa dst) [a]

def emitRcp (a : Src) : EmitM SSAValue :=
  emitOp .gpr fun dst => .float (.transcendental .rcp) (.ofSsa dst) [a]

def emitI2F (a : Src) : EmitM SSAValue :=
  emitOp .gpr fun dst => .float (.i2F .f32 .i32 .nearestEven) (.ofSsa dst) [a]

def emitF2I (rndMode : FRndMode) (a : Src) : EmitM SSAValue :=
  emitOp .gpr fun dst => .float (.f2I .i32 .f32 rndMode false) (.ofSsa dst) [a]

def emitDAdd (a b : Src) : EmitM SSARef := emitPair (.dAdd .nearestEven) [a, b]

def emitDMul (a b : Src) : EmitM SSARef := emitPair (.dMul .nearestEven) [a, b]

/-- A sum of 32-bit words. -/
def emitIAdd (a b : Src) : EmitM SSAValue :=
  emitBySm .gpr
    (fun dst => .iAdd3 { dsts := ![.ofSsa dst, .none, .none], srcs := ![a, b, srcZero] })
    (fun dst => .iAdd2 { dsts := ![.ofSsa dst, .none], srcs := ![a, b] })

/-- A product of 32-bit words. -/
def emitIMul (a b : Src) : EmitM SSAValue :=
  emitBySm .gpr
    (fun dst => .iMad { dst := .ofSsa dst, srcs := ![a, b, srcZero], signed := false })
    (fun dst =>
      .iMul { dst := .ofSsa dst, srcs := ![a, b], signed := fun _ => false, high := false })

/-- A bitwise operation. -/
def emitLop (lut : BitVec 8 → BitVec 8 → BitVec 8 → BitVec 8) (op : LogicOp2) (a b : Src) :
    EmitM SSAValue :=
  emitBySm .gpr
    (fun dst => .lop3 { dst := .ofSsa dst, srcs := ![a, b, srcZero], op := .newLut lut })
    (fun dst => .lop2 { dst := .ofSsa dst, srcs := ![a, b], op })

def emitShl (a b : Src) : EmitM SSAValue :=
  emitBySm .gpr
    (fun dst => .shf
      { dst := .ofSsa dst, srcs := ![a, srcZero, b], right := false, wrap := true
        dataType := .i32, dstHigh := false })
    (fun dst => .shl { dst := .ofSsa dst, srcs := ![a, b], wrap := true })

def emitShr (a b : Src) : EmitM SSAValue :=
  emitBySm .gpr
    (fun dst => .shf
      { dst := .ofSsa dst, srcs := ![srcZero, a, b], right := true, wrap := true
        dataType := .u32, dstHigh := true })
    (fun dst => .shr { dst := .ofSsa dst, srcs := ![a, b], wrap := true, signed := false })

def emitISetP (cmpOp : IntCmpOp) (a b : Src) : EmitM SSAValue :=
  emitOp .pred fun dst => .iSetP
    { dst := .ofSsa dst, setOp := .and, cmpOp, cmpType := .u32, ex := false
      srcs := ![a, b, srcTrue, srcTrue] }

def emitFSetP (cmpOp : FloatCmpOp) (a b : Src) : EmitM SSAValue :=
  emitOp .pred fun dst => .float (.fSetP .and cmpOp false) (.ofSsa dst) [a, b, srcTrue]

/-- A logical operation on predicates. -/
def emitLogical (lut : BitVec 8 → BitVec 8 → BitVec 8 → BitVec 8) (op : PredSetOp) (a b : Src) :
    EmitM SSAValue :=
  emitBySm .pred
    (fun dst => .pLop3
      { dsts := ![.ofSsa dst, .none], srcs := ![a, b, srcTrue]
        ops := ![.newLut lut, .newConst false] })
    (fun dst => .pSetP
      { dsts := ![.ofSsa dst, .none], ops := ![op, .and], srcs := ![a, b, srcTrue] })

/-- What integer division and remainder begin with: the operands and the truncated quotient in
single precision. -/
def emitTruncatedQuotient (a b : SSAValue) : EmitM (SSAValue × SSAValue × SSAValue) := do
  let fa ← emitI2F (src a)
  let fb ← emitI2F (src b)
  let rcp ← emitRcp (src fb)
  let quotF ← emitFMul (src fa) (src rcp)
  let trunc ← emitFRnd .zero (src quotF)
  return (fa, fb, trunc)

def emitIntDivide (a b : SSAValue) : EmitM SSAValue := do
  let (_, _, trunc) ← emitTruncatedQuotient a b
  emitF2I .zero (src trunc)

def emitIntModulo (a b : SSAValue) : EmitM SSAValue := do
  let (fa, fb, trunc) ← emitTruncatedQuotient a b
  let prod ← emitFMul (src trunc) (src fb)
  let remF ← emitFAdd (src fa) (fneg (src prod))
  emitF2I .zero (src remF)

def emitFloatDivide (a b : SSAValue) : EmitM SSAValue := do
  let rcp ← emitRcp (src b)
  emitFMul (src a) (src rcp)

def emitFloatModulo (a b : SSAValue) : EmitM SSAValue := do
  let rcp ← emitRcp (src b)
  let quot ← emitFMul (src a) (src rcp)
  let floored ← emitFRnd .negInf (src quot)
  let prod ← emitFMul (src floored) (src b)
  emitFAdd (src a) (fneg (src prod))

/-- `emit_f64_round`: twice past `2 ^ 52` and back. -/
def emitF64Round (x : SSARef) : EmitM SSARef := do
  let signBit ← allocSsa .gpr
  emitLogicAnd signBit (src (← component x 1)) (newImmU32 0x80000000)
  let signedHi ← allocSsa .gpr
  emitLogicOr signedHi (newImmU32 0x43300000) (src signBit)
  let signedMagic ← allocSsaVec .gpr 2
  pushInstr (copyOp (← component signedMagic 0) srcZero)
  pushInstr (copyOp (← component signedMagic 1) (src signedHi))
  let tmp ← emitDAdd (srcVec x) (srcVec signedMagic)
  emitDAdd (srcVec tmp) (fneg (srcVec signedMagic))

/-- `emit_f64_floor`. -/
def emitF64Floor (x : SSARef) : EmitM SSARef := do
  let rounded ← emitF64Round x
  let one ← allocSsaVec .gpr 2
  pushInstr (copyOp (← component one 0) (newImmU32 0))
  pushInstr (copyOp (← component one 1) (newImmU32 0x3ff00000))
  let pred ← emitOp .pred fun dst => .dSetP
    { dst := .ofSsa dst, setOp := .and, cmpOp := .ordGt
      srcs := ![srcVec rounded, srcVec x, srcTrue] }
  let adjusted ← emitDAdd (srcVec rounded) (fneg (srcVec one))
  let dst ← allocSsaVec .gpr 2
  forComps 2 fun c => do
    let adjustedC ← component adjusted c
    let roundedC ← component rounded c
    pushInstr (.sel
      { dst := .ofSsa (← component dst c), srcs := ![src pred, src adjustedC, src roundedC] })
  return dst

def emitF64Divide (lp rp : SSARef) : EmitM SSARef := do
  let rcp ← emitPair .f64Rcp [srcVec rp]
  emitDMul (srcVec lp) (srcVec rcp)

def emitF64Modulo (lp rp : SSARef) : EmitM SSARef := do
  let rcp ← emitPair .f64Rcp [srcVec rp]
  let quot ← emitDMul (srcVec lp) (srcVec rcp)
  let floored ← emitF64Floor quot
  let prod ← emitDMul (srcVec floored) (srcVec rp)
  emitDAdd (srcVec lp) (fneg (srcVec prod))

/-! ## The operators -/

/-- The arms of an arithmetic operator: on doubles, on floats and on words. -/
def translateArithmetic (isFloat isF64 : Bool) (l r : SSARef)
    (onF64 : SSARef → SSARef → EmitM SSARef)
    (onFloat onInt : SSAValue → SSAValue → EmitM SSAValue) :
    EmitM SSARef :=
  let comps := max l.length 1
  if isF64 then emitF64Componentwise l r onF64
  else if isFloat then emitComponentwise comps l r onFloat
  else emitIntComponentwise comps l r onInt

/-- The arms of a comparison. -/
def translateComparison (isFloat isF64 : Bool) (l r : SSARef) (floatOp : FloatCmpOp)
    (intOp : IntCmpOp) : EmitM SSARef :=
  if isF64 then emitF64Cmp l r floatOp
  else if isFloat then
    emitCmpComponentwise l r fun a b => emitFSetP floatOp (src a) (src b)
  else emitCmpComponentwise l r fun a b => emitISetP intOp (src a) (src b)

/-- The arms of an operator that only words have. -/
def translateWords (l r : SSARef) (emit : Src → Src → EmitM SSAValue) : EmitM SSARef :=
  emitIntComponentwise (max l.length 1) l r fun a b => emit (src a) (src b)

/-- The arms of a logical operator: the first components, as predicates. -/
def translateLogical (l r : SSARef) (emit : Src → Src → EmitM SSAValue) : EmitM SSARef := do
  let dst ← emit (src (← component l 0)) (src (← component r 0))
  return [dst]

/-- `translate_binary`. -/
def translateBinary (op : BinaryOperator) (l r : SSARef) (left : Expression) : EmitM SSARef := do
  let isFloat := (← get).ctx.isFloatExpr left
  let isF64 := (← get).ctx.isF64Expr left
  match op with
  | .add =>
    translateArithmetic isFloat isF64 l r (fun lp rp => emitDAdd (srcVec lp) (srcVec rp))
      (fun a b => emitFAdd (src a) (src b)) (fun a b => emitIAdd (src a) (src b))
  | .subtract =>
    translateArithmetic isFloat isF64 l r (fun lp rp => emitDAdd (srcVec lp) (fneg (srcVec rp)))
      (fun a b => emitFAdd (src a) (fneg (src b))) (fun a b => emitIAdd (src a) (ineg (src b)))
  | .multiply =>
    translateArithmetic isFloat isF64 l r (fun lp rp => emitDMul (srcVec lp) (srcVec rp))
      (fun a b => emitFMul (src a) (src b)) (fun a b => emitIMul (src a) (src b))
  | .divide => translateArithmetic isFloat isF64 l r emitF64Divide emitFloatDivide emitIntDivide
  | .modulo => translateArithmetic isFloat isF64 l r emitF64Modulo emitFloatModulo emitIntModulo
  | .and => translateWords l r (emitLop (fun x y _ => x &&& y) .and)
  | .inclusiveOr => translateWords l r (emitLop (fun x y _ => x ||| y) .or)
  | .exclusiveOr => translateWords l r (emitLop (fun x y _ => x ^^^ y) .xor)
  | .shiftLeft => translateWords l r emitShl
  | .shiftRight => translateWords l r emitShr
  | .equal => translateComparison isFloat isF64 l r .ordEq .eq
  | .notEqual => translateComparison isFloat isF64 l r .ordNe .ne
  | .less => translateComparison isFloat isF64 l r .ordLt .lt
  | .lessEqual => translateComparison isFloat isF64 l r .ordLe .le
  | .greater => translateComparison isFloat isF64 l r .ordGt .gt
  | .greaterEqual => translateComparison isFloat isF64 l r .ordGe .ge
  | .logicalAnd => translateLogical l r (emitLogical (fun x y _ => x &&& y) .and)
  | .logicalOr => translateLogical l r (emitLogical (fun x y _ => x ||| y) .or)

/-- One component of `translate_unary`. -/
def translateUnaryComponent (op : UnaryOperator) (isFloat : Bool) (dst val : SSAValue) :
    EmitM Unit := do
  let sm := (← get).sm
  match op with
  | .negate =>
    if isFloat then
      pushInstr (.float (.fAdd false .nearestEven false) (.ofSsa dst) [srcZero, fneg (src val)])
    else if 70 ≤ sm then
      pushInstr (.iAdd3
        { dsts := ![.ofSsa dst, .none, .none], srcs := ![srcZero, ineg (src val), srcZero] })
    else
      pushInstr (.iAdd2 { dsts := ![.ofSsa dst, .none], srcs := ![srcZero, ineg (src val)] })
  | .logicalNot =>
    let predDst ← allocSsa .pred
    pushInstr (copyOp predDst (bnot (src val)))
    pushInstr (copyOp dst (src predDst))
  | .bitwiseNot =>
    if 70 ≤ sm then
      pushInstr (.lop3
        { dst := .ofSsa dst, srcs := ![src val, srcZero, srcZero]
          op := .newLut fun x _ _ => ~~~x })
    else
      -- The sibling arm inverts; this one ands with zero.
      pushInstr (.lop2 { dst := .ofSsa dst, srcs := ![src val, srcZero], op := .and })

/-- `translate_unary`. -/
def translateUnary (op : UnaryOperator) (val : SSARef) (inner : Expression) : EmitM SSARef := do
  let isFloat := (← get).ctx.isFloatExpr inner
  let comps := val.length
  let dst ← allocSsaVec .gpr comps
  forComps comps fun c => do
    translateUnaryComponent op isFloat (← component dst c) (← component val c)
  return dst

/-!
## Conversions

`translate_cast` of `naga_translate/func_ops.rs`. It looks at the target only, and at the first
component.
-/

/-- The high word of a sign extension. The shift is of the pair that the value is the high word of,
and gives the low word. -/
def signWordOp (word dst : SSAValue) : ValueOp :=
  .shf
    { dst := .ofSsa dst, srcs := ![srcZero, src word, newImmU32 31], right := true, wrap := false
      dataType := .i32, dstHigh := false }

/-- `translate_cast`. -/
def translateCast (val : SSARef) (kind : ScalarKind) (convert : Option Nat) : EmitM SSARef :=
  match kind, convert with
  | .float, some 4 => do
    let dst ← emitI2F (src (← component val 0))
    return [dst]
  | .uint, some 4 | .sint, some 4 => do
    let dst ← emitF2I .nearestEven (src (← component val 0))
    return [dst]
  | .float, some 8 => do
    if 2 ≤ val.length then return val
    else
      let f32Val ← emitI2F (src (← component val 0))
      emitPair (.f2F .f64 .f32 .nearestEven false false false) [src f32Val]
  | .uint, some 8 => do
    let dst ← allocSsaVec .gpr 2
    let word ← component val 0
    pushInstr (copyOp (← component dst 0) (src word))
    pushInstr (copyOp (← component dst 1) srcZero)
    return dst
  | .sint, some 8 => do
    let dst ← allocSsaVec .gpr 2
    let word ← component val 0
    pushInstr (copyOp (← component dst 0) (src word))
    pushInstr (signWordOp word (← component dst 1))
    return dst
  | _, _ => do
    let word ← component val 0
    let dst ← emitOp .gpr fun dst => copyOp dst (src word)
    return [dst]

end CoralReef.NagaTranslate
