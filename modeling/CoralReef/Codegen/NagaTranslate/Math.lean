import CoralReef.Codegen.NagaTranslate.Binary

/-!
# Builtin functions

`translate_math` of `naga_translate/func_math.rs` for the functions that integers have too: those
of `func_math_extrema.rs` and `func_math_bitops.rs`, the dot product of `func_math_vector.rs` and
the sign of `func_math_interp.rs`.
-/

namespace CoralReef.NagaTranslate

/-- `naga::MathFunction`, the functions that are defined for integers and that the translator
accepts. -/
inductive MathFunction where
  | abs | min | max | clamp | dot
  | countOneBits | reverseBits | firstLeadingBit | countLeadingZeros | firstTrailingBit
  | sign
  deriving DecidableEq, Repr

/-- A missing argument. -/
def argument (arg : Option SSARef) (message : String) : EmitM SSARef :=
  StateT.lift (match arg with
    | some arg => .ok arg
    | none => .error (.compileError message))

/-- `ensure_f64_ssa_ref`. -/
def ensureF64SsaRef (x : SSARef) : EmitM SSARef := do
  if 2 ≤ x.length then return x
  let dst ← allocSsaVec .gpr 2
  pushInstr (copyOp (← component dst 0) (src (← component x 0)))
  pushInstr (copyOp (← component dst 1) srcZero)
  return dst

/-- `emit_f64_min_max`. -/
def emitF64MinMax (a b : SSARef) (cmpOp : FloatCmpOp) : EmitM SSARef := do
  let a ← ensureF64SsaRef a
  let b ← ensureF64SsaRef b
  let nPairs := min a.length b.length / 2
  let dst ← allocSsaVec .gpr (nPairs * 2)
  forComps nPairs fun i => do
    let aLo ← component a (i * 2)
    let aHi ← component a (i * 2 + 1)
    let bLo ← component b (i * 2)
    let bHi ← component b (i * 2 + 1)
    let pred ← emitOp .pred fun pred => .dSetP
      { dst := .ofSsa pred, setOp := .and, cmpOp
        srcs := ![srcVec [aLo, aHi], srcVec [bLo, bHi], srcTrue] }
    pushInstr (.sel
      { dst := .ofSsa (← component dst (i * 2)), srcs := ![src pred, src aLo, src bLo] })
    pushInstr (.sel
      { dst := .ofSsa (← component dst (i * 2 + 1)), srcs := ![src pred, src aHi, src bHi] })
  return dst

/-- `translate_abs`. -/
def translateAbs (a : SSARef) (arg : Expression) : EmitM SSARef := do
  if (← get).ctx.isF64Expr arg then
    let a ← ensureF64SsaRef a
    let nPairs := a.length / 2
    let dst ← allocSsaVec .gpr (nPairs * 2)
    forComps nPairs fun i => do
      pushInstr (copyOp (← component dst (i * 2)) (src (← component a (i * 2))))
      emitLogicAnd (← component dst (i * 2 + 1)) (src (← component a (i * 2 + 1)))
        (newImmU32 0x7FFFFFFF)
    return dst
  else return [← emitFAdd srcZero (fabs (src (← component a 0)))]

/-- The minimum of two floats where `isMin` is true, else the maximum. -/
def emitFMnMx (a b isMin : Src) : EmitM SSAValue :=
  emitOp .gpr fun dst => .float (.fMnMx false) (.ofSsa dst) [a, b, isMin]

/-- `translate_min`. -/
def translateMin (a b : SSARef) (arg : Expression) : EmitM SSARef := do
  if (← get).ctx.isF64Expr arg then emitF64MinMax a b .ordLt
  else return [← emitFMnMx (src (← component a 0)) (src (← component b 0)) srcTrue]

/-- `translate_max`. -/
def translateMax (a b : SSARef) (arg : Expression) : EmitM SSARef := do
  if (← get).ctx.isF64Expr arg then emitF64MinMax a b .ordGt
  else return [← emitFMnMx (src (← component a 0)) (src (← component b 0)) srcFalse]

/-- `translate_clamp`. -/
def translateClamp (a b c : SSARef) (arg : Expression) : EmitM SSARef := do
  if (← get).ctx.isF64Expr arg then
    let tmp ← emitF64MinMax a c .ordLt
    emitF64MinMax tmp b .ordGt
  else
    let tmp ← emitFMnMx (src (← component a 0)) (src (← component c 0)) srcTrue
    return [← emitFMnMx (src tmp) (src (← component b 0)) srcFalse]

/-- A sum of products, from the product of the first components on. -/
def emitDotFrom (a b : SSARef) (acc : SSAValue) : List Nat → EmitM SSAValue
  | [] => return acc
  | c :: rest => do
    let ac ← component a c
    let bc ← component b c
    let next ← emitOp .gpr fun dst => .float (.fFma false .nearestEven false false) (.ofSsa dst)
      [src ac, src bc, src acc]
    emitDotFrom a b next rest

/-- `translate_dot`. -/
def translateDot (a b : SSARef) : EmitM SSARef := do
  let comps := min a.length b.length
  let acc ← emitFMul (src (← component a 0)) (src (← component b 0))
  return [← emitDotFrom a b acc (List.range' 1 (comps - 1))]

/-- One op for each component. -/
def translateEach (a : SSARef) (op : Dst → Src → ValueOp) : EmitM SSARef := do
  let comps := a.length
  let dst ← allocSsaVec .gpr comps
  forComps comps fun c => do
    pushInstr (op (.ofSsa (← component dst c)) (src (← component a c)))
  return dst

/-- `translate_count_one_bits`. -/
def translateCountOneBits (a : SSARef) : EmitM SSARef :=
  translateEach a fun dst src => .popC { dst, src }

/-- `translate_reverse_bits`. -/
def translateReverseBits (a : SSARef) : EmitM SSARef :=
  translateEach a fun dst src => .bRev { dst, src }

/-- `translate_first_leading_bit`. -/
def translateFirstLeadingBit (a : SSARef) (arg : Expression) : EmitM SSARef := do
  let signed := (← get).ctx.isSignedIntExpr arg
  translateEach a fun dst src => .flo { dst, src, signed, returnShiftAmount := false }

/-- `translate_count_leading_zeros`. -/
def translateCountLeadingZeros (a : SSARef) : EmitM SSARef :=
  translateEach a fun dst src => .flo { dst, src, signed := false, returnShiftAmount := true }

/-- `translate_first_trailing_bit`. -/
def translateFirstTrailingBit (a : SSARef) : EmitM SSARef := do
  let rev ← translateEach a fun dst src => .bRev { dst, src }
  translateEach rev fun dst src => .flo { dst, src, signed := false, returnShiftAmount := true }

/-- `translate_sign`. The numbers it selects are those of floats. -/
def translateSign (a : SSARef) : EmitM SSARef := do
  let dst ← allocSsa .gpr
  let a0 ← component a 0
  let pos ← emitOp .pred fun pos =>
    .float (.fSetP .and .ordGt false) (.ofSsa pos) [src a0, srcZero, srcTrue]
  let neg ← emitOp .pred fun neg =>
    .float (.fSetP .and .ordLt false) (.ofSsa neg) [src a0, srcZero, srcTrue]
  pushInstr (copyOp dst srcZero)
  let tmp ← emitOp .gpr fun tmp =>
    .sel { dst := .ofSsa tmp, srcs := ![src neg, newImmU32 0xBF800000, src dst] }
  let result ← emitOp .gpr fun result =>
    .sel { dst := .ofSsa result, srcs := ![src pos, newImmU32 0x3F800000, src tmp] }
  return [result]

/-- `translate_math`. -/
def translateMath (fun' : MathFunction) (a : SSARef) (b c : Option SSARef) (arg : Expression) :
    EmitM SSARef := do
  match fun' with
  | .abs => translateAbs a arg
  | .min => translateMin a (← argument b "min requires 2 args") arg
  | .max => translateMax a (← argument b "max requires 2 args") arg
  | .clamp =>
    let b ← argument b "clamp requires 3 args"
    translateClamp a b (← argument c "clamp requires 3 args") arg
  | .dot => translateDot a (← argument b "dot requires 2 args")
  | .countOneBits => translateCountOneBits a
  | .reverseBits => translateReverseBits a
  | .firstLeadingBit => translateFirstLeadingBit a arg
  | .countLeadingZeros => translateCountLeadingZeros a
  | .firstTrailingBit => translateFirstTrailingBit a
  | .sign => translateSign a

/-!
## Rounding builtins

`naga_translate/func_math_rounding.rs`, and `emit_f64_ceil` of `func_math_helpers.rs`. A 64-bit
float is rounded by adding and subtracting `2 ^ 52`.
-/

/-- `emit_f64_ceil`. -/
def emitF64Ceil (x : SSARef) : EmitM SSARef := do
  let negX ← emitDAdd srcZero (fneg (srcVec x))
  let floorNeg ← emitF64Floor negX
  emitDAdd srcZero (fneg (srcVec floorNeg))

/-- The arms of a function that rounds: of doubles and of floats. -/
def translateRounding (rndMode : FRndMode) (onF64 : SSARef → EmitM SSARef) (a : SSARef)
    (arg : Expression) : EmitM SSARef := do
  if (← get).ctx.isF64Expr arg then onF64 a
  else return [← emitFRnd rndMode (src (← component a 0))]

/-- `translate_floor`. -/
def translateFloor : SSARef → Expression → EmitM SSARef := translateRounding .negInf emitF64Floor

/-- `translate_ceil`. -/
def translateCeil : SSARef → Expression → EmitM SSARef := translateRounding .posInf emitF64Ceil

/-- `translate_round`. -/
def translateRound : SSARef → Expression → EmitM SSARef :=
  translateRounding .nearestEven emitF64Round

/-- The truncation of a double: the floor of its magnitude, with its sign. -/
def emitF64Trunc (a : SSARef) : EmitM SSARef := do
  let absX ← emitDAdd srcZero (fabs (srcVec a))
  let floored ← emitF64Floor absX
  let signBit ← allocSsa .gpr
  emitLogicAnd signBit (src (← component a 1)) (newImmU32 0x80000000)
  let cleared ← allocSsa .gpr
  emitLogicAnd cleared (src (← component floored 1)) (newImmU32 0x7FFFFFFF)
  let dst ← allocSsaVec .gpr 2
  pushInstr (copyOp (← component dst 0) (src (← component floored 0)))
  emitLogicOr (← component dst 1) (src cleared) (src signBit)
  return dst

/-- `translate_trunc`. -/
def translateTrunc : SSARef → Expression → EmitM SSARef := translateRounding .zero emitF64Trunc

/-- `translate_fract`. -/
def translateFract (a : SSARef) (arg : Expression) : EmitM SSARef := do
  if (← get).ctx.isF64Expr arg then
    let floored ← emitF64Floor a
    emitDAdd (srcVec a) (fneg (srcVec floored))
  else
    let a0 ← component a 0
    let floored ← emitFRnd .negInf (src a0)
    return [← emitFAdd (src a0) (fneg (src floored))]

end CoralReef.NagaTranslate
