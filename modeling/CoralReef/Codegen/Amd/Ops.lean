import CoralReef.Codegen.Ir.Atom
import CoralReef.Codegen.Amd.Operands

/-!
# AMD instructions

The encoders of `ops/memory.rs`, `ops/alu_float.rs`, `ops/alu_int.rs`, `ops/alu_int_plop3.rs`,
`ops/control.rs`, `ops/convert.rs` and `ops/system.rs`, and their dispatch, `encode_amd_op`.
-/

/-!
## The ops of the AMD encoder

The ops that `op_encode_amd!` dispatches on, with the fields their encoders read and those that say
what they compute. The sources are named in the order of the source's arrays.
-/

namespace CoralReef.Amd

inductive MemType where
  | u8 | i8 | u16 | i16 | b32 | b64 | b128
  deriving DecidableEq, Repr

inductive TranscendentalOp where
  | cos | sin | exp2 | log2 | rcp | rsq | rcp64H | rsq64H | sqrt | tanh
  deriving DecidableEq, Repr

inductive Op where
  | ld (dst : Dst) (addr : Src) (memType : MemType) (offset : Int)
  | st (addr data : Src) (memType : MemType) (offset : Int)
  | atom (op : OpAtom)
  | ldc (dst : Dst) (cb offset : Src)
  | memBar (scope : MemScope)
  | fAdd (dst : Dst) (srcs : Fin 2 → Src)
  | fMul (dst : Dst) (srcs : Fin 2 → Src)
  | fFma (dst : Dst) (srcs : Fin 3 → Src)
  | fMnMx (dst : Dst) (srcs : Fin 2 → Src) (min : Src)
  | dAdd (dst : Dst) (srcs : Fin 2 → Src)
  | dMul (dst : Dst) (srcs : Fin 2 → Src)
  | dFma (dst : Dst) (srcs : Fin 3 → Src)
  | dMnMx (dst : Dst) (srcs : Fin 2 → Src) (min : Src)
  | f64Sqrt (dst : Dst) (src : Src)
  | f64Rcp (dst : Dst) (src : Src)
  | f64Exp2 (dst : Dst) (src : Src)
  | f64Log2 (dst : Dst) (src : Src)
  | f64Sin (dst : Dst) (src : Src)
  | f64Cos (dst : Dst) (src : Src)
  | transcendental (dst : Dst) (op : TranscendentalOp) (src : Src)
  | fSetP (dst : Dst) (setOp : PredSetOp) (cmpOp : FloatCmpOp) (srcs : Fin 2 → Src) (accum : Src)
  | dSetP (dst : Dst) (setOp : PredSetOp) (cmpOp : FloatCmpOp) (srcs : Fin 2 → Src) (accum : Src)
  | iSetP (op : OpISetP)
  | iAdd3 (op : OpIAdd3)
  | iMad (dst : Dst) (srcs : Fin 3 → Src) (signed : Bool)
  | iMnMx (dst : Dst) (cmpType : IntCmpType) (srcs : Fin 2 → Src) (min : Src)
  | lop2 (dst : Dst) (srcs : Fin 2 → Src) (op : LogicOp2)
  | lop3 (op : OpLop3)
  | shl (dst : Dst) (src shift : Src) (wrap : Bool)
  | shr (dst : Dst) (src shift : Src) (wrap signed : Bool)
  | shf (dst : Dst) (low high shift : Src) (right wrap : Bool) (dataType : IntType)
      (dstHigh : Bool)
  | sel (op : OpSel)
  | popC (dst : Dst) (src : Src)
  | bRev (dst : Dst) (src : Src)
  | flo (dst : Dst) (src : Src) (signed returnShiftAmount : Bool)
  | bfe (dst : Dst) (base range : Src) (signed reverse : Bool)
  | bMsk (dst : Dst) (pos width : Src) (wrap : Bool)
  | pLop3 (op : OpPLop3)
  | exit
  | nop (label : Option Label)
  | bar
  | bra (target : Label) (cond : Src)
  | fRnd (dst : Dst) (src : Src) (dstType srcType : FloatType) (rndMode : FRndMode)
  | f2F (dst : Dst) (src : Src) (srcType dstType : FloatType)
  | f2I (dst : Dst) (src : Src)
  | i2F (dst : Dst) (src : Src) (dstType : FloatType) (srcType : IntType)
  | i2I (dst : Dst) (src : Src)
  | mov (dst : Dst) (src : Src)
  | s2R (dst : Dst) (idx : Nat)
  | cS2R (dst : Dst) (idx : Nat)
  | copy (dst : Dst) (src : Src)
  /-- `Undef`, `PhiSrcs`, `PhiDsts`, `Pin`, `Unpin`, `RegOut`, `SrcBar`, `Annotate`, `Swap` and
  `ParCopy`, which emit nothing. -/
  | noCode (srcs : List Src)
  /-- An op of another kind, which the encoder refuses. -/
  | other (discriminant : Nat) (srcs : List Src)

namespace Op

/-- `srcs_as_slice`. -/
def srcs : Op → List Src
  | .memBar _ | .exit | .nop _ | .bar | .s2R _ _ | .cS2R _ _ => []
  | .ld _ src _ _ | .f64Sqrt _ src | .f64Rcp _ src | .f64Exp2 _ src | .f64Log2 _ src
  | .f64Sin _ src | .f64Cos _ src | .transcendental _ _ src | .popC _ src | .bRev _ src
  | .flo _ src _ _ | .bra _ src | .fRnd _ src _ _ _ | .f2F _ src _ _ | .f2I _ src
  | .i2F _ src _ _ | .i2I _ src | .mov _ src | .copy _ src => [src]
  | .st a b _ _ | .ldc _ a b | .shl _ a b _ | .shr _ a b _ _ | .bfe _ a b _ _ | .bMsk _ a b _ =>
    [a, b]
  | .shf _ a b c _ _ _ _ => [a, b, c]
  | .fAdd _ srcs | .fMul _ srcs | .dAdd _ srcs | .dMul _ srcs | .lop2 _ srcs _ => List.ofFn srcs
  | .fMnMx _ srcs c | .dMnMx _ srcs c | .iMnMx _ _ srcs c | .fSetP _ _ _ srcs c
  | .dSetP _ _ _ srcs c => List.ofFn srcs ++ [c]
  | .fFma _ srcs | .dFma _ srcs | .iMad _ srcs _ => List.ofFn srcs
  | .iSetP op => List.ofFn op.srcs
  | .iAdd3 op => List.ofFn op.srcs
  | .lop3 op => List.ofFn op.srcs
  | .atom op => List.ofFn op.srcs
  | .sel op => List.ofFn op.srcs
  | .pLop3 op => List.ofFn op.srcs
  | .noCode srcs | .other _ srcs => srcs

end Op

open Isa

/-! ## Memory -/

/-- `mem_type_to_flat_load`. -/
def memTypeToFlatLoad : MemType → Nat
  | .u8 => globalLoadUbyte
  | .i8 => globalLoadSbyte
  | .u16 => globalLoadUshort
  | .i16 => globalLoadSshort
  | .b32 => globalLoadDword
  | .b64 => globalLoadDwordx2
  | .b128 => globalLoadDwordx4

/-- `mem_type_to_flat_store`. -/
def memTypeToFlatStore : MemType → Nat
  | .u8 | .i8 => globalStoreByte
  | .u16 | .i16 => globalStoreShort
  | .b32 => globalStoreDword
  | .b64 => globalStoreDwordx2
  | .b128 => globalStoreDwordx4

/-- `atom_op_to_flat`. -/
def atomOpToFlat (op : AtomOp) (atomType : AtomType) : Nat :=
  let isUnsigned : Bool := atomType = .u32 ∨ atomType = .u64
  match op with
  | .add => flatAtomicAdd
  | .min => if isUnsigned then flatAtomicUmin else flatAtomicSmin
  | .max => if isUnsigned then flatAtomicUmax else flatAtomicSmax
  | .inc => flatAtomicInc
  | .dec => flatAtomicDec
  | .and => flatAtomicAnd
  | .or => flatAtomicOr
  | .xor => flatAtomicXor
  | .exch => flatAtomicSwap
  | .cmpExch _ => flatAtomicCmpswap

/-- `i16::try_from`. -/
def asI16 (n : Int) (message : String) : Except Fault Int :=
  if -2 ^ 15 ≤ n ∧ n < 2 ^ 15 then .ok n else .error (.compileError message)

/-- `checked_flat_offset`. -/
def checkedFlatOffset (offset : Int) : Except Fault Int :=
  asI16 offset s!"FLAT offset {offset} exceeds i16 range (-32768..32767)"

def encodeLd (dst : Dst) (addr : Src) (memType : MemType) (offset : Int) :
    Except Fault (List Emitted) := do
  let dstReg ← dstToVgprIndex dst
  let addrReg ← srcToVgprIndex addr
  let offset ← checkedFlatOffset offset
  return encodeFlatLoad (memTypeToFlatLoad memType) addrReg dstReg offset ++ encodeSWaitcnt 0 0 0

def encodeSt (addr data : Src) (memType : MemType) (offset : Int) :
    Except Fault (List Emitted) := do
  let addrReg ← srcToVgprIndex addr
  let dataReg ← srcToVgprIndex data
  let offset ← checkedFlatOffset offset
  return encodeFlatStore (memTypeToFlatStore memType) addrReg dataReg offset

def encodeAtom (op : OpAtom) : Except Fault (List Emitted) := do
  let dstReg ← dstToVgprIndex op.dst
  let addrReg ← srcToVgprIndex (op.srcs 0)
  let dataReg ← srcToVgprIndex (op.srcs 2)
  let offset ← checkedFlatOffset op.addrOffset
  return encodeFlatAtomic (atomOpToFlat op.atomOp op.atomType) addrReg dataReg dstReg offset

def encodeLdc (dst : Dst) (cb : Src) : Except Fault (List Emitted) := do
  let dstReg ← dstToVgprIndex dst
  match cb.reference with
  | .cbuf cb => do
    let sgprEnc ← cbufToUserSgprEncoding cb.buf cb.offset
    return encodeVop1 vMovB32 (.vgpr dstReg) sgprEnc
  | _ => .error (.compileError "Ldc source is not a constant buffer reference")

def encodeMemBar : MemScope → List Emitted
  | .cta => encodeSWaitcnt 0x0F 0x07 0
  | .gpu => encodeSWaitcnt 0 0x07 0
  | .system => encodeSWaitcnt 0 0 0

/-! ## Instructions with one source -/

/-- A VOP1 instruction, followed by the literal of its source if that has one. -/
def encodeVop1FromSrc (opcode : Nat) (dst : Dst) (src : Src) : Except Fault (List Emitted) := do
  let dstReg ← dstToVgprIndex dst
  let srcEnc ← srcToEncoding src
  return encodeVop1 opcode (.vgpr dstReg) srcEnc.src0 ++ srcEnc.literalWords

/-- A VOP3 instruction with one source, which is moved to a register when it is a literal. -/
def encodeVop3FromSrc (materialize : Nat → SrcEncoding → List Emitted × SrcEncoding)
    (opcode : Nat) (dst : Dst) (src : Src) (e : AmdOpEncoder) : Except Fault (List Emitted) := do
  let dstReg ← dstToVgprIndex dst
  let srcEnc ← srcToEncoding src
  let (before, materialized) := materialize e.scratchVgpr0 srcEnc
  return before ++ encodeVop3 opcode opcode (.vgprPair dstReg) materialized.src0 0 0

/-- `OpF64Exp2`, `OpF64Log2`, `OpF64Sin` and `OpF64Cos`: through the F32 instruction. -/
def encodeF64ViaF32 (opcode : Nat) (dst : Dst) (src : Src) (e : AmdOpEncoder) :
    Except Fault (List Emitted) := do
  let dstReg ← dstToVgprIndex dst
  let srcEnc ← srcToEncoding { reference := src.reference }
  let (before, materialized) := materializeIfLiteral e.scratchVgpr0 srcEnc
  let scratch := e.scratchVgpr0
  return before ++ encodeVop1 vCvtF32F64 (.vgpr scratch) materialized.src0 ++
    encodeVop1 opcode (.vgpr scratch) (256 + scratch) ++
    encodeVop1 vCvtF64F32 (.vgprPair dstReg) (256 + scratch)

def encodeTranscendental (dst : Dst) (op : TranscendentalOp) (src : Src) (e : AmdOpEncoder) :
    Except Fault (List Emitted) :=
  match op with
  | .cos => encodeVop1FromSrc vCosF32 dst src
  | .sin => encodeVop1FromSrc vSinF32 dst src
  | .exp2 => encodeVop1FromSrc vExpF32 dst src
  | .log2 => encodeVop1FromSrc vLogF32 dst src
  | .rcp => encodeVop1FromSrc vRcpF32 dst src
  | .rsq => encodeVop1FromSrc vRsqF32 dst src
  | .sqrt => encodeVop1FromSrc vSqrtF32 dst src
  | .rcp64H => encodeVop3FromSrc materializeF64IfLiteral vRcpF64 dst src e
  | .rsq64H => encodeVop3FromSrc materializeF64IfLiteral vRsqF64 dst src e
  | .tanh => do
    let _ ← dstToVgprIndex dst
    let _ ← srcToEncoding src
    .error (.compileError
      "OpTranscendental(Tanh) reached AMD encoder — IR should lower to Exp2+Rcp+FMul")

def encodeFRnd (dst : Dst) (src : Src) (dstType srcType : FloatType) (rndMode : FRndMode)
    (e : AmdOpEncoder) : Except Fault (List Emitted) :=
  if srcType = .f64 ∨ dstType = .f64 then
    let vop3Opcode := match rndMode with
      | .zero => vTruncF64
      | .negInf => vFloorF64
      | .posInf => vCeilF64
      | .nearestEven => vRndneF64
    encodeVop3FromSrc materializeIfLiteral vop3Opcode dst src e
  else
    let vop1Opcode := match rndMode with
      | .zero => vTruncF32
      | .negInf => vFloorF32
      | .posInf => vCeilF32
      | .nearestEven => vRndneF32
    encodeVop1FromSrc vop1Opcode dst src

def f2FOpcode (srcType dstType : FloatType) : Nat :=
  match srcType, dstType with
  | .f32, .f64 => vCvtF64F32
  | .f64, .f32 => vCvtF32F64
  | _, _ => vMovB32

def i2FOpcode (dstType : FloatType) (srcType : IntType) : Nat :=
  if dstType = .f64 then
    if srcType = .u32 then vCvtF64U32 else vCvtF64I32
  else vCvtF32I32

def encodePopC (dst : Dst) (src : Src) (e : AmdOpEncoder) : Except Fault (List Emitted) := do
  let dstReg ← dstToVgprIndex dst
  let srcEnc ← srcToEncoding src
  let (before, materialized) := materializeIfLiteral e.scratchVgpr0 srcEnc
  return before ++ encodeVop3 vBcntU32B32 vBcntU32B32 (.vgpr dstReg) materialized.src0 128 0

def encodeBRev (dst : Dst) (src : Src) (e : AmdOpEncoder) : Except Fault (List Emitted) := do
  let dstReg ← dstToVgprIndex dst
  let srcEnc ← srcToEncoding src
  let (before, materialized) := materializeIfLiteral e.scratchVgpr0 srcEnc
  return before ++ (encodeVop1 vBfrevB32 (.vgpr dstReg) materialized.src0 ++
    materialized.literalWords)

def encodeFlo (dst : Dst) (src : Src) (signed returnShiftAmount : Bool) (e : AmdOpEncoder) :
    Except Fault (List Emitted) := do
  let dstReg ← dstToVgprIndex dst
  let srcEnc ← srcToEncoding src
  let (before, materialized) := materializeIfLiteral e.scratchVgpr0 srcEnc
  let opcode := if signed then vFfbhI32 else vFfbhU32
  if returnShiftAmount then
    return before ++ (encodeVop1 opcode (.vgpr dstReg) materialized.src0 ++
      materialized.literalWords)
  else
    let scratch := e.scratchVgpr1
    return before ++ (encodeVop1 opcode (.vgpr scratch) materialized.src0 ++
        materialized.literalWords) ++
      encodeVop2 (e.vop2 vSubNcU32) (.vgpr dstReg) (128 + 31) (.vgpr scratch) ++
      encodeVopc vCmpNeU32 193 scratch ++
      encodeVop2 (e.vop2 vCndmaskB32) (.vgpr dstReg) 193 (.vgpr dstReg)

/-! ## Comparisons -/

/-- `float_cmp_to_vopc_f32`. -/
def floatCmpToVopcF32 : FloatCmpOp → Nat
  | .ordEq => vCmpEqF32
  | .ordNe => vCmpNeqF32
  | .ordLt => vCmpLtF32
  | .ordLe => vCmpLeF32
  | .ordGt => vCmpGtF32
  | .ordGe => vCmpGeF32
  | .unordEq => vCmpNlgF32
  | .unordNe => vCmpNleF32
  | .unordLt => vCmpNgeF32
  | .unordLe => vCmpNgtF32
  | .unordGt => vCmpNleF32
  | .unordGe => vCmpNltF32
  | .isNum => vCmpOF32
  | .isNan => vCmpUF32

/-- `float_cmp_to_vop3_f64`. -/
def floatCmpToVop3F64 : FloatCmpOp → Nat
  | .ordEq => vCmpEqF64
  | .ordNe => vCmpNeqF64
  | .ordLt => vCmpLtF64
  | .ordLe => vCmpLeF64
  | .ordGt => vCmpGtF64
  | .ordGe => vCmpGeF64
  | .unordEq | .unordNe | .unordLt | .unordLe | .unordGt | .unordGe => vCmpUF64
  | .isNum => vCmpOF64
  | .isNan => vCmpUF64

/-- `int_cmp_to_vopc`. -/
def intCmpToVopc (cmp : IntCmpOp) (cmpType : IntCmpType) : Nat :=
  if cmpType.isSigned then
    match cmp with
    | .false => vCmpFI32
    | .true => vCmpTI32
    | .eq => vCmpEqI32
    | .ne => vCmpNeI32
    | .lt => vCmpLtI32
    | .le => vCmpLeI32
    | .gt => vCmpGtI32
    | .ge => vCmpGeI32
  else
    match cmp with
    | .false => vCmpFU32
    | .true => vCmpTU32
    | .eq => vCmpEqU32
    | .ne => vCmpNeU32
    | .lt => vCmpLtU32
    | .le => vCmpLeU32
    | .gt => vCmpGtU32
    | .ge => vCmpGeU32

def encodeDSetP (cmpOp : FloatCmpOp) (srcs : Fin 2 → Src) (e : AmdOpEncoder) :
    Except Fault (List Emitted) := do
  let src0Enc ← srcToEncoding (srcs 0)
  let src1Enc ← srcToEncoding (srcs 1)
  let ((prefix0, mat0), scratch) := materializeNext materializeIfLiteral e e.scratchVgpr0 src0Enc
  let ((prefix1, mat1), _) := materializeNext materializeIfLiteral e scratch src1Enc
  let opcode := floatCmpToVop3F64 cmpOp
  return prefix0 ++ prefix1 ++ encodeVop3 opcode opcode (.sgpr 106) mat0.src0 mat1.src0 0

/-! ## Integers -/

def encodeIAdd3 (op : OpIAdd3) (e : AmdOpEncoder) : Except Fault (List Emitted) :=
  let s0Neg : Bool := (op.srcs 0).modifier = .iNeg
  let s1Neg : Bool := (op.srcs 1).modifier = .iNeg
  if s1Neg && !s0Neg then
    let src1Plain := { op.srcs 1 with modifier := .none }
    encodeVop2FromSrcs vSubNcU32 (op.dsts 0) (op.srcs 0) src1Plain e
  else if s0Neg && !s1Neg then
    let src0Plain := { op.srcs 0 with modifier := .none }
    encodeVop2FromSrcs vSubNcU32 (op.dsts 0) (op.srcs 1) src0Plain e
  else
    encodeVop2FromSrcs vAddNcU32 (op.dsts 0) (op.srcs 0) (op.srcs 1) e

def iMnMxOpcode (cmpType : IntCmpType) (min : Src) : Nat :=
  let isMin : Bool := min.reference = .boolTrue
  if cmpType.isSigned then
    if isMin then vMinI32 else vMaxI32
  else if isMin then vMinU32
  else vMaxU32

def encodeLop2 (dst : Dst) (srcs : Fin 2 → Src) (op : LogicOp2) (e : AmdOpEncoder) :
    Except Fault (List Emitted) :=
  match op with
  | .and => encodeVop2FromSrcs vAndB32 dst (srcs 0) (srcs 1) e
  | .or => encodeVop2FromSrcs vOrB32 dst (srcs 0) (srcs 1) e
  | .xor => encodeVop2FromSrcs vXorB32 dst (srcs 0) (srcs 1) e
  | .passB => encodeVop1FromSrc vMovB32 dst (srcs 1)

def encodeLop3 (op : OpLop3) (e : AmdOpEncoder) : Except Fault (List Emitted) :=
  if op.op = .newLut fun a b _ => a &&& b then
    encodeVop2FromSrcs vAndB32 op.dst (op.srcs 0) (op.srcs 1) e
  else if op.op = .newLut fun a b _ => a ||| b then
    encodeVop2FromSrcs vOrB32 op.dst (op.srcs 0) (op.srcs 1) e
  else if op.op = .newLut fun a b _ => a ^^^ b then
    encodeVop2FromSrcs vXorB32 op.dst (op.srcs 0) (op.srcs 1) e
  else if op.op = .newLut fun a b c => (a &&& c) ||| (~~~a &&& b) then
    encodeVop3FromSrcs vBfiB32 op.dst (op.srcs 0) (op.srcs 1) (op.srcs 2) e
  else
    encodeVop3FromSrcs vBfiB32 op.dst (op.srcs 0) (op.srcs 1) (op.srcs 2) e

/-- The VOP2 instructions of `OpShl`, `OpShr` and `OpSel`, whose second operand has to be a register
and cannot be swapped with the first. -/
def encodeVop2Unswapped (opcode : Nat) (dst : Dst) (src0 src1 : Src) (e : AmdOpEncoder) :
    Except Fault (List Emitted) := do
  let dstReg ← dstToVgprIndex dst
  let src0Enc ← srcToEncoding src0
  let hwOp := e.vop2 opcode
  match srcToVgprIndex src1 with
  | .ok src1Vgpr =>
    return encodeVop2 hwOp (.vgpr dstReg) src0Enc.src0 (.vgpr src1Vgpr) ++ src0Enc.literalWords
  | .error _ => do
    let src1Enc ← srcToEncoding src1
    let (prefix1, mat1) := materializeIfLiteral e.scratchVgpr0 src1Enc
    let (prefix0, mat0) := materializeIfLiteral e.scratchVgpr1 src0Enc
    let src1VgprIdx := if mat1.src0 ≥ 256 then mat1.src0 - 256 else mat1.src0
    return prefix1 ++ prefix0 ++ encodeVop2 hwOp (.vgpr dstReg) mat0.src0 (.vgpr src1VgprIdx)

def encodeShl (dst : Dst) (src shift : Src) (e : AmdOpEncoder) : Except Fault (List Emitted) :=
  encodeVop2Unswapped vLshlrevB32 dst shift src e

def encodeShr (dst : Dst) (src shift : Src) (signed : Bool) (e : AmdOpEncoder) :
    Except Fault (List Emitted) :=
  encodeVop2Unswapped (if signed then vAshrrevI32 else vLshrrevB32) dst shift src e

def encodeSel (op : OpSel) (e : AmdOpEncoder) : Except Fault (List Emitted) :=
  encodeVop2Unswapped vCndmaskB32 op.dst (op.srcs 1) (op.srcs 2) e

/-! ## Predicates -/

/-- `plop3_src_to_ssrc`. -/
def plop3SrcToSsrc (src : Src) : Except Fault Nat :=
  match src.reference with
  | .boolTrue => .ok 193
  | .boolFalse => .ok 128
  | .reg reg =>
    if reg.file = .pred ∨ reg.file = .upred then .ok 106
    else .error (.compileError "PLop3 source must be pred register or boolean constant")
  | _ => .error (.compileError "PLop3 source must be pred register or boolean constant")

/-- `plop3_dst_to_sdst`. -/
def plop3DstToSdst : Dst → Except Fault Nat
  | .none => .ok 106
  | .reg reg =>
    if reg.file = .pred ∨ reg.file = .upred then .ok 106
    else .error (.compileError "PLop3 dest must be pred register or None")
  | .ssa _ => .error (.compileError "PLop3 dest must be pred register or None")

/-- The scalar instruction of two operands for a truth table, and whether the operands change
places. -/
def plop3Sop2 (lut : LogicOp3) : Option (Nat × Bool) :=
  if lut = .newLut fun x y _ => x &&& y then some (sAndB32, false)
  else if lut = .newLut fun x y _ => x ||| y then some (sOrB32, false)
  else if lut = .newLut fun x y _ => x ^^^ y then some (sXorB32, false)
  else if lut = .newLut fun x y _ => x &&& ~~~y then some (sAndn2B32, false)
  else if lut = .newLut fun x y _ => ~~~x &&& y then some (sAndn2B32, true)
  else if lut = .newLut fun x y _ => x ||| ~~~y then some (sOrn2B32, false)
  else if lut = .newLut fun x y _ => ~~~x ||| y then some (sOrn2B32, true)
  else if lut = .newLut fun x y _ => ~~~(x &&& y) then some (sNandB32, false)
  else if lut = .newLut fun x y _ => ~~~(x ||| y) then some (sNorB32, false)
  else none

def encodePLop3 (op : OpPLop3) : Except Fault (List Emitted) := do
  let lut := op.ops 0
  let sdst ← plop3DstToSdst (op.dsts 0)
  let dst := RegRef.sgpr sdst
  if lut = .newLut fun x _ _ => ~~~x then
    let ssrc0 ← plop3SrcToSsrc (op.srcs 0)
    return encodeSop1 sNotB32 dst (.sgpr ssrc0)
  else if lut = .newLut fun _ y _ => ~~~y then
    let ssrc1 ← plop3SrcToSsrc (op.srcs 1)
    return encodeSop1 sNotB32 dst (.sgpr ssrc1)
  else if lut = .newLut fun x _ _ => x then
    let ssrc0 ← plop3SrcToSsrc (op.srcs 0)
    return encodeSop1 sMovB32 dst (.sgpr ssrc0)
  else if lut = .newLut fun _ y _ => y then
    let ssrc1 ← plop3SrcToSsrc (op.srcs 1)
    return encodeSop1 sMovB32 dst (.sgpr ssrc1)
  else if lut.lut = 0x00 then
    return encodeSop1 sMovB32 dst (.sgpr 128)
  else if lut.lut = 0xFF then
    return encodeSop1 sMovB32 dst (.sgpr 193)
  else
    let ssrc0 ← plop3SrcToSsrc (op.srcs 0)
    let ssrc1 ← plop3SrcToSsrc (op.srcs 1)
    match plop3Sop2 lut with
    | some (opcode, false) => return encodeSop2 opcode dst (.sgpr ssrc0) (.sgpr ssrc1)
    | some (opcode, true) => return encodeSop2 opcode dst (.sgpr ssrc1) (.sgpr ssrc0)
    | none => .error (.compileError "AMD PLop3 LUT requires multi-instruction decomposition")

/-! ## Control flow -/

/-- `i32::try_from`. -/
def asI32 (n : Nat) (message : String) : Except Fault Int :=
  if n < 2 ^ 31 then .ok n else .error (.compileError message)

/-- `Option::ok_or_else`. -/
def okOr {α : Type} (value : Option α) (message : String) : Except Fault α :=
  match value with
  | some a => .ok a
  | none => .error (.compileError message)

def encodeBra (target : Label) (cond : Src) (e : AmdOpEncoder) : Except Fault (List Emitted) := do
  let targetIp ← okOr (e.labels target) "branch target label not found"
  let nextIp := e.ip + 1
  let targetI32 ← asI32 targetIp s!"branch target IP {targetIp} exceeds i32"
  let nextI32 ← asI32 nextIp s!"branch source IP {nextIp} exceeds i32"
  let offset := targetI32 - nextI32
  let offset ← asI16 offset s!"branch offset {offset} exceeds i16 range"
  let simm16 := (offset % 2 ^ 16).toNat
  if cond.reference = .boolTrue then return encodeSopp sBranch simm16
  else if cond.modifier = .bNot then return encodeSopp sCbranchVccz simm16
  else return encodeSopp sCbranchVccnz simm16

/-! ## System registers -/

/-- `amd_sys_reg_src`. -/
def amdSysRegSrc (nvIdx tgidSgprBase tidSaveBase : Nat) : Except Fault Nat :=
  match nvIdx with
  | 0x21 => .ok (256 + tidSaveBase)
  | 0x22 => .ok (256 + tidSaveBase + 1)
  | 0x23 => .ok (256 + tidSaveBase + 2)
  | 0x25 => .ok tgidSgprBase
  | 0x26 => .ok (tgidSgprBase + 1)
  | 0x27 => .ok (tgidSgprBase + 2)
  | 0x00 => .ok 256
  | 0x29 => .ok (tgidSgprBase - 6)
  | 0x2a => .ok (tgidSgprBase - 5)
  | 0x2b => .ok (tgidSgprBase - 4)
  | 0x2d => .ok (tgidSgprBase - 3)
  | 0x2e => .ok (tgidSgprBase - 2)
  | 0x2f => .ok (tgidSgprBase - 1)
  | _ => .error (.compileError "AMD sys reg mapping for NVIDIA SR index")

def encodeS2R (dst : Dst) (idx : Nat) (e : AmdOpEncoder) : Except Fault (List Emitted) := do
  let dstReg ← dstToVgprIndex dst
  let srcEnc ← amdSysRegSrc idx e.userSgprCount e.tidSaveBase
  return encodeVop1 vMovB32 (.vgpr dstReg) srcEnc

/-- The encoder of `OpCopy`, which only a constant buffer reaches. -/
def encodeCopy (dst : Dst) (src : Src) : Except Fault (List Emitted) :=
  match src.reference with
  | .cbuf _ => encodeVop1FromSrc vMovB32 dst src
  | _ => .ok []

/-! ## Dispatch -/

/-- `op_encode_amd!`. -/
def opEncodeAmd (op : Op) (e : AmdOpEncoder) : Except Fault (List Emitted) :=
  match op with
  | .ld dst addr memType offset => encodeLd dst addr memType offset
  | .st addr data memType offset => encodeSt addr data memType offset
  | .atom op => encodeAtom op
  | .ldc dst cb _ => encodeLdc dst cb
  | .memBar scope => .ok (encodeMemBar scope)
  | .fAdd dst srcs => encodeVop2FromSrcs vAddF32 dst (srcs 0) (srcs 1) e
  | .fMul dst srcs => encodeVop2FromSrcs vMulF32 dst (srcs 0) (srcs 1) e
  | .fFma dst srcs => encodeVop3FromSrcs vFmaF32 dst (srcs 0) (srcs 1) (srcs 2) e
  | .fMnMx dst srcs min =>
    encodeVop2FromSrcs (if min.reference = .boolTrue then vMinF32 else vMaxF32) dst (srcs 0)
      (srcs 1) e
  | .dAdd dst srcs => encodeVop3F64FromSrcs vAddF64 dst (srcs 0) (srcs 1) { reference := .zero } e
  | .dMul dst srcs => encodeVop3F64FromSrcs vMulF64 dst (srcs 0) (srcs 1) { reference := .zero } e
  | .dFma dst srcs => encodeVop3F64FromSrcs vFmaF64 dst (srcs 0) (srcs 1) (srcs 2) e
  | .dMnMx dst srcs min =>
    encodeVop3F64FromSrcs (if min.reference = .boolTrue then vMinF64 else vMaxF64) dst (srcs 0)
      (srcs 1) { reference := .zero } e
  | .f64Sqrt dst src =>
    encodeVop3FromSrc materializeF64IfLiteral vSqrtF64 dst { reference := src.reference } e
  | .f64Rcp dst src =>
    encodeVop3FromSrc materializeF64IfLiteral vRcpF64 dst { reference := src.reference } e
  | .f64Exp2 dst src => encodeF64ViaF32 vExpF32 dst src e
  | .f64Log2 dst src => encodeF64ViaF32 vLogF32 dst src e
  | .f64Sin dst src => encodeF64ViaF32 vSinF32 dst src e
  | .f64Cos dst src => encodeF64ViaF32 vCosF32 dst src e
  | .transcendental dst op src => encodeTranscendental dst op src e
  | .fSetP _ _ cmpOp srcs _ => encodeVopcLegalized (floatCmpToVopcF32 cmpOp) (srcs 0) (srcs 1) e
  | .dSetP _ _ cmpOp srcs _ => encodeDSetP cmpOp srcs e
  | .iSetP op =>
    encodeVopcLegalized (intCmpToVopc op.cmpOp op.cmpType) (op.srcs 0) (op.srcs 1) e
  | .iAdd3 op => encodeIAdd3 op e
  | .iMad dst srcs _ => encodeVop3FromSrcs vMadU32U24 dst (srcs 0) (srcs 1) (srcs 2) e
  | .iMnMx dst cmpType srcs min =>
    encodeVop2FromSrcs (iMnMxOpcode cmpType min) dst (srcs 0) (srcs 1) e
  | .lop2 dst srcs op => encodeLop2 dst srcs op e
  | .lop3 op => encodeLop3 op e
  | .shl dst src shift _ => encodeShl dst src shift e
  | .shr dst src shift _ signed => encodeShr dst src shift signed e
  | .shf dst low high shift _ _ _ _ => encodeVop3FromSrcs vAlignbitB32 dst high low shift e
  | .sel op => encodeSel op e
  | .popC dst src => encodePopC dst src e
  | .bRev dst src => encodeBRev dst src e
  | .flo dst src signed returnShiftAmount => encodeFlo dst src signed returnShiftAmount e
  | .bfe dst base range signed _ =>
    encodeVop3FromSrcs (if signed then vBfeI32 else vBfeU32) dst base range
      { reference := .zero } e
  | .bMsk dst pos width _ =>
    encodeVop3FromSrcs vBfeU32 dst pos width { reference := .zero } e
  | .pLop3 op => encodePLop3 op
  | .exit => .ok encodeSEndpgm
  | .nop _ => .ok (encodeSNop 0)
  | .bar => .ok encodeSBarrier
  | .bra target cond => encodeBra target cond e
  | .fRnd dst src dstType srcType rndMode => encodeFRnd dst src dstType srcType rndMode e
  | .f2F dst src srcType dstType => encodeVop1FromSrc (f2FOpcode srcType dstType) dst src
  | .f2I dst src => encodeVop1FromSrc vCvtI32F32 dst src
  | .i2F dst src dstType srcType => encodeVop1FromSrc (i2FOpcode dstType srcType) dst src
  | .i2I dst src => encodeVop1FromSrc vMovB32 dst src
  | .mov dst src => encodeVop1FromSrc vMovB32 dst src
  | .s2R dst idx => encodeS2R dst idx e
  | .cS2R dst idx => encodeS2R dst idx e
  | .copy dst src => encodeCopy dst src
  | .noCode _ => .ok []
  | .other discriminant _ =>
    .error (.compileError
      s!"AMD encoding not implemented for Discriminant({discriminant})")

/-- `encode_amd_op`. The guard of the instruction is not among its arguments here, as the source
does not read it. -/
def encodeAmdOp (op : Op) (e : AmdOpEncoder) : Except Fault (List Word) := do
  let emitted ← opEncodeAmd op e
  let words := emitted.map Emitted.word
  return if e.gfxMajor < 10 then patchForGfx9 words else words

end CoralReef.Amd
