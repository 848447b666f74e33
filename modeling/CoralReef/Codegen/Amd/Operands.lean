import CoralReef.Codegen.Ir.SrcDst
import Mathlib.Data.Fin.VecNotation
import CoralReef.Codegen.Amd.Encoding

/-!
# Operands of AMD instructions

`ops/encoding_helpers.rs`: how operands become register numbers and source fields, and the encoders
that move operands to where the instruction can take them. `u16` numbers are reduced where an
addition can pass 2^16.
-/

namespace CoralReef.Amd

/-- `AmdOpEncoder`. -/
structure AmdOpEncoder where
  labels : Label → Option Nat := fun _ => none
  ip : Nat := 0
  scratchVgpr0 : Nat
  scratchVgpr1 : Nat
  gfxMajor : Nat
  userSgprCount : Nat
  tidSaveBase : Nat

/-- `AmdOpEncoder::vop2`. -/
def AmdOpEncoder.vop2 (e : AmdOpEncoder) (op : Nat) : Nat := vop2OpcodeForGfx op e.gfxMajor

/-- `u16::try_from` of a register number. -/
def asU16 (index : Nat) (message : String) : Except Fault Nat :=
  if index < 2 ^ 16 then .ok index else .error (.compileError message)

/-- `dst_to_vgpr_index`. -/
def dstToVgprIndex : Dst → Except Fault Nat
  | .none => .error (.compileError "destination is None")
  | .reg reg =>
    let index := reg.baseIdx
    asU16 index s!"VGPR dst index {index} exceeds u16"
  | .ssa _ => .error (.compileError "SSA destination in encoder (not yet register-allocated)")

/-- `src_to_vgpr_index`. -/
def srcToVgprIndex (src : Src) : Except Fault Nat :=
  match src.reference with
  | .reg reg =>
    let index := reg.baseIdx
    asU16 index s!"VGPR src index {index} exceeds u16"
  | .zero => .ok 0
  | _ => .error (.compileError "VOP2 VSRC1 must be a VGPR register")

/-- `SrcEncoding`. -/
structure SrcEncoding where
  src0 : Nat
  literal : Option Nat := none
  deriving DecidableEq, Repr

/-- The literal that follows an instruction, if its source has one. -/
def SrcEncoding.literalWords (enc : SrcEncoding) : List Emitted :=
  enc.literal.toList.map fun value => ⟨.literal, BitVec.ofNat 32 value⟩

/-- `cbuf_to_user_sgpr_encoding`. -/
def cbufToUserSgprEncoding (buf : CBuf) (byteOffset : Nat) : Except Fault Nat :=
  match buf with
  | .binding _ => .ok (byteOffset / 4)
  | _ => .error (.compileError "bindless constant buffer access on AMD")

/-- `imm32_to_src_encoding`. -/
def imm32ToSrcEncoding (val : Nat) : SrcEncoding :=
  if val ≤ 64 then { src0 := 128 + val }
  else if 0xFFFFFFF0 ≤ val then { src0 := 192 + (2 ^ 32 - val) }
  else { src0 := 255, literal := some val }

/-- `src_to_encoding`. -/
def srcToEncoding (src : Src) : Except Fault SrcEncoding :=
  match src.reference with
  | .reg reg => do
    let index := reg.baseIdx
    let index ← asU16 index s!"register index {index} exceeds u16"
    match reg.file with
    | .gpr => return { src0 := (256 + index) % 2 ^ 16 }
    | _ => return { src0 := index }
  | .zero => .ok { src0 := 128 }
  | .imm32 val => .ok (imm32ToSrcEncoding val)
  | .ssa _ => .error (.compileError "SSA source in encoder (not yet register-allocated)")
  | .cbuf cb => do return { src0 := ← cbufToUserSgprEncoding cb.buf cb.offset }
  | _ => .ok { src0 := 128 }

/-- `materialize_if_literal`. -/
def materializeIfLiteral (scratchVgpr : Nat) (enc : SrcEncoding) : List Emitted × SrcEncoding :=
  match enc.literal with
  | some _ => (encodeVop1 Isa.vMovB32 (.vgpr scratchVgpr) 255 ++ enc.literalWords,
      { src0 := 256 + scratchVgpr })
  | none => ([], { src0 := enc.src0 })

/-- `materialize_f64_if_literal`. -/
def materializeF64IfLiteral (scratchPairBase : Nat) (enc : SrcEncoding) :
    List Emitted × SrcEncoding :=
  match enc.literal with
  | some _ => (encodeVop1 Isa.vMovB32 (.vgpr scratchPairBase) 128 ++
      (encodeVop1 Isa.vMovB32 (.vgpr (scratchPairBase + 1)) 255 ++ enc.literalWords),
      { src0 := 256 + scratchPairBase })
  | none => ([], { src0 := enc.src0 })

/-- `encode_vop2_from_srcs`. -/
def encodeVop2FromSrcs (opcode : Nat) (dst : Dst) (src0 src1 : Src) (e : AmdOpEncoder) :
    Except Fault (List Emitted) := do
  let dstReg ← dstToVgprIndex dst
  let hwOp := vop2OpcodeForGfx opcode e.gfxMajor
  match srcToVgprIndex src1, srcToVgprIndex src0 with
  | .ok src1Idx, _ => do
    let src0Enc ← srcToEncoding src0
    return encodeVop2 hwOp (.vgpr dstReg) src0Enc.src0 (.vgpr src1Idx) ++ src0Enc.literalWords
  | .error _, .ok src0Idx => do
    let src1Enc ← srcToEncoding src1
    return encodeVop2 hwOp (.vgpr dstReg) src1Enc.src0 (.vgpr src0Idx) ++ src1Enc.literalWords
  | .error _, .error _ => do
    let src0Enc ← srcToEncoding src0
    let src1Enc ← srcToEncoding src1
    let (prefix0, mat0) := materializeIfLiteral e.scratchVgpr0 src0Enc
    let (prefix1, mat1) := materializeIfLiteral e.scratchVgpr1 src1Enc
    return prefix0 ++ prefix1 ++
      encodeVop3 (opcode + 256) (hwOp + 256) (.vgpr dstReg) mat0.src0 mat1.src0 0

/-- `encode_vopc_legalized`. -/
def encodeVopcLegalized (opcode : Nat) (src0 src1 : Src) (e : AmdOpEncoder) :
    Except Fault (List Emitted) := do
  let src0Enc ← srcToEncoding src0
  match srcToVgprIndex src1 with
  | .ok src1Idx => return encodeVopc opcode src0Enc.src0 src1Idx ++ src0Enc.literalWords
  | .error _ => do
    let src1Enc ← srcToEncoding src1
    let (prefix0, mat0) := materializeIfLiteral e.scratchVgpr0 src0Enc
    let (prefix1, mat1) := materializeIfLiteral e.scratchVgpr1 src1Enc
    let vop3Opcode := if e.gfxMajor < 10 then vopcOpcodeForGfx9 opcode else opcode
    return prefix0 ++ prefix1 ++ encodeVop3 opcode vop3Opcode (.sgpr 106) mat0.src0 mat1.src0 0

/-- Whether a modifier negates, and whether it takes the absolute value first. -/
def SrcMod.negates (modifier : SrcMod) : Bool := modifier = .fNeg ∨ modifier = .fNegAbs

def SrcMod.takesAbs (modifier : SrcMod) : Bool := modifier = .fAbs ∨ modifier = .fNegAbs

/-- Materialize a source if it has a literal, and say which scratch register is free after it. -/
def materializeNext (materialize : Nat → SrcEncoding → List Emitted × SrcEncoding)
    (e : AmdOpEncoder) (scratch : Nat) (enc : SrcEncoding) : (List Emitted × SrcEncoding) × Nat :=
  if enc.literal.isSome then (materialize scratch enc, e.scratchVgpr1)
  else (([], { src0 := enc.src0 }), scratch)

/-- `encode_vop3_from_srcs_inner`. -/
def encodeVop3FromSrcsInner (opcode : Nat) (dst : Dst) (src0 src1 src2 : Src) (e : AmdOpEncoder)
    (f64Mode : Bool) : Except Fault (List Emitted) := do
  let dstReg ← dstToVgprIndex dst
  let src0Enc ← srcToEncoding src0
  let src1Enc ← srcToEncoding src1
  let src2Enc ← srcToEncoding src2
  let literalCount := ([src0Enc, src1Enc, src2Enc].filter fun enc => enc.literal.isSome).length
  if !f64Mode && literalCount > 2 then
    .error (.compileError "VOP3: third literal would require additional scratch VGPR")
  else if f64Mode && literalCount > 1 then
    .error (.compileError "VOP3 f64: two literals would require 4 scratch VGPRs")
  else
    let materialize := if f64Mode then materializeF64IfLiteral else materializeIfLiteral
    let ((prefix0, mat0), scratch) := materializeNext materialize e e.scratchVgpr0 src0Enc
    let ((prefix1, mat1), scratch) := materializeNext materialize e scratch src1Enc
    let ((prefix2, mat2), _) := materializeNext materialize e scratch src2Enc
    return prefix0 ++ prefix1 ++ prefix2 ++
      encodeVop3Mod opcode opcode (.vgpr dstReg) mat0.src0 mat1.src0 mat2.src0
        ![SrcMod.negates src0.modifier, SrcMod.negates src1.modifier, SrcMod.negates src2.modifier]
        ![SrcMod.takesAbs src0.modifier, SrcMod.takesAbs src1.modifier,
          SrcMod.takesAbs src2.modifier]

/-- `encode_vop3_from_srcs`. -/
def encodeVop3FromSrcs (opcode : Nat) (dst : Dst) (src0 src1 src2 : Src) (e : AmdOpEncoder) :
    Except Fault (List Emitted) :=
  encodeVop3FromSrcsInner opcode dst src0 src1 src2 e false

/-- `encode_vop3_f64_from_srcs`. -/
def encodeVop3F64FromSrcs (opcode : Nat) (dst : Dst) (src0 src1 src2 : Src) (e : AmdOpEncoder) :
    Except Fault (List Emitted) :=
  encodeVop3FromSrcsInner opcode dst src0 src1 src2 e true

end CoralReef.Amd
