import CoralReef.Codegen.Amd.ShaderModel
import CoralReef.Codegen.AssignRegs.RegAllocator

/-!
# What the patch for GFX9 is for

The opcodes that GFX9 has for the operations the encoders emit as VOP3 or VOPC, and the word each
emitted word should become: the first word of such an instruction gets that opcode, and in VOP3 the
prefix of GFX9; every other word stays as it is.
-/

namespace CoralReef.Amd

open BitFields Isa

/-- The opcodes of VOP3 and VOPC instructions on GFX9, by those on RDNA2. GFX9 knows additions and
subtractions of integers by the opcodes with a carry. -/
def gfx9Opcodes : List (Nat × Nat) :=
  [(vMadU32U24, 451), (vBfeU32, 456), (vBfeI32, 457), (vBfiB32, 458), (vFmaF32, 459),
    (vFmaF64, 460), (vAlignbitB32, 462), (vAddF64, 640), (vMulF64, 641), (vMinF64, 642),
    (vMaxF64, 643), (vTruncF64, 343), (vCeilF64, 344), (vRndneF64, 345), (vFloorF64, 346),
    (vRcpF64, 357), (vRsqF64, 358), (vSqrtF64, 360), (vBcntU32B32, 651),
    (256 + vAddF32, 257), (256 + vMulF32, 261), (256 + vMinF32, 266), (256 + vMaxF32, 267),
    (256 + vMinI32, 268), (256 + vMaxI32, 269), (256 + vMinU32, 270), (256 + vMaxU32, 271),
    (256 + vAndB32, 275), (256 + vOrB32, 276), (256 + vXorB32, 277), (256 + vAddNcU32, 281),
    (256 + vSubNcU32, 282),
    (vCmpLtF32, 65), (vCmpEqF32, 66), (vCmpLeF32, 67), (vCmpGtF32, 68), (vCmpGeF32, 70),
    (vCmpOF32, 71), (vCmpUF32, 72), (vCmpNgeF32, 73), (vCmpNlgF32, 74), (vCmpNgtF32, 75),
    (vCmpNleF32, 76), (vCmpNeqF32, 77), (vCmpNltF32, 78),
    (vCmpLtF64, 97), (vCmpEqF64, 98), (vCmpLeF64, 99), (vCmpGtF64, 100), (vCmpGeF64, 102),
    (vCmpOF64, 103), (vCmpUF64, 104), (vCmpNeqF64, 109),
    (vCmpFI32, 192), (vCmpLtI32, 193), (vCmpEqI32, 194), (vCmpLeI32, 195), (vCmpGtI32, 196),
    (vCmpNeI32, 197), (vCmpGeI32, 198), (vCmpTI32, 199),
    (vCmpFU32, 200), (vCmpLtU32, 201), (vCmpEqU32, 202), (vCmpLeU32, 203), (vCmpGtU32, 204),
    (vCmpNeU32, 205), (vCmpGeU32, 206), (vCmpTU32, 207)]

/-- The GFX9 opcode of an operation that is known by its RDNA2 opcode. -/
def gfx9Opcode (op : Nat) : Nat := (gfx9Opcodes.lookup op).getD op

/-- The word that an emitted word should become. -/
def gfx9Word (emitted : Emitted) : Word :=
  match emitted.role with
  | .vop3 op => setField (setField emitted.word 26 6 0b110100) 16 10 (gfx9Opcode op)
  | .vopc op => setField emitted.word 17 8 (gfx9Opcode op)
  | .head | .second | .literal => emitted.word

/-- The opcodes of compares that GFX9 has under other numbers. -/
def vopcRemapped (op : Nat) : Bool := op ≤ 63 ∨ 128 ≤ op ∧ op ≤ 159 ∨ 192 ≤ op ∧ op ≤ 223

/-- Whether the bits of a value look like the first word of a VOP3 instruction, or of a compare with
another number. -/
def looksPatchable (word : Word) : Bool :=
  getField word 26 6 = 0b110101 ∨
    getField word 25 7 = 0b0111110 ∧ vopcRemapped (getField word 17 8)

/-- Whether the literal of a source, if it has one, does not look like such a word. -/
def literalKept (src : Src) : Bool :=
  match src.reference with
  | .imm32 val => val ≤ 64 || 0xFFFFFFF0 ≤ val || !looksPatchable (BitVec.ofNat 32 val)
  | _ => true

/-- The register of a destination. -/
def dstIndex : Dst → Nat
  | .reg reg => reg.baseIdx
  | _ => 0

/-- Whether the second word of a load or an atomic does not look like such a word: its top bits are
the destination, the bits under them the `NULL` of the address. -/
def dstKept (dst : Dst) : Bool :=
  dstIndex dst % 256 ≠ 124 && (dstIndex dst % 256 < 212 || 215 < dstIndex dst % 256)

/-- The instructions that are patched as they should be. -/
def patchExact : Op → Bool
  | .ld dst _ _ _ => dstKept dst
  | .atom op => dstKept op.dst
  | .iSetP op =>
    literalKept (op.srcs 0) && match (op.srcs 1).reference with
      | .reg _ | .zero => true
      | _ => false
  | .popC _ _ => false
  | .fAdd _ srcs | .fMul _ srcs | .fMnMx _ srcs _ | .iMnMx _ _ srcs _ | .dAdd _ srcs | .dMul _ srcs
  | .dMnMx _ srcs _ | .fSetP _ _ _ srcs _ | .dSetP _ _ _ srcs _ =>
    literalKept (srcs 0) && literalKept (srcs 1)
  | .iAdd3 op => literalKept (op.srcs 0) && literalKept (op.srcs 1)
  | .lop2 _ srcs .passB => literalKept (srcs 1)
  | .lop2 _ srcs _ => literalKept (srcs 0) && literalKept (srcs 1)
  | .lop3 op =>
    literalKept (op.srcs 0) && literalKept (op.srcs 1) &&
      (literalKept (op.srcs 2) || op.op = .newLut (fun a b _ => a &&& b) ||
        op.op = .newLut (fun a b _ => a ||| b) || op.op = .newLut (fun a b _ => a ^^^ b))
  | .sel op => literalKept (op.srcs 1) && literalKept (op.srcs 2)
  | .fFma _ srcs | .dFma _ srcs | .iMad _ srcs _ =>
    literalKept (srcs 0) && literalKept (srcs 1) && literalKept (srcs 2)
  | .f64Sqrt _ src | .f64Rcp _ src | .f64Exp2 _ src | .f64Log2 _ src | .f64Sin _ src
  | .f64Cos _ src | .transcendental _ _ src | .bRev _ src | .flo _ src _ _ | .fRnd _ src _ _ _
  | .f2F _ src _ _ | .f2I _ src | .i2F _ src _ _ | .i2I _ src | .mov _ src => literalKept src
  | .shl _ src shift _ | .shr _ src shift _ _ => literalKept src && literalKept shift
  | .shf _ low high shift _ _ _ _ => literalKept high && literalKept low && literalKept shift
  | .bfe _ a b _ _ | .bMsk _ a b _ => literalKept a && literalKept b
  | .st _ _ _ _ | .ldc _ _ _ | .memBar _ | .pLop3 _ | .exit | .nop _ | .bar | .bra _ _ | .s2R _ _
  | .cS2R _ _ | .copy _ _ | .noCode _ | .other _ _ => true

/-!
## Where AMD code stands

The places at which the emitting pass really puts blocks and instructions, and what it means that
labels and branches name them.
-/

/-- The words of some first blocks, after those that save the thread ids. -/
def emit (e : AmdOpEncoder) (blocks : List Block) : Except Fault (List Word) :=
  blocks.foldlM (encodeBlock e) (tidSavePrologue e.tidSaveBase)

/-- An instruction of the blocks is emitted at a place, as some words. -/
inductive EmittedAt (e : AmdOpEncoder) (blocks : List Block) : Instr → Nat → List Word → Prop where
  | intro {before after : List Block} {b : Block} {done rest : List Instr} {instr : Instr}
      {encoded encoded' words : List Word} (split : blocks = before ++ b :: after)
      (splitBlock : b.instrs = done ++ instr :: rest) (emitted : emit e before = .ok encoded)
      (emittedBlock : done.foldlM (encodeInstr e) encoded = .ok encoded')
      (accepted : encodeAmdOp instr.op { e with ip := encoded'.length } = .ok words) :
      EmittedAt e blocks instr encoded'.length words

/-- A label stands at a place: its block begins there, or the `Nop` that has it. -/
inductive LabelAt (e : AmdOpEncoder) (blocks : List Block) : Label → Nat → Prop where
  | block {before after : List Block} {b : Block} {encoded : List Word}
      (split : blocks = before ++ b :: after) (emitted : emit e before = .ok encoded) :
      LabelAt e blocks b.label encoded.length
  | nop {pred : Pred} {label : Label} {position : Nat} {words : List Word}
      (at_ : EmittedAt e blocks ⟨pred, .nop (some label)⟩ position words) :
      LabelAt e blocks label position

/-- Where a branch goes: `SIMM16` words past the word that follows it. -/
def branchDestination (position : Nat) (word : Word) : Int :=
  position + 1 + (BitVec.ofNat 16 (getField word 0 16)).toInt

/-- Instructions have the sizes taken for them, labels are where their blocks are, and branches go
to the first words of their targets. -/
structure BranchesRight (e : AmdOpEncoder) (blocks : List Block) : Prop where
  sizes : ∀ instr position words, EmittedAt e blocks instr position words →
    words.length = estimateInstrSize instr.op
  labels : ∀ label position, LabelAt e blocks label position → e.labels label = some position
  branches : ∀ pred target cond position words,
    EmittedAt e blocks ⟨pred, .bra target cond⟩ position words →
      ∃ word destination, words = [word] ∧ LabelAt e blocks target destination ∧
        branchDestination position word = destination

/-!
## The VGPRs of an AMD shader

Which VGPRs the operands of a shader name, which ones `encode_rdna2_shader` takes for itself, and
which one the hardware writes for a move.
-/

/-- `dsts_as_slice`. -/
def Op.dsts : Op → List Dst
  | .st _ _ _ _ | .memBar _ | .exit | .nop _ | .bar | .bra _ _ | .noCode _ | .other _ _ => []
  | .ld dst _ _ _ | .ldc dst _ _ | .fAdd dst _ | .fMul dst _ | .fFma dst _
  | .fMnMx dst _ _ | .dAdd dst _ | .dMul dst _ | .dFma dst _ | .dMnMx dst _ _ | .f64Sqrt dst _
  | .f64Rcp dst _ | .f64Exp2 dst _ | .f64Log2 dst _ | .f64Sin dst _ | .f64Cos dst _
  | .transcendental dst _ _ | .fSetP dst _ _ _ _ | .dSetP dst _ _ _ _ | .iMad dst _ _
  | .iMnMx dst _ _ _ | .lop2 dst _ _ | .shl dst _ _ _ | .shr dst _ _ _ _ | .shf dst _ _ _ _ _ _ _
  | .popC dst _ | .bRev dst _ | .flo dst _ _ _ | .bfe dst _ _ _ _ | .bMsk dst _ _ _
  | .fRnd dst _ _ _ _ | .f2F dst _ _ _ | .f2I dst _ | .i2F dst _ _ _ | .i2I dst _ | .mov dst _
  | .s2R dst _ | .cS2R dst _ | .copy dst _ => [dst]
  | .iSetP op => [op.dst]
  | .lop3 op => [op.dst]
  | .atom op => [op.dst]
  | .sel op => [op.dst]
  | .iAdd3 op => List.ofFn op.dsts
  | .pLop3 op => List.ofFn op.dsts

/-- The registers that an instruction names. -/
def Op.regs (op : Op) : List CoralReef.RegRef :=
  op.dsts.filterMap Dst.asReg ++ op.srcs.filterMap fun src => src.reference.asReg

/-- The VGPRs that an operand covers. -/
def vgprsOf (reg : CoralReef.RegRef) : List Nat :=
  if reg.file = .gpr then (List.range reg.comps).map (reg.baseIdx + ·) else []

/-- The VGPRs that the instructions of a shader name. -/
def Shader.vgprs (s : Shader) : List Nat :=
  s.functions.flatten.flatMap fun b => b.instrs.flatMap fun instr =>
    instr.op.regs.flatMap vgprsOf

/-- A shader after `assign_regs`: the limits that it came to, of which one is the count of registers,
and a VGPR in an operand is one that it assigned. -/
structure AllocatedShader extends Shader where
  limits : AssignLimits
  counted : gprCount = limits.gprs.totalGprs
  assigned : ∀ v ∈ toShader.vgprs, AssignedGpr limits.gprs v

/-- The registers for the saved thread ids, then the two for scratch. -/
def Shader.reservedVgprs (s : Shader) : List Nat :=
  let tidSaveBase := s.gprCount
  let scratchVgpr0 := tidSaveBase + tidSaveVgprs
  (List.range tidSaveVgprs).map (tidSaveBase + ·) ++ [scratchVgpr0, scratchVgpr0 + 1]

/-- The register that the hardware writes for a VOP1 instruction. -/
def vop1Vdst (word : Word) : Nat := getField word 17 8

/-- The register that the hardware reads for a VOP1 instruction, if it reads one. -/
def vop1Vsrc (word : Word) : Option Nat :=
  let src0 := getField word 0 9
  if 256 ≤ src0 then some (src0 - 256) else none

/-- The VGPRs after a move of `value`. -/
def runVMov (word : Word) (value : BitVec 32) (vgprs : Nat → BitVec 32) : Nat → BitVec 32 :=
  Function.update vgprs (vop1Vdst word) value

end CoralReef.Amd
