import CoralReef.Codegen.Amd.Ops

/-!
# The AMD shader model

`amd/shader_model.rs` from `encode_rdna2_shader` on: the sizes that instructions are taken to have,
the pass that gives each label its offset by them, and the pass that emits the words.
-/

namespace CoralReef.Amd

/-- `is_inline_constant`. -/
def isInlineConstant (val : Nat) : Bool := val ≤ 64 ∨ 0xFFFFFFF0 ≤ val

/-- `src_needs_materialization`. -/
def srcNeedsMaterialization (src : Src) : Bool :=
  match src.reference with
  | .imm32 val => !isInlineConstant val
  | _ => false

/-- `src_is_vgpr`. -/
def srcIsVgpr (src : Src) : Bool :=
  match src.reference with
  | .reg reg => reg.file = .gpr
  | .zero => true
  | _ => false

/-- `literal_materialization_overhead`. -/
def literalMaterializationOverhead (srcs : List Src) : Nat :=
  ((srcs.filter srcNeedsMaterialization).take 2).length * 2

/-- The size taken for a VOP2 or VOPC instruction. -/
def estimateTwoSrcs (src0 src1 : Src) : Nat :=
  1 + if srcIsVgpr src0 || srcIsVgpr src1 then 0 else literalMaterializationOverhead [src0, src1]

/-- The size taken for an instruction of which one source may have to be moved. -/
def estimateOneSrc (src : Src) : Nat := 1 + if srcNeedsMaterialization src then 2 else 0

/-- `estimate_instr_size`. -/
def estimateInstrSize : Op → Nat
  | .dAdd _ srcs | .dMul _ srcs | .dMnMx _ srcs _ | .dSetP _ _ _ srcs _ =>
    2 + literalMaterializationOverhead [srcs 0, srcs 1]
  | .dFma _ srcs | .fFma _ srcs | .iMad _ srcs _ =>
    2 + literalMaterializationOverhead [srcs 0, srcs 1, srcs 2]
  | .lop3 op => 2 + literalMaterializationOverhead [op.srcs 0, op.srcs 1, op.srcs 2]
  | .f64Sqrt _ src | .f64Rcp _ src => 2 + literalMaterializationOverhead [src]
  | .f64Exp2 _ src | .f64Log2 _ src | .f64Sin _ src | .f64Cos _ src =>
    3 + literalMaterializationOverhead [src]
  | .fAdd _ srcs | .fMul _ srcs | .fMnMx _ srcs _ | .iMnMx _ _ srcs _ | .lop2 _ srcs _
  | .fSetP _ _ _ srcs _ => estimateTwoSrcs (srcs 0) (srcs 1)
  | .iAdd3 op => estimateTwoSrcs (op.srcs 0) (op.srcs 1)
  | .iSetP op => estimateTwoSrcs (op.srcs 0) (op.srcs 1)
  | .mov _ _ => 1
  | .pLop3 _ => 1
  | .bra _ _ | .exit | .nop _ | .bar => 1
  | .ld _ _ _ _ => 3
  | .st _ _ _ _ | .atom _ => 2
  | .noCode _ | .copy _ _ => 0
  | .shl _ _ shift _ | .shr _ _ shift _ _ => estimateOneSrc shift
  | .shf _ low high shift _ _ _ _ => 2 + literalMaterializationOverhead [high, low, shift]
  | .sel op => estimateOneSrc (op.srcs 0)
  | .popC _ src | .fRnd _ src _ _ _ | .f2F _ src _ _ | .f2I _ src | .i2F _ src _ _ | .i2I _ src =>
    estimateOneSrc src
  | .bfe _ base range _ _ => 2 + literalMaterializationOverhead [base, range]
  | .bMsk _ pos width _ => 2 + literalMaterializationOverhead [pos, width]
  | .ldc _ _ _ | .memBar _ | .transcendental _ _ _ | .bRev _ _ | .flo _ _ _ _ | .s2R _ _
  | .cS2R _ _ | .other _ _ => 1

structure Instr where
  pred : Pred := {}
  op : Op

structure Block where
  label : Label
  instrs : List Instr

/-- A shader: the blocks of its functions, and the registers that were allocated. -/
structure Shader where
  functions : List (List Block)
  gprCount : Nat

/-- `TID_SAVE_VGPRS`. -/
def tidSaveVgprs : Nat := 3

/-- The SGPRs that a source names through a constant buffer. -/
def cbufSgpr (src : Src) : Option Nat :=
  match src.reference with
  | .cbuf ⟨.binding _, offset⟩ => some (offset / 4)
  | _ => none

/-- `compute_user_sgpr_count`. -/
def computeUserSgprCount (s : Shader) : Nat :=
  let srcs := s.functions.flatten.flatMap fun b => b.instrs.flatMap fun instr => instr.op.srcs
  let maxSgpr := (srcs.filterMap cbufSgpr).max?
  (maxSgpr.map (· + 1)).getD 0 + 6

/-- The labels inside a block with their offsets, which only `Nop` has. -/
def labelsOfInstrs : List Instr → Nat → List (Label × Nat)
  | [], _ => []
  | instr :: rest, ip =>
    let here := match instr.op with
      | .nop (some label) => [(label, ip)]
      | _ => []
    here ++ labelsOfInstrs rest (ip + estimateInstrSize instr.op)

/-- The size taken for a block. -/
def estimateBlockSize (b : Block) : Nat :=
  (b.instrs.map fun instr => estimateInstrSize instr.op).sum

/-- The labels with their offsets, in the order in which they are inserted. -/
def labelsOfBlocks : List Block → Nat → List (Label × Nat)
  | [], _ => []
  | b :: rest, ip =>
    (b.label, ip) :: labelsOfInstrs b.instrs ip ++ labelsOfBlocks rest (ip + estimateBlockSize b)

/-- Inserting in this order leaves the last offset of a label. -/
def labelMap (inserted : List (Label × Nat)) (label : Label) : Option Nat :=
  inserted.reverse.lookup label

/-- The words that save the thread ids. -/
def tidSavePrologue (tidSaveBase : Nat) : List Word :=
  (List.range tidSaveVgprs).flatMap fun i =>
    (encodeVop1 Isa.vMovB32 (.vgpr (tidSaveBase + i)) (256 + i)).map Emitted.word

/-- The encoder that the instructions of a shader's first function are emitted with. -/
def shaderEncoder (gfxVersion : Nat) (s : Shader) (blocks : List Block) : AmdOpEncoder :=
  let tidSaveBase := s.gprCount
  let scratchVgpr0 := tidSaveBase + tidSaveVgprs
  let scratchVgpr1 := scratchVgpr0 + 1
  let labels := labelMap (labelsOfBlocks blocks 3)
  { labels, scratchVgpr0, scratchVgpr1, tidSaveBase
    gfxMajor := gfxVersion / 10, userSgprCount := computeUserSgprCount s }

/-- One step of the emitting pass: the instruction is encoded for the place it comes to. -/
def encodeInstr (e : AmdOpEncoder) (encoded : List Word) (instr : Instr) :
    Except Fault (List Word) := do
  let words ← encodeAmdOp instr.op { e with ip := encoded.length }
  return encoded ++ words

def encodeBlock (e : AmdOpEncoder) (encoded : List Word) (b : Block) : Except Fault (List Word) :=
  b.instrs.foldlM (encodeInstr e) encoded

/-- `ends_with_endpgm`. -/
def endsWithEndpgm (words : List Word) : Bool := words.getLast? = some 0xBF810000

/-- The end of the words: everything in flight is waited for before the program ends. -/
def finish (encoded : List Word) : List Word :=
  let waitcnt := (encodeSWaitcnt 0 0 0).map Emitted.word
  if !endsWithEndpgm encoded then encoded ++ waitcnt ++ encodeSEndpgm.map Emitted.word
  else
    let n := encoded.length
    if n < 2 || encoded[n - 2]? != some 0xBF8C0000 then
      encoded.dropLast ++ waitcnt ++ [0xBF810000]
    else encoded

/-- `encode_rdna2_shader`. -/
def encodeRdna2Shader (gfxVersion : Nat) (s : Shader) : Except Fault (List Word) :=
  match s.functions with
  | [] => .error (.compileError "empty shader")
  | blocks :: _ => do
    let e := shaderEncoder gfxVersion s blocks
    let encoded ← blocks.foldlM (encodeBlock e) (tidSavePrologue e.tidSaveBase)
    return finish encoded

end CoralReef.Amd
