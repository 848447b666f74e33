import CoralReef.Codegen.Nv.Encoder
import CoralReef.Misc.Grouped

/-!
# Encoded shaders

`encode_sm20_shader` of `codegen/nv/sm20/mod.rs`, `encode_kepler_shader` of
`codegen/nv/sm30_instr_latencies.rs`, `encode_sm50_shader` of `codegen/nv/sm50/mod.rs` and
`encode_sm70_shader` of `codegen/nv/sm70_encode/mod.rs`: the offsets of the labels in one pass, and
in another the words, among them those of the schedule.
-/

namespace CoralReef

variable {w : Nat}

/-- What a word of a shader stands for. -/
inductive CodeItem where
  | sched
  /-- A `Nop` that fills a group up. -/
  | filling
  | instr (block index : Nat) (instr : CfInstr)
  deriving DecidableEq, Repr

/-- The instructions of a block. -/
def blockItems (block : CfBlock) (b : Nat) : List CodeItem :=
  block.instrs.zipIdx.map fun (instr, i) => .instr b i instr

/-- The instructions of all blocks. -/
def instrItems (blocks : List CfBlock) : List CodeItem :=
  blocks.zipIdx.flatMap fun (block, b) => blockItems block b

def fillingInstr : CfInstr := { op := .nop none }

/-- The word of an item that is the `k`th word of the shader, each `unit` long. -/
def encodeItem (unit : Nat) (encodeInstr : Nat → CfInstr → Except Fault (BitVec w))
    (sched : Nat → BitVec w) (k : Nat) : CodeItem → Except Fault (BitVec w)
  | .sched => .ok (sched k)
  | .filling => encodeInstr (k * unit) fillingInstr
  | .instr _ _ instr => encodeInstr (k * unit) instr

/-- The words of the items in order. -/
def encodeItems (encode : Nat → CodeItem → Except Fault (BitVec w)) (items : List CodeItem) :
    Except Fault (List (BitVec w)) :=
  items.foldlM (fun encoded item => do return encoded ++ [← encode encoded.length item]) []

/-- The labels of the blocks, where a block that is reached with a count adds to it. -/
def foldLabels (offset : Nat → Nat) (advance : CfBlock → Nat) (blocks : List CfBlock) : Labels :=
  (blocks.foldl
    (fun (ip, labels) block =>
      (ip + advance block, Function.update labels block.label (some (offset ip))))
    (0, fun _ => none)).2

/-! ## SM20 -/

def sm20Labels : List CfBlock → Labels :=
  foldLabels (fun ip => ip) fun block => block.instrs.length * 8

/-- `encode_sm20_shader`. -/
def encodeSm20Shader (others : OtherWords) (blocks : List CfBlock) :
    Except Fault (List (BitVec 64)) :=
  encodeItems (encodeItem 8 (Sm20Encoder.encodeInstr others (sm20Labels blocks)) others.sched)
    (instrItems blocks)

/-! ## Kepler -/

def keplerLabels : List CfBlock → Labels :=
  foldLabels (fun ip => (ip + (ip / 7 + 1)) * 8) fun block => block.instrs.length

def keplerItems (blocks : List CfBlock) : List CodeItem :=
  grouped 7 (fun _ => .sched) .filling (instrItems blocks)

/-- `encode_kepler_shader`, with the encoder of an instruction. -/
def encodeKeplerShader (encodeInstr : Labels → Nat → CfInstr → Except Fault (BitVec 64))
    (others : OtherWords) (blocks : List CfBlock) : Except Fault (List (BitVec 64)) :=
  encodeItems (encodeItem 8 (encodeInstr (keplerLabels blocks)) others.sched) (keplerItems blocks)

/-! ## SM50 -/

/-- `next_multiple_of`. -/
def nextMultipleOf (n factor : Nat) : Nat := (n + (factor - 1)) / factor * factor

def sm50Labels : List CfBlock → Labels :=
  foldLabels (fun instrCount => instrCount + 8) fun block =>
    let blockNumInstrs := nextMultipleOf block.instrs.length 3
    (blockNumInstrs + blockNumInstrs / 3) * 8

def sm50Items (blocks : List CfBlock) : List CodeItem :=
  blocks.zipIdx.flatMap fun (block, b) =>
    grouped 3 (fun _ => .sched) .filling (blockItems block b)

/-- `encode_sm50_shader`. -/
def encodeSm50Shader (others : OtherWords) (blocks : List CfBlock) :
    Except Fault (List (BitVec 64)) :=
  encodeItems (encodeItem 8 (Sm50Encoder.encodeInstr others (sm50Labels blocks)) others.sched)
    (sm50Items blocks)

/-! ## SM70 -/

/-- The label of a `Nop`, entered while the instructions are counted. -/
def nopLabel (entry : Nat × Labels) (instr : CfInstr) : Nat × Labels :=
  (entry.1 + 4,
    match instr.op with
    | .nop (some label) => Function.update entry.2 label (some entry.1)
    | _ => entry.2)

def sm70Labels (blocks : List CfBlock) : Labels :=
  (blocks.foldl
    (fun (ip, labels) block =>
      block.instrs.foldl nopLabel (ip, Function.update labels block.label (some ip)))
    (0, fun _ => none)).2

/-- `encode_sm70_shader`. -/
def encodeSm70Shader (others : OtherWords) (sm : Nat) (blocks : List CfBlock) :
    Except Fault (List (BitVec 128)) :=
  encodeItems (encodeItem 4 (Sm70Encoder.encodeInstr others sm (sm70Labels blocks)) fun _ => 0)
    (instrItems blocks)

/-! ## All targets -/

/-- The encoder families. -/
inductive NvTarget where
  | sm20
  /-- Kepler with the instructions of `ShaderModel20`. -/
  | sm30
  | sm32
  | sm50
  | sm70 (sm : Nat)
  deriving DecidableEq, Repr

namespace NvTarget

/-- The bits of a word. -/
abbrev width : NvTarget → Nat
  | .sm20 | .sm30 | .sm32 | .sm50 => 64
  | .sm70 _ => 128

/-- The length of a word in the units of offsets: bytes, or words of 32 bits from SM70 on. -/
def unit : NvTarget → Nat
  | .sm20 | .sm30 | .sm32 | .sm50 => 8
  | .sm70 _ => 4

/-- The offsets of the labels. -/
def labels : NvTarget → List CfBlock → Labels
  | .sm20 => sm20Labels
  | .sm30 | .sm32 => keplerLabels
  | .sm50 => sm50Labels
  | .sm70 _ => sm70Labels

/-- What the words stand for. -/
def items : NvTarget → List CfBlock → List CodeItem
  | .sm20 | .sm70 _ => instrItems
  | .sm30 | .sm32 => keplerItems
  | .sm50 => sm50Items

/-- The word of an instruction. -/
def encodeInstr (others : OtherWords) (labels : Labels) (ip : Nat) (instr : CfInstr) :
    (target : NvTarget) → Except Fault (BitVec target.width)
  | .sm20 | .sm30 => Sm20Encoder.encodeInstr others labels ip instr
  | .sm32 => Sm32Encoder.encodeInstr others labels ip instr
  | .sm50 => Sm50Encoder.encodeInstr others labels ip instr
  | .sm70 sm => Sm70Encoder.encodeInstr others sm labels ip instr

/-- The shader of a target. -/
def encodeShader (others : OtherWords) (blocks : List CfBlock) :
    (target : NvTarget) → Except Fault (List (BitVec target.width))
  | .sm20 => encodeSm20Shader others blocks
  | .sm30 => encodeKeplerShader (Sm20Encoder.encodeInstr others) others blocks
  | .sm32 => encodeKeplerShader (Sm32Encoder.encodeInstr others) others blocks
  | .sm50 => encodeSm50Shader others blocks
  | .sm70 sm => encodeSm70Shader others sm blocks

end NvTarget

/-!
## Encoded branches

What a branch word does: the guard and the condition that it reads, and where it leads from its
own position.
-/

open BitFields

/-- The predicate registers; the last one of either file always holds. -/
structure PredRegs where
  vals : RegFile → Nat → Bool
  pt : vals .pred 7 = true
  upt : vals .upred 7 = true

/-- A guard holds. -/
def Pred.holdsIn (pred : Pred) (regs : PredRegs) : Bool :=
  match pred.predicate with
  | .reg reg => regs.vals reg.file reg.baseIdx ^^ pred.inverted
  | .none | .ssa _ => !pred.inverted

/-- The number of a guard's register, read in the file of the guards. -/
def Pred.holdsAsPred (pred : Pred) (regs : PredRegs) : Bool :=
  match pred.predicate with
  | .reg reg => regs.vals .pred reg.baseIdx ^^ pred.inverted
  | .none | .ssa _ => !pred.inverted

/-- The condition of a branch holds. -/
def Src.holdsIn (cond : Src) (regs : PredRegs) : Bool :=
  match cond.reference with
  | .boolFalse => decide (cond.modifier = .bNot)
  | .reg reg => regs.vals reg.file reg.baseIdx ^^ decide (cond.modifier = .bNot)
  | _ => !decide (cond.modifier = .bNot)

section

variable {w : Nat}

/-- A predicate operand of a word. -/
def readPred (regs : PredRegs) (file : RegFile) (word : BitVec w) (offset notBit : Nat) : Bool :=
  regs.vals file (getField word offset 3) ^^ decide (getField word notBit 1 = 1)

/-- A number of a word in two's complement. -/
def signedField (word : BitVec w) (offset width : Nat) : Int :=
  Int.bmod (getField word offset width) (2 ^ width)

end

namespace NvTarget

/-- A branch word is taken. -/
def takes (regs : PredRegs) : (target : NvTarget) → BitVec target.width → Bool
  | .sm20, word | .sm30, word =>
      readPred regs .pred (w := 64) word 10 13 && decide (getField (w := 64) word 5 4 = 0xf)
  | .sm32, word =>
      readPred regs .pred (w := 64) word 18 21 && decide (getField (w := 64) word 2 4 = 0xf)
  | .sm50, word =>
      readPred regs .pred (w := 64) word 16 19 && decide (getField (w := 64) word 0 5 = 0xf)
  | .sm70 _, word =>
      readPred regs .pred (w := 128) word 12 15 && readPred regs .pred (w := 128) word 87 90 &&
        (getField (w := 128) word 32 1 = 0 || readPred regs .upred (w := 128) word 24 27)

/-- The relative offset of a word with a target. -/
def offsetField : (target : NvTarget) → BitVec target.width → Int
  | .sm20, word | .sm30, word => signedField (w := 64) word 26 24
  | .sm32, word => signedField (w := 64) word 23 24
  | .sm50, word => signedField (w := 64) word 20 24
  | .sm70 sm, word =>
      if getField (w := 128) word 0 12 = 0x945 then signedField (w := 128) word 34 30
      else if 100 ≤ sm then
        Int.bmod (getField (w := 128) word 16 8 + 2 ^ 8 * getField (w := 128) word 34 48) (2 ^ 56)
      else signedField (w := 128) word 34 48

/-- Where the `k`th word of a shader leads. -/
def destination (target : NvTarget) (k : Nat) (word : BitVec target.width) : Int :=
  (k + 1) * target.unit + target.offsetField word

/-- The bits of the relative offset of an op. -/
def offsetBits : NvTarget → CfOp → Nat
  | .sm20, _ | .sm30, _ | .sm32, _ | .sm50, _ => 24
  | .sm70 _, .bssy _ _ _ _ => 30
  | .sm70 sm, _ => if 100 ≤ sm then 56 else 48

end NvTarget

end CoralReef
