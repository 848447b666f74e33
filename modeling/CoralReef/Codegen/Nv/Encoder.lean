import CoralReef.Codegen.CalcInstrDeps
import CoralReef.Misc.BitFields

/-!
# Encoders of control flow

The control flow instructions of `codegen/nv/sm20/control.rs`, `sm32/control.rs`,
`sm50/control.rs` and `sm70_encode/control.rs`, and the parts of the encoders that they use. The
word of any other instruction is a parameter, up to its guard.
-/

namespace CoralReef

open BitFields

/-- `InstrDeps` with the fields that scheduling fills in last. -/
structure EncodedDeps extends InstrDeps where
  delay : Nat := 0
  reuseMask : Nat := 0
  deriving DecidableEq, Repr

/-- The instructions that push a target for `Sync`, `Brk` and `Cont`. -/
inductive PushKind where
  | ssy | pbk | pcnt
  deriving DecidableEq, Repr

/-- The ops with a target or a label, and the others. -/
inductive CfOp where
  | bra (target : Label) (cond : Src)
  | push (kind : PushKind) (target : Label)
  | bssy (barOut : Dst) (barIn cond : Src) (target : Label)
  | nop (label : Option Label)
  | other (op : OpOther)
  deriving DecidableEq, Repr

/-- The label that an op leads to. -/
def CfOp.target : CfOp → Option Label
  | .bra target _ | .push _ target | .bssy _ _ _ target => some target
  | .nop _ | .other _ => none

structure CfInstr where
  pred : Pred := {}
  op : CfOp
  deps : EncodedDeps := {}
  deriving DecidableEq, Repr

structure CfBlock where
  label : Label
  instrs : List CfInstr := []
  deriving DecidableEq, Repr

/-- The map from labels to offsets. -/
abbrev Labels := Label → Option Nat

/-- The words of the instructions that are not modelled, before their guard is set, and those
of the schedule. -/
structure OtherWords where
  short : OpOther → Except Fault (BitVec 64)
  long : OpOther → Except Fault (BitVec 128)
  sched : Nat → BitVec 64

/-! ## Fields -/

variable {w : Nat}

/-- `set_bit`. -/
def setBit (word : BitVec w) (bit : Nat) (value : Bool) : BitVec w :=
  setField word bit 1 value.toNat

/-- `set_field` with a signed value of so many bits. -/
def setSigned (bits : Nat) (word : BitVec w) (offset width : Nat) (value : Int) : BitVec w :=
  setField word offset width (value % 2 ^ bits).toNat

/-- `set_field2` with an `i64`. -/
def setSigned2 (word : BitVec w) (offset₁ width₁ offset₂ width₂ : Nat) (value : Int) : BitVec w :=
  let bits := (value % 2 ^ 64).toNat
  setField (setField word offset₁ width₁ (bits % 2 ^ width₁)) offset₂ width₂ (bits / 2 ^ width₁)

/-- `true_reg`. -/
def trueReg (file : RegFile) : RegRef := ⟨file, 7, 1, RegRef.seven_le, RegRef.single⟩

/-- `set_pred_reg`, which checks the file on the targets before SM70. -/
def setPredReg (checked : Bool) (word : BitVec w) (offset : Nat) (reg : RegRef) :
    Except Fault (BitVec w) := do
  assertThat (!checked || reg.file = .pred) "reg.file() == RegFile::Pred"
  assertThat (reg.baseIdx ≤ 7) "reg.base_idx() <= 7"
  assertThat (reg.comps = 1) "reg.comps() == 1"
  return setField word offset 3 reg.baseIdx

/-- `set_pred`: the guard in three bits, and whether it is inverted behind them. -/
def setPred (checked : Bool) (word : BitVec w) (offset : Nat) (pred : Pred) :
    Except Fault (BitVec w) := do
  assertThat (!pred.isFalse) "!pred.is_false()"
  let reg ← match pred.predicate with
    | .none => .ok (trueReg .pred)
    | .reg reg => .ok reg
    | .ssa _ => .error (.panic "SSA values must be lowered")
  let word ← setPredReg checked word offset reg
  return setBit word (offset + 3) pred.inverted

/-- The offset of a branch at a byte offset, in `set_rel_offset` before SM70. -/
def relOffset (labels : Labels) (ip : Nat) (label : Label) : Except Fault Int := do
  assertThat (ip < 2 ^ 31) "instruction pointer overflow"
  let targetIp ← expect (labels label) "label must exist in well-formed IR"
  assertThat (targetIp < 2 ^ 31) "target instruction pointer overflow"
  return (targetIp : Int) - ip - 8

/-! ## SM20 -/

namespace Sm20Encoder

/-- `set_opcode`. -/
def setOpcode (word : BitVec 64) (unit opcode : Nat) : BitVec 64 :=
  setField (setField word 0 3 unit) 58 6 opcode

def execUnit : Nat := 7

def moveUnit : Nat := 4

/-- The opcodes of `SSY`, `PBK` and `PCNT`. -/
def pushOpcode : PushKind → Nat
  | .ssy => 0x18
  | .pbk => 0x1a
  | .pcnt => 0x1c

/-- `SM20Op::encode`. -/
def encodeOp (others : OtherWords) (labels : Labels) (ip : Nat) :
    CfOp → Except Fault (BitVec 64)
  | .bra target _ => do
      let word := setOpcode 0 execUnit 0x10
      let word := setField word 5 4 0xf
      let word := setBit word 15 false
      let word := setBit word 16 false
      return setSigned 32 word 26 24 (← relOffset labels ip target)
  | .push kind target => do
      return setSigned 32 (setOpcode 0 execUnit (pushOpcode kind)) 26 24
        (← relOffset labels ip target)
  | .nop _ => .ok (setField (setOpcode 0 moveUnit 0x10) 5 4 0xf)
  | .bssy _ _ _ _ => .error (.panic "Unhandled instruction")
  | .other op => others.short op

/-- The word of an instruction. -/
def encodeInstr (others : OtherWords) (labels : Labels) (ip : Nat) (instr : CfInstr) :
    Except Fault (BitVec 64) := do
  let word ← encodeOp others labels ip instr.op
  setPred true word 10 instr.pred

end Sm20Encoder

/-! ## SM32 -/

namespace Sm32Encoder

/-- `set_opcode`. -/
def setOpcode (word : BitVec 64) (opcode functionalUnit : Nat) : BitVec 64 :=
  setField (setField word 52 12 opcode) 0 2 functionalUnit

def pushOpcode : PushKind → Nat
  | .ssy => 0x148
  | .pbk => 0x150
  | .pcnt => 0x158

/-- `SM32Encoder::set_rel_offset`. -/
def setRelOffset (labels : Labels) (ip : Nat) (word : BitVec 64) (target : Label) :
    Except Fault (BitVec 64) := do
  assertThat (ip % 8 = 0) "self.ip % 8 == 0"
  let offset ← relOffset labels ip target
  assertThat ((labels target).getD 0 % 8 = 0) "target_ip % 8 == 0"
  assertThat (offset % 8 = 0) "rel_offset % 8 == 0"
  return setSigned 32 word 23 24 offset

/-- `SM32Op::encode`. -/
def encodeOp (others : OtherWords) (labels : Labels) (ip : Nat) :
    CfOp → Except Fault (BitVec 64)
  | .bra target _ => do
      let word := setOpcode 0 0x120 0
      let word := setField word 2 4 0xf
      setRelOffset labels ip word target
  | .push kind target => do
      let word := setOpcode 0 (pushOpcode kind) 0
      let word := setField word 2 6 0xf
      setRelOffset labels ip word target
  | .nop _ => .ok (setField (setOpcode 0 0x858 2) 10 4 0xf)
  | .bssy _ _ _ _ => .error (.panic "Unhandled instruction")
  | .other op => others.short op

/-- The word of an instruction. -/
def encodeInstr (others : OtherWords) (labels : Labels) (ip : Nat) (instr : CfInstr) :
    Except Fault (BitVec 64) := do
  let word ← encodeOp others labels ip instr.op
  setPred true word 18 instr.pred

end Sm32Encoder

/-! ## SM50 -/

namespace Sm50Encoder

/-- `set_opcode`. -/
def setOpcode (word : BitVec 64) (opcode : Nat) : BitVec 64 := setField word 48 16 opcode

def pushOpcode : PushKind → Nat
  | .ssy => 0xe290
  | .pbk => 0xe2a0
  | .pcnt => 0xe2b0

/-- `PRED_TRUE`, the condition code that always holds. -/
def predTrue : Nat := 0xf

/-- `SM50Op::encode`. -/
def encodeOp (others : OtherWords) (labels : Labels) (ip : Nat) :
    CfOp → Except Fault (BitVec 64)
  | .bra target _ => do
      let word := setOpcode 0 0xe240
      let word := setSigned 32 word 20 24 (← relOffset labels ip target)
      return setField word 0 5 predTrue
  | .push kind target => do
      let word := setOpcode 0 (pushOpcode kind)
      let word := setSigned 32 word 20 24 (← relOffset labels ip target)
      return setField word 0 5 predTrue
  | .nop _ => .ok (setField (setOpcode 0 0x50b0) 8 4 0xf)
  | .bssy _ _ _ _ => .error (.panic "Unhandled instruction")
  | .other op => others.short op

/-- The word of an instruction; its dependencies go to the schedule. -/
def encodeInstr (others : OtherWords) (labels : Labels) (ip : Nat) (instr : CfInstr) :
    Except Fault (BitVec 64) := do
  let word ← encodeOp others labels ip instr.op
  setPred true word 16 instr.pred

end Sm50Encoder

/-! ## SM70 -/

namespace Sm70Encoder

/-- `set_opcode`. -/
def setOpcode (word : BitVec 128) (opcode : Nat) : BitVec 128 := setField word 0 12 opcode

/-- `get_rel_offset`, in words of 32 bits. -/
def getRelOffset (labels : Labels) (ip : Nat) (label : Label) : Except Fault Int := do
  assertThat (ip < 2 ^ 63) "instruction pointer fits in i64"
  let targetIp ← expect (labels label) "label must exist in well-formed IR"
  assertThat (targetIp < 2 ^ 63) "target IP fits in i64"
  return (targetIp : Int) - ip - 4

/-- `src_mod_is_bnot`. -/
def srcModIsBnot : SrcMod → Except Fault Bool
  | .none => .ok false
  | .bNot => .ok true
  | _ => .error (.panic "Not an predicate source modifier")

/-- `set_pred_src_file`. -/
def setPredSrcFile (word : BitVec 128) (offset notBit : Nat) (src : Src) (file : RegFile) :
    Except Fault (BitVec 128) := do
  let (not, reg) ← match src.reference with
    | .boolTrue => .ok (false, trueReg file)
    | .boolFalse => .ok (true, trueReg file)
    | .reg reg => (assertThat (reg.file = file) "reg.file() == file").map fun _ => (false, reg)
    | _ => .error (.panic "SSA values must be lowered to registers before encoding")
  let word ← setPredReg false word offset reg
  return setBit word notBit (not ^^ (← srcModIsBnot src.modifier))

/-- `is_upred_reg`. -/
def isUpredReg (src : Src) : Bool :=
  match src.reference with
  | .ssa vec => vec.head?.map SSAValue.file = some .upred
  | .reg reg => reg.file = .upred
  | _ => false

/-- `set_bar_dst`. -/
def setBarDst (word : BitVec 128) (offset : Nat) (dst : Dst) : Except Fault (BitVec 128) := do
  let reg ← expect dst.asReg "barrier dst must be register"
  assertThat (reg.file = .bar) "reg.file() == RegFile::Bar"
  assertThat (reg.comps = 1) "reg.comps() == 1"
  return setField word offset 4 reg.baseIdx

/-- The opcode and the condition of a branch. -/
def encodeBraCond (sm : Nat) (cond : Src) : Except Fault (BitVec 128) :=
  if isUpredReg cond then do
    assertThat (80 ≤ sm) "e.sm >= 80"
    let word ← setPredSrcFile (setOpcode 0 0x547) 24 27 cond .upred
    let word := setBit word 32 true
    let word := setField word 87 3 7
    return setBit word 91 true
  else setPredSrcFile (setBit (setOpcode 0 0x947) 32 false) 87 90 cond .pred

/-- The offset of a branch, which is split on SM100. -/
def setBraOffset (sm : Nat) (word : BitVec 128) (offset : Int) : BitVec 128 :=
  if 100 ≤ sm then setSigned2 word 16 8 34 48 offset else setSigned 64 word 34 48 offset

/-- `SM70Op::encode`. -/
def encodeOp (others : OtherWords) (sm : Nat) (labels : Labels) (ip : Nat) :
    CfOp → Except Fault (BitVec 128)
  | .bra target cond => do
      let word ← encodeBraCond sm cond
      return setBraOffset sm word (← getRelOffset labels ip target)
  | .bssy barOut barIn cond target => do
      let word := setOpcode 0 0x945
      assertThat (barIn.reference.asReg = barOut.asReg)
        "self.bar_in().reference.as_reg() == self.bar_out.as_reg()"
      let word ← setBarDst word 16 barOut
      let word := setSigned 64 word 34 30 (← getRelOffset labels ip target)
      setPredSrcFile word 87 90 cond .pred
  | .nop _ => .ok (setOpcode 0 0x918)
  | .push _ _ => .error (.panic "Unhandled instruction")
  | .other op => others.long op

/-- `set_instr_deps`. -/
def setInstrDeps (sm : Nat) (word : BitVec 128) (deps : EncodedDeps) : BitVec 128 :=
  let word := setField word 105 4 deps.delay
  let word := setField word 110 3 (deps.wrBar.getD 7)
  let word := setField word 113 3 (deps.rdBar.getD 7)
  let word := setField word 116 6 deps.wtBarMask
  if sm < 120 then setField (setBit word 109 deps.yld) 122 4 deps.reuseMask else word

/-- The word of an instruction. -/
def encodeInstr (others : OtherWords) (sm : Nat) (labels : Labels) (ip : Nat) (instr : CfInstr) :
    Except Fault (BitVec 128) := do
  let word ← encodeOp others sm labels ip instr.op
  let word ← setPred false word 12 instr.pred
  return setInstrDeps sm word instr.deps

end Sm70Encoder

end CoralReef
