import CoralReef.Codegen.Builder
import CoralReef.Misc.BitFields
import CoralReef.Misc.FixedWidth

/-!
# Foldable ops

`codegen/ir/fold.rs` and the implementations of `Foldable` in `ir/op_int`, `ir/op_shuffle.rs`,
`ir/op_tex` and `ir/op_float`, with what makes them abort: an operand of another kind, an assertion,
and in a debug build arithmetic that overflows and a shift by the width or more, which wrap around
in a release build. The operands of an op are numbered as in its array of sources.
-/

namespace CoralReef

open FixedWidth

inductive FoldData where
  | pred (b : Bool)
  | carry (b : Bool)
  | u32 (u : BitVec 32)
  | vec2 (lo hi : BitVec 32)
  deriving DecidableEq

structure OpFoldData where
  dsts : List FoldData
  srcs : List FoldData

namespace OpFoldData

variable (f : OpFoldData)

/-- `self.srcs[i]`. -/
def data (i : Nat) : Except Fault FoldData := expect f.srcs[i]? "index out of bounds"

/-- The predicate of `get_pred_src` before its modifier. -/
def predOf (i : Nat) (src : Src) : Except Fault Bool :=
  match src.reference with
  | .zero | .imm32 _ => .error (.panic "Expected a predicate")
  | .boolTrue => .ok true
  | .boolFalse => .ok false
  | _ => do
    match ← f.data i with
    | .pred b => return b
    | _ => .error (.panic "FoldData is not a predicate")

def getPredSrc (i : Nat) (src : Src) : Except Fault Bool := do
  let b ← f.predOf i src
  let negated ← src.modifier.isBNot
  return b ^^ negated

def getU32Src (i : Nat) (src : Src) : Except Fault (BitVec 32) :=
  match src.reference with
  | .zero => .ok 0
  | .imm32 imm => .ok (BitVec.ofNat 32 imm)
  | .boolTrue | .boolFalse => .error (.panic "Unexpected predicate")
  | _ => do
    match ← f.data i with
    | .u32 u => return u
    | _ => .error (.panic "FoldData is not a U32")

def getU32BnotSrc (i : Nat) (src : Src) : Except Fault (BitVec 32) := do
  let x ← f.getU32Src i src
  let negated ← src.modifier.isBNot
  return if negated then ~~~x else x

def getCarrySrc (i : Nat) (src : Src) : Except Fault Bool :=
  match src.reference with
  | .ssa _ => do
    match ← f.data i with
    | .carry b => return b
    | _ => .error (.panic "FoldData is not a predicate")
  | _ => .error (.panic "src.reference.as_ssa().is_some()")

/-- `get_f64_src`: the bits of a double. -/
def getF64Src (i : Nat) (src : Src) : Except Fault (BitVec 64) :=
  match src.reference with
  | .zero => .ok 0
  | .imm32 imm => .ok (BitVec.ofNat 32 imm ++ (0 : BitVec 32))
  | .boolTrue | .boolFalse => .error (.panic "Unexpected predicate")
  | _ => do
    match ← f.data i with
    | .vec2 lo hi => return hi ++ lo
    | _ => .error (.panic "FoldData is not a U32")

/-- `self.dsts[i] = data`, of `set_pred_dst`, `set_carry_dst` and `set_u32_dst`. -/
def setDst (i : Nat) (data : FoldData) : Except Fault OpFoldData :=
  if i < f.dsts.length then .ok { f with dsts := f.dsts.set i data }
  else .error (.panic "index out of bounds")

/-- The results of an op, written one after the other. -/
def setDsts (results : List FoldData) : Except Fault OpFoldData :=
  results.zipIdx.foldlM (fun f (data, i) => f.setDst i data) f

end OpFoldData

/-! ## Arithmetic -/

namespace Checked

variable {w : Nat} (debug : Bool)

/-- A shift by an amount that has to be below the width. -/
def shift (op : BitVec w → Nat → BitVec w) (x : BitVec w) (amount : Nat) (message : String) :
    Except Fault (BitVec w) :=
  if amount < w then .ok (op x amount)
  else if debug then .error (.panic message)
  else .ok (op x (amount % w))

def shl (x : BitVec w) (amount : Nat) : Except Fault (BitVec w) :=
  shift debug BitVec.shiftLeft x amount "attempt to shift left with overflow"

def shr (x : BitVec w) (amount : Nat) : Except Fault (BitVec w) :=
  shift debug BitVec.ushiftRight x amount "attempt to shift right with overflow"

/-- A shift of a signed type. -/
def sshr (x : BitVec w) (amount : Nat) : Except Fault (BitVec w) :=
  shift debug BitVec.sshiftRight x amount "attempt to shift right with overflow"

/-- A result of a signed type of `w + 1` bits. -/
def signed (w : Nat) (exactly : Int) (message : String) : Except Fault Int :=
  if -2 ^ w ≤ exactly ∧ exactly < 2 ^ w then .ok exactly
  else if debug then .error (.panic message)
  else .ok (exactly.bmod (2 ^ (w + 1)))

def addI64 (a b : Int) : Except Fault Int :=
  signed debug 63 (a + b) "attempt to add with overflow"

def mulI64 (a b : Int) : Except Fault Int :=
  signed debug 63 (a * b) "attempt to multiply with overflow"

def subI32 (a b : Int) : Except Fault Int :=
  signed debug 31 (a - b) "attempt to subtract with overflow"

def negI32 (a : Int) : Except Fault Int := signed debug 31 (-a) "attempt to negate with overflow"

end Checked

open Checked

/-! ## Integers -/

structure OpIAbs where
  dst : Dst
  src : Src

namespace Foldable

def iAbs (op : OpIAbs) (f : OpFoldData) : Except Fault OpFoldData := do
  let src ← f.getU32Src 0 op.src
  f.setDsts [.u32 src.abs]

/-- What an operand adds to the sum: two's complement, very literally. -/
def addend (debug : Bool) (src : Src) (x : BitVec 32) : Except Fault Nat := do
  let negated ← src.modifier.isINeg
  if negated then add 64 debug (~~~x).toNat 1 else return x.toNat

/-- The loop over the operands. -/
def sumOf (debug : Bool) (operands : List (Src × BitVec 32)) : Except Fault Nat :=
  operands.foldlM (fun sum (src, x) => do
    let term ← addend debug src x
    add 64 debug sum term) 0

/-- The loop over plain terms. -/
def sumOfNats (debug : Bool) (terms : List Nat) : Except Fault Nat :=
  terms.foldlM (add 64 debug) 0

def iAdd2 (debug : Bool) (op : OpIAdd2) (f : OpFoldData) : Except Fault OpFoldData := do
  let x ← f.getU32Src 0 (op.srcs 0)
  let y ← f.getU32Src 1 (op.srcs 1)
  let sum ← sumOf debug [(op.srcs 0, x), (op.srcs 1, y)]
  f.setDsts [.u32 (BitVec.ofNat 32 sum), .carry (2 ^ 32 ≤ sum)]

def iAdd2X (debug : Bool) (op : OpIAdd2X) (f : OpFoldData) : Except Fault OpFoldData := do
  let x ← f.getU32BnotSrc 0 (op.srcs 0)
  let y ← f.getU32BnotSrc 1 (op.srcs 1)
  let carryIn ← f.getCarrySrc 2 (op.srcs 2)
  let sum ← sumOfNats debug [x.toNat, y.toNat, carryIn.toNat]
  f.setDsts [.u32 (BitVec.ofNat 32 sum), .carry (2 ^ 32 ≤ sum)]

def iAdd3 (debug : Bool) (op : OpIAdd3) (f : OpFoldData) : Except Fault OpFoldData := do
  let x ← f.getU32Src 0 (op.srcs 0)
  let y ← f.getU32Src 1 (op.srcs 1)
  let z ← f.getU32Src 2 (op.srcs 2)
  let sum ← sumOf debug [(op.srcs 0, x), (op.srcs 1, y), (op.srcs 2, z)]
  f.setDsts [.u32 (BitVec.ofNat 32 sum), .pred (2 ^ 32 ≤ sum), .pred (2 * 2 ^ 32 ≤ sum)]

def iAdd3X (debug : Bool) (op : OpIAdd3X) (f : OpFoldData) : Except Fault OpFoldData := do
  let x ← f.getU32BnotSrc 0 (op.srcs 0)
  let y ← f.getU32BnotSrc 1 (op.srcs 1)
  let z ← f.getU32BnotSrc 2 (op.srcs 2)
  let carry0 ← f.getPredSrc 3 (op.srcs 3)
  let carry1 ← f.getPredSrc 4 (op.srcs 4)
  let sum ← sumOfNats debug [x.toNat, y.toNat, z.toNat, carry0.toNat, carry1.toNat]
  f.setDsts [.u32 (BitVec.ofNat 32 sum), .pred (2 ^ 32 ≤ sum), .pred (2 * 2 ^ 32 ≤ sum)]

end Foldable

structure OpIMnMx where
  dst : Dst
  cmpType : IntCmpType
  srcs : Fin 3 → Src

namespace Foldable

def iMnMx (op : OpIMnMx) (f : OpFoldData) : Except Fault OpFoldData := do
  let a ← f.getU32BnotSrc 0 (op.srcs 0)
  let b ← f.getU32BnotSrc 1 (op.srcs 1)
  let min ← f.getPredSrc 2 (op.srcs 2)
  let less := if op.cmpType.isSigned then a.slt b else a.ult b
  f.setDsts [.u32 (if min then if less then a else b else if less then b else a)]

def iSetP (sm : Nat) (op : OpISetP) (f : OpFoldData) : Except Fault OpFoldData := do
  let x ← f.getU32Src 0 (op.srcs 0)
  let y ← f.getU32Src 1 (op.srcs 1)
  let accum ← f.getPredSrc 2 (op.srcs 2)
  let lowCmp ← f.getPredSrc 3 (op.srcs 3)
  let constant := op.cmpOp = .false ∨ op.cmpOp = .true
  if op.ex ∧ x = y ∧ ¬ constant then
    -- the accumulator that `isetp.x` takes into account before Volta is not supported
    assertThat (70 ≤ sm) "sm.sm() >= 70"
    f.setDsts [.pred (op.setOp.eval lowCmp accum)]
  else f.setDsts [.pred (op.setOp.eval (op.cmpOp.eval op.cmpType.isSigned x y) accum)]

/-- The number that `OpFlo::fold` returns for the leading zeros. -/
def floResult (debug : Bool) (returnShiftAmount : Bool) (leading : Nat) : Except Fault Nat :=
  if returnShiftAmount then .ok leading else sub 32 debug 31 leading

def flo (debug : Bool) (op : OpFlo) (f : OpFoldData) : Except Fault OpFoldData := do
  let src ← f.getU32Src 0 op.src
  let leading := if op.signed ∧ src &&& 0x80000000 ≠ 0 then (~~~src).clz else src.clz
  let dst ← floResult debug op.returnShiftAmount leading.toNat
  f.setDsts [.u32 (BitVec.ofNat 32 dst)]

def lop2 (op : OpLop2) (f : OpFoldData) : Except Fault OpFoldData := do
  let x ← f.getU32BnotSrc 0 (op.srcs 0)
  let y ← f.getU32BnotSrc 1 (op.srcs 1)
  f.setDsts [.u32 (op.op.eval x y)]

def lop3 (op : OpLop3) (f : OpFoldData) : Except Fault OpFoldData := do
  let x ← f.getU32BnotSrc 0 (op.srcs 0)
  let y ← f.getU32BnotSrc 1 (op.srcs 1)
  let z ← f.getU32BnotSrc 2 (op.srcs 2)
  f.setDsts [.u32 (op.op.eval x y z)]

/-- `a` shifted, of `OpLea` and `OpLeaX`. -/
def leaShifted (debug dstHigh : Bool) (shift : Nat) (a aHigh : BitVec 32) :
    Except Fault (BitVec 32) :=
  if dstHigh then do
    let amount ← sub 8 debug 32 shift
    let shifted ← Checked.shr debug (aHigh ++ a) amount
    return shifted.setWidth 32
  else Checked.shl debug a shift

/-- `!x + 1` where a modifier asks for it, and whether that overflows. -/
def negate (negated : Bool) (x : BitVec 32) : BitVec 32 × Bool :=
  if negated then overflowingAdd (~~~x) 1 else (x, false)

def lea (debug : Bool) (op : OpLea) (f : OpFoldData) : Except Fault OpFoldData := do
  let a ← f.getU32Src 0 (op.srcs 0)
  let b ← f.getU32Src 1 (op.srcs 1)
  let aHigh ← f.getU32Src 2 (op.srcs 2)
  let shifted ← leaShifted debug op.dstHigh op.shift a aHigh
  let (shifted, o₁) := negate (← op.intermediateMod.isINeg) shifted
  let (b, o₂) := negate (← (op.srcs 1).modifier.isINeg) b
  let (dst, o₃) := overflowingAdd shifted b
  f.setDsts [.u32 dst, .pred (o₁ || o₂ || o₃)]

def leaX (debug : Bool) (op : OpLeaX) (f : OpFoldData) : Except Fault OpFoldData := do
  let a ← f.getU32Src 0 (op.srcs 0)
  let b ← f.getU32Src 1 (op.srcs 1)
  let aHigh ← f.getU32Src 2 (op.srcs 2)
  let carry ← f.getPredSrc 3 (op.srcs 3)
  let shifted ← leaShifted debug op.dstHigh op.shift a aHigh
  let negated ← op.intermediateMod.isBNot
  let negatedB ← (op.srcs 1).modifier.isBNot
  let (dst, o₁) := overflowingAdd (if negated then ~~~shifted else shifted)
    (if negatedB then ~~~b else b)
  let (dst, o₂) := overflowingAdd dst (if carry then 1 else 0)
  f.setDsts [.u32 dst, .pred (o₁ || o₂)]

/-- The shift amount of `OpShf`. -/
def shfAmount (debug wrap : Bool) (bits : Nat) (shift : BitVec 32) : Except Fault Nat :=
  if wrap then do
    let mask ← sub 32 debug bits 1
    return (shift &&& BitVec.ofNat 32 mask).toNat
  else return min shift.toNat bits

/-- `x.checked_shl(shift).unwrap_or(0)`. -/
def shlOrZero {w : Nat} (x : BitVec w) (shift : Nat) : BitVec w :=
  if shift < w then x <<< shift else 0

/-- `x.checked_shr(shift).unwrap_or(0)`. -/
def shrOrZero {w : Nat} (x : BitVec w) (shift : Nat) : BitVec w :=
  if shift < w then x >>> shift else 0

/-- `x.checked_shr(shift).unwrap_or(x >> (w - 1))`, of a signed type. -/
def sshrOrSign {w : Nat} (x : BitVec w) (shift : Nat) : BitVec w :=
  if shift < w then x.sshiftRight shift else x.sshiftRight (w - 1)

def shf (debug : Bool) (sm : Nat) (op : OpShf) (f : OpFoldData) : Except Fault OpFoldData := do
  let low ← f.getU32Src 0 (op.srcs 0)
  let high ← f.getU32Src 1 (op.srcs 1)
  let shift ← f.getU32Src 2 (op.srcs 2)
  let shift ← shfAmount debug op.wrap op.dataType.bits shift
  let x : BitVec 64 := high ++ low
  let shifted :=
    if sm < 70 ∧ op.dstHigh ∧ op.dataType ≠ .i64 then
      if op.right then shrOrZero x shift else shlOrZero x shift
    else if op.dataType.isSigned then
      if op.right then sshrOrSign x shift else shlOrZero x shift
    else if op.right then shrOrZero x shift
    else shlOrZero x shift
  let dst : BitVec 32 :=
    if (sm < 70 ∧ ¬ op.right) ∨ op.dstHigh then (shifted >>> 32).setWidth 32
    else shifted.setWidth 32
  f.setDsts [.u32 dst]

/-- The shift amount of `OpShl` and `OpShr`. -/
def shiftAmount (wrap : Bool) (shift : BitVec 32) : Nat :=
  if wrap then (shift &&& 31).toNat else min shift.toNat 32

def shl (op : OpShl) (f : OpFoldData) : Except Fault OpFoldData := do
  let x ← f.getU32Src 0 (op.srcs 0)
  let shift ← f.getU32Src 1 (op.srcs 1)
  f.setDsts [.u32 (shlOrZero x (shiftAmount op.wrap shift))]

def shr (op : OpShr) (f : OpFoldData) : Except Fault OpFoldData := do
  let x ← f.getU32Src 0 (op.srcs 0)
  let shift ← f.getU32Src 1 (op.srcs 1)
  let shift := shiftAmount op.wrap shift
  f.setDsts [.u32 (if op.signed then sshrOrSign x shift else shrOrZero x shift)]

/-! ## Permutes, predicates and doubles -/

/-- The loop over the bytes of the result. -/
def prmtBytes (debug : Bool) (sel : PrmtSel) (vals : Fin 2 → BitVec 32) :
    Except Fault (BitVec 32) :=
  (List.finRange 4).foldlM (fun dst b => do
    let selByte := sel.get b
    let byte ← Checked.shl debug ((selByte.foldU32 (vals selByte.src)).setWidth 32) (b * 8)
    return dst ||| byte) 0

def prmt (debug : Bool) (op : OpPrmt) (f : OpFoldData) : Except Fault OpFoldData := do
  let x ← f.getU32Src 0 (op.srcs 0)
  let y ← f.getU32Src 1 (op.srcs 1)
  let sel ← f.getU32Src 2 op.sel
  assertThat (op.mode = .index) "self.mode == PrmtMode::Index"
  let dst ← prmtBytes debug ⟨sel.setWidth 16⟩ ![x, y]
  f.setDsts [.u32 dst]

end Foldable

structure OpSgxt where
  dst : Dst
  srcs : Fin 2 → Src
  signed : Bool

namespace Foldable

/-- The low bits of a word, extended. -/
def sgxtResult (debug signed : Bool) (a bits : BitVec 32) : Except Fault (BitVec 32) :=
  if 32 ≤ bits.toNat then .ok a
  else if bits = 0 then .ok 0
  else do
    let shift ← sub 32 debug 32 bits.toNat
    let a ← Checked.shl debug a shift
    if signed then sshr debug a shift else Checked.shr debug a shift

def sgxt (debug : Bool) (op : OpSgxt) (f : OpFoldData) : Except Fault OpFoldData := do
  let a ← f.getU32Src 0 (op.srcs 0)
  let bits ← f.getU32Src 1 (op.srcs 1)
  let dst ← sgxtResult debug op.signed a bits
  f.setDsts [.u32 dst]

def pSetP (op : OpPSetP) (f : OpFoldData) : Except Fault OpFoldData := do
  let x ← f.getPredSrc 0 (op.srcs 0)
  let y ← f.getPredSrc 1 (op.srcs 1)
  let z ← f.getPredSrc 2 (op.srcs 2)
  f.setDsts [.pred ((op.ops 1).eval z ((op.ops 0).eval x y)),
    .pred ((op.ops 1).eval z ((op.ops 0).eval (!x) y))]

def popC (op : OpPopC) (f : OpFoldData) : Except Fault OpFoldData := do
  let src ← f.getU32BnotSrc 0 op.src
  f.setDsts [.u32 src.cpop]

def dSetP (op : OpDSetP) (f : OpFoldData) : Except Fault OpFoldData := do
  let a ← f.getF64Src 0 (op.srcs 0)
  let b ← f.getF64Src 1 (op.srcs 1)
  let accum ← f.getPredSrc 2 (op.srcs 2)
  f.setDsts [.pred (op.setOp.eval (op.cmpOp.eval a b) accum)]

end Foldable

/-! ## Surfaces -/

inductive SuClampMode where
  | storedInDescriptor | pitchLinear | blockLinear
  deriving DecidableEq

inductive SuClampRound where
  | r1 | r2 | r4 | r8 | r16
  deriving DecidableEq

namespace SuClampRound

def toInt : SuClampRound → Nat
  | .r1 => 1 | .r2 => 2 | .r4 => 4 | .r8 => 8 | .r16 => 16

def toMask (debug : Bool) (round : SuClampRound) : Except Fault (BitVec 32) := do
  let below ← sub 32 debug round.toInt 1
  return ~~~BitVec.ofNat 32 below

end SuClampRound

structure OpSuClamp where
  dsts : Fin 2 → Dst
  mode : SuClampMode
  round : SuClampRound
  isS32 : Bool
  is2d : Bool
  srcs : Fin 2 → Src
  imm : BitVec 8

structure OpSuBfm where
  dsts : Fin 2 → Dst
  srcs : Fin 3 → Src
  is3d : Bool

structure OpSuEau where
  dst : Dst
  srcs : Fin 3 → Src

namespace Foldable

open BitFields

/-- `get_bit` of a word. -/
def getBit (x : BitVec 32) (i : Nat) : Bool := getField x i 1 ≠ 0

/-- `set_bit` of a word. -/
def setBit (x : BitVec 32) (i : Nat) (b : Bool) : BitVec 32 := setField x i 1 b.toNat

/-- The result of `OpSuClamp` in block-linear mode. -/
def blockLinear (debug : Bool) (params clamped : BitVec 32) (isOob : Bool) :
    Except Fault (BitVec 32) := do
  let high ← Checked.shr debug clamped (getField params 22 4)
  let inside ← Checked.shl debug clamped (getField params 26 3)
  let out := setField 0 0 16 (high &&& 0xffff).toNat
  let out := setField out 16 8 (inside &&& 0xff).toNat
  let out := setField out 27 3 (getField params 29 3)
  return setBit (setBit out 30 false) 31 isOob

/-- The result of `OpSuClamp`. -/
def suClampOut (debug pitchLinear is2d : Bool) (params clamped : BitVec 32) (isOob : Bool) :
    Except Fault (BitVec 32) :=
  if pitchLinear then
    if ¬ is2d then .ok (setField 0 0 32 clamped.toNat)
    else
      let out := setField (0 : BitVec 32) 0 20 (clamped &&& 0xfffff).toNat
      let out := setField out 27 3 (getField params 26 3)
      .ok (setBit (setBit out 30 true) 31 isOob)
  else blockLinear debug params clamped isOob

def isPitchLinear (mode : SuClampMode) (params : BitVec 32) : Bool :=
  match mode with
  | .storedInDescriptor => getBit params 21
  | .pitchLinear => true
  | .blockLinear => false

/-- Whether a coordinate is out of bounds, and where it is clamped to. -/
def clampTo (bounds : BitVec 32) (src : Int) : Bool × BitVec 32 :=
  if src < 0 then (true, 0)
  else if (bounds.toNat : Int) < src then (true, bounds)
  else (false, BitVec.ofInt 32 src)

def suClamp (debug : Bool) (op : OpSuClamp) (f : OpFoldData) : Except Fault OpFoldData := do
  let src ← f.getU32Src 0 (op.srcs 0)
  let params ← f.getU32Src 1 (op.srcs 1)
  let src ← addI64 debug (if op.isS32 then src.toInt else src.toNat) op.imm.toInt
  let pitchLinear := isPitchLinear op.mode params
  let bounds :=
    if pitchLinear && !op.is2d then params else BitVec.ofNat 32 (getField params 0 20)
  let mask ← op.round.toMask debug
  let bounds := bounds &&& mask
  let (isOob, clamped) := clampTo bounds src
  let out ← suClampOut debug pitchLinear op.is2d params clamped isOob
  f.setDsts [.u32 out, .pred isOob]

/-- `(1 << n) - 1`. -/
def lowMask (debug : Bool) (n : Nat) : Except Fault (BitVec 64) := do
  let bit ← Checked.shl debug 1#64 n
  let mask ← sub 64 debug bit.toNat 1
  return BitVec.ofNat 64 mask

/-- The coordinates in gobs, put together. -/
def gobOffset (debug : Bool) (x y z : BitVec 32) (ntx nty ntz : Nat) :
    Except Fault (BitVec 64) := do
  let maskA ← lowMask debug ntx
  let maskB ← lowMask debug (min nty 5)
  let maskC ← lowMask debug (min ntz 5)
  let a := BitVec.ofNat 64 (getField x 22 2) &&& maskA
  let b := BitVec.ofNat 64 (getField y 19 5) &&& maskB
  let c := BitVec.ofNat 64 (getField z 16 8) &&& maskC
  let res ← Checked.shl debug c nty
  let res ← Checked.shl debug (res ||| b) ntx
  return (res ||| a) &&& (if ntx = 0 then 0x3ff else 0x7ff)

/-- The result of `OpSuBfm` in block-linear mode. -/
def suBfmBlock (debug is3d : Bool) (x y z : BitVec 32) : Except Fault (BitVec 32) := do
  let o := setField 0 0 4 (getField x 16 4)
  let o := setBit o 4 (getBit y 16)
  let o := setBit o 5 (getBit y 17)
  let o := setBit o 6 (getBit x 20)
  let o := setBit o 7 (getBit y 18)
  let o := setBit o 8 (getBit x 21)
  let ntx := getField x 27 3 % 2
  let nty := getField y 27 3
  let ntz ← mul 64 debug (getField z 27 3) is3d.toNat
  let tiles ← sumOfNats debug [ntx, nty, ntz]
  let o := setField o 12 4 tiles
  let res ← gobOffset debug x y z ntx nty ntz
  return setField o 16 11 res.toNat

/-- The result of `OpSuBfm` in pitch-linear mode. -/
def suBfmPitch (debug : Bool) (x z : BitVec 32) : Except Fault (BitVec 32) := do
  let elSizeLog2 := getField x 27 3
  let d ← Checked.shl debug (BitVec.ofNat 64 (getField z 0 8)) elSizeLog2
  let o := setField 0 0 8 (d &&& 0xff).toNat
  return setField o 12 3 elSizeLog2

def suBfm (debug : Bool) (op : OpSuBfm) (f : OpFoldData) : Except Fault OpFoldData := do
  let x ← f.getU32Src 0 (op.srcs 0)
  let y ← f.getU32Src 1 (op.srcs 1)
  let z ← f.getU32Src 2 (op.srcs 2)
  let isPitchLinear2d := getBit x 30 || getBit y 30
  let o ← if isPitchLinear2d then suBfmPitch debug x z else suBfmBlock debug op.is3d x y z
  let isOob := getBit x 31 || getBit y 31 || (getBit z 31 && op.is3d)
  f.setDsts [.u32 (setBit o 11 isPitchLinear2d), .pred isOob]

/-- The offset of `OpSuEau` in pitch-linear mode: a shift right where the amount is negative. -/
def pitchOffset (debug : Bool) (off : BitVec 32) (offShift : Nat) : Except Fault (BitVec 32) := do
  let amount ← subI32 debug offShift 8
  if amount < 0 then do
    let right ← negI32 debug amount
    Checked.shr debug off right.toNat
  else Checked.shl debug off amount.toNat

/-- The offset of `OpSuEau` in block-linear mode. -/
def blockOffset (debug : Bool) (off bf : BitVec 32) (offShift : Nat) :
    Except Fault (BitVec 32) := do
  let amount ← add 32 debug offShift 1
  let shifted ← Checked.shl debug off amount
  let offs ← Checked.shl debug (BitVec.ofNat 32 (getField bf 16 11)) 1
  return shifted ||| offs ||| BitVec.ofNat 32 (getField bf 8 1)

def suEau (debug : Bool) (op : OpSuEau) (f : OpFoldData) : Except Fault OpFoldData := do
  let off ← f.getU32Src 0 (op.srcs 0)
  let bf ← f.getU32Src 1 (op.srcs 1)
  let addr ← f.getU32Src 2 (op.srcs 2)
  let offShift := getField bf 12 4
  if ¬ getBit bf 11 then do
    let off ← blockOffset debug off bf offShift
    f.setDsts [.u32 (addr + (off &&& 0x7ffffff))]
  else do
    let off ← pitchOffset debug off offShift
    f.setDsts [.u32 (addr + (off &&& 0xffffff))]

end Foldable

inductive IMadSpSrcType where
  | u32 | u24 | u16Hi | u16Lo | s32 | s24 | s16Hi | s16Lo
  deriving DecidableEq

namespace IMadSpSrcType

def unsigned : IMadSpSrcType → IMadSpSrcType
  | .s32 => .u32
  | .s24 => .u24
  | .s16Hi => .u16Hi
  | .s16Lo => .u16Lo
  | x => x

/-- `IMadSpSrcType::cast`. -/
def cast : IMadSpSrcType → BitVec 32 → Int
  | .u32, v => v.toNat
  | .u24, v => (v &&& 0x00ffffff).toNat
  | .u16Lo, v => (v.setWidth 16).toNat
  | .u16Hi, v => (v >>> 16).toNat
  | .s32, v => v.toInt
  | .s24, v => ((v <<< 8).sshiftRight 8).toInt
  | .s16Lo, v => (v.setWidth 16).toInt
  | .s16Hi, v => ((v >>> 16).setWidth 16).toInt

end IMadSpSrcType

inductive IMadSpMode where
  | explicit (types : Fin 3 → IMadSpSrcType)
  | fromSrc1

structure OpIMadSp where
  dst : Dst
  srcs : Fin 3 → Src
  mode : IMadSpMode

namespace Foldable

open BitFields

/-- The types of the sources, read off the second source where the mode says so. -/
def iMadSpTypes (mode : IMadSpMode) (src1 : BitVec 32) :
    Except Fault (IMadSpSrcType × IMadSpSrcType × IMadSpSrcType) :=
  match mode with
  | .explicit types => return (types 0, types 1, types 2)
  | .fromSrc1 => do
    let types0 : List IMadSpSrcType := [.u32, .u24, .u16Lo, .u16Hi]
    let types1 : List IMadSpSrcType := [.u16Lo, .u24, .u16Lo, .u24]
    let types2 : List IMadSpSrcType := [.u32, .u24, .u16Lo, .u32]
    let type0 ← expect types0[getField src1 30 2]? "index out of bounds"
    let type1 ← expect types1[getField src1 28 2]? "index out of bounds"
    let type2 ← expect types2[getField src1 26 2]? "index out of bounds"
    return (type0.unsigned, type1.unsigned, type2.unsigned)

def iMadSp (debug : Bool) (op : OpIMadSp) (f : OpFoldData) : Except Fault OpFoldData := do
  let src0 ← f.getU32Src 0 (op.srcs 0)
  let src1 ← f.getU32Src 1 (op.srcs 1)
  let src2 ← f.getU32Src 2 (op.srcs 2)
  let (type0, type1, type2) ← iMadSpTypes op.mode src1
  let product ← mulI64 debug (type0.cast src0) (type1.cast src1)
  let sum ← addI64 debug product (type2.cast src2)
  f.setDsts [.u32 (BitVec.ofInt 32 sum)]

end Foldable

/-! ## The trait -/

/-- The ops that implement `Foldable`. -/
inductive FoldableOp where
  | iAbs (op : OpIAbs)
  | iAdd2 (op : OpIAdd2)
  | iAdd2X (op : OpIAdd2X)
  | iAdd3 (op : OpIAdd3)
  | iAdd3X (op : OpIAdd3X)
  | iMnMx (op : OpIMnMx)
  | iSetP (op : OpISetP)
  | flo (op : OpFlo)
  | lop2 (op : OpLop2)
  | lop3 (op : OpLop3)
  | lea (op : OpLea)
  | leaX (op : OpLeaX)
  | shf (op : OpShf)
  | shl (op : OpShl)
  | shr (op : OpShr)
  | prmt (op : OpPrmt)
  | sgxt (op : OpSgxt)
  | pSetP (op : OpPSetP)
  | popC (op : OpPopC)
  | dSetP (op : OpDSetP)
  | suClamp (op : OpSuClamp)
  | suBfm (op : OpSuBfm)
  | suEau (op : OpSuEau)
  | iMadSp (op : OpIMadSp)

namespace FoldableOp

/-- `Foldable::fold`. -/
def fold (debug : Bool) (sm : Nat) (op : FoldableOp) (f : OpFoldData) : Except Fault OpFoldData :=
  match op with
  | .iAbs op => Foldable.iAbs op f
  | .iAdd2 op => Foldable.iAdd2 debug op f
  | .iAdd2X op => Foldable.iAdd2X debug op f
  | .iAdd3 op => Foldable.iAdd3 debug op f
  | .iAdd3X op => Foldable.iAdd3X debug op f
  | .iMnMx op => Foldable.iMnMx op f
  | .iSetP op => Foldable.iSetP sm op f
  | .flo op => Foldable.flo debug op f
  | .lop2 op => Foldable.lop2 op f
  | .lop3 op => Foldable.lop3 op f
  | .lea op => Foldable.lea debug op f
  | .leaX op => Foldable.leaX debug op f
  | .shf op => Foldable.shf debug sm op f
  | .shl op => Foldable.shl op f
  | .shr op => Foldable.shr op f
  | .prmt op => Foldable.prmt debug op f
  | .sgxt op => Foldable.sgxt debug op f
  | .pSetP op => Foldable.pSetP op f
  | .popC op => Foldable.popC op f
  | .dSetP op => Foldable.dSetP op f
  | .suClamp op => Foldable.suClamp debug op f
  | .suBfm op => Foldable.suBfm debug op f
  | .suEau op => Foldable.suEau debug op f
  | .iMadSp op => Foldable.iMadSp debug op f

/-- The sources of an op, under their types. -/
def operands : FoldableOp → List (SrcType × Src)
  | .iAbs op => [(.alu, op.src)]
  | .iAdd2 op => [(.i32, op.srcs 0), (.i32, op.srcs 1)]
  | .iAdd2X op => [(.b32, op.srcs 0), (.b32, op.srcs 1), (.carry, op.srcs 2)]
  | .iAdd3 op => [(.i32, op.srcs 0), (.i32, op.srcs 1), (.i32, op.srcs 2)]
  | .iAdd3X op => [(.b32, op.srcs 0), (.b32, op.srcs 1), (.b32, op.srcs 2), (.pred, op.srcs 3),
      (.pred, op.srcs 4)]
  | .iMnMx op => [(.alu, op.srcs 0), (.alu, op.srcs 1), (.pred, op.srcs 2)]
  | .iSetP op => [(.alu, op.srcs 0), (.alu, op.srcs 1), (.pred, op.srcs 2), (.pred, op.srcs 3)]
  | .flo op => [(.alu, op.src)]
  | .lop2 op => [(.b32, op.srcs 0), (.b32, op.srcs 1)]
  | .lop3 op => [(.alu, op.srcs 0), (.alu, op.srcs 1), (.alu, op.srcs 2)]
  | .lea op => [(.alu, op.srcs 0), (.i32, op.srcs 1), (.alu, op.srcs 2)]
  | .leaX op => [(.alu, op.srcs 0), (.b32, op.srcs 1), (.alu, op.srcs 2), (.pred, op.srcs 3)]
  | .shf op => [(.gpr, op.srcs 0), (.alu, op.srcs 1), (.alu, op.srcs 2)]
  | .shl op => [(.gpr, op.srcs 0), (.alu, op.srcs 1)]
  | .shr op => [(.gpr, op.srcs 0), (.alu, op.srcs 1)]
  | .prmt op => [(.alu, op.srcs 0), (.alu, op.srcs 1), (.alu, op.srcs 2)]
  | .sgxt op => [(.alu, op.srcs 0), (.alu, op.srcs 1)]
  | .pSetP op => [(.pred, op.srcs 0), (.pred, op.srcs 1), (.pred, op.srcs 2)]
  | .popC op => [(.b32, op.src)]
  | .dSetP op => [(.f64, op.srcs 0), (.f64, op.srcs 1), (.pred, op.srcs 2)]
  | .suClamp op => [(.gpr, op.srcs 0), (.alu, op.srcs 1)]
  | .suBfm op => [(.alu, op.srcs 0), (.alu, op.srcs 1), (.alu, op.srcs 2)]
  | .suEau op => [(.gpr, op.srcs 0), (.alu, op.srcs 1), (.gpr, op.srcs 2)]
  | .iMadSp op => [(.alu, op.srcs 0), (.alu, op.srcs 1), (.alu, op.srcs 2)]

/-- The number of destinations of an op. -/
def numDsts : FoldableOp → Nat
  | .iAdd3 _ | .iAdd3X _ => 3
  | .iAdd2 _ | .iAdd2X _ | .lea _ | .leaX _ | .pSetP _ | .suClamp _ | .suBfm _ => 2
  | _ => 1

end FoldableOp

end CoralReef
