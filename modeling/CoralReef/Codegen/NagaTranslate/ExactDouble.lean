import CoralReef.Codegen.NagaTranslate.Emit
import CoralReef.Misc.FloatFormat
import CoralReef.Misc.StraightCode

/-!
# Doubles without bounds

The code of 64-bit floats, read with exponents of any size: a pair of registers holds the halves of
a double, a sum is the exact sum rounded to 53 bits, and a comparison is exact. Only the sign of the
high half of a double is a bit that code can reach.
-/

namespace CoralReef.NagaTranslate

/-- A sign and a magnitude. -/
structure Double where
  negative : Bool
  magnitude : Rat
  nonneg : 0 ≤ magnitude

namespace Double

def value (x : Double) : Rat := if x.negative then -x.magnitude else x.magnitude

/-- A number, with the sign of a zero. -/
def ofRat (negativeZero : Bool) (q : Rat) : Double where
  negative := if q = 0 then negativeZero else decide (q < 0)
  magnitude := |q|
  nonneg := abs_nonneg q

def withSign (negative : Bool) (x : Double) : Double := { x with negative }

/-- A double under the modifier of its operand. -/
def modified (modifier : SrcMod) (x : Double) : Double :=
  match modifier with
  | .fNeg => x.withSign !x.negative
  | .fAbs => x.withSign false
  | .fNegAbs => x.withSign true
  | _ => x

/-- The sum, rounded to 53 bits. -/
def add (x y : Double) : Double :=
  ofRat (x.negative && y.negative) (Rounding.roundTo 53 (x.value + y.value))

/-- The double that 64 bits encode. -/
def ofBits (bits : BitVec 64) : Option Double :=
  match FloatFormat.binary64.decode bits.toNat with
  | .finite q => some (ofRat bits.msb q)
  | _ => none

end Double

/-- What a register holds. -/
inductive Half where
  | word (w : BitVec 32)
  | low (x : Double)
  | high (x : Double)
  | pred (b : Bool)

namespace Half

def and : Half → Half → Option Half
  | .word a, .word b => some (.word (a &&& b))
  | .high x, .word b =>
    if b = 0x80000000 then some (.word (if x.negative then 0x80000000 else 0))
    else if b = 0x7FFFFFFF then some (.high (x.withSign false))
    else none
  | _, _ => none

def or : Half → Half → Option Half
  | .word a, .word b => some (.word (a ||| b))
  | .high x, .word b =>
    if b = 0x80000000 then some (.high (x.withSign true))
    else if b = 0 then some (.high x)
    else none
  | _, _ => none

def pred? : Half → Option Bool
  | .pred b => some b
  | _ => none

/-- The double of two halves. -/
def pair : Half → Half → Option Double
  | .word lo, .word hi => Double.ofBits (hi ++ lo)
  | .low x, .high y => if x.magnitude = y.magnitude then some y else none
  | _, _ => none

end Half

/-- The exact comparison of numbers. -/
def exactCompare : FloatCmpOp → Rat → Rat → Bool
  | .ordEq, a, b | .unordEq, a, b => a = b
  | .ordNe, a, b | .unordNe, a, b => a ≠ b
  | .ordLt, a, b | .unordLt, a, b => a < b
  | .ordLe, a, b | .unordLe, a, b => a ≤ b
  | .ordGt, a, b | .unordGt, a, b => b < a
  | .ordGe, a, b | .unordGe, a, b => b ≤ a
  | .isNum, _, _ => true
  | .isNan, _, _ => false

abbrev HalfEnv := SSAValue → Option Half

namespace HalfEnv

variable (env : HalfEnv)

/-- An operand of one register. -/
def half (src : Src) : Option Half :=
  match src.reference with
  | .zero => some (.word 0)
  | .imm32 u => some (.word (BitVec.ofNat 32 u))
  | .boolTrue => some (.pred true)
  | .boolFalse => some (.pred false)
  | .ssa [x] => env x
  | _ => none

/-- A predicate operand. -/
def pred (src : Src) : Option Bool :=
  ((half env src).bind Half.pred?).map fun b => b != decide (src.modifier = .bNot)

/-- An operand of two registers. -/
def double (src : Src) : Option Double :=
  let unmodified : Option Double := match src.reference with
    | .zero => some ⟨false, 0, le_rfl⟩
    | .imm32 u => Double.ofBits (BitVec.ofNat 32 u ++ (0 : BitVec 32))
    | .ssa [lo, hi] => do Half.pair (← env lo) (← env hi)
    | _ => none
  unmodified.map (Double.modified src.modifier)

end HalfEnv

/-- The result of an op, with exact comparisons and sums of 53 bits. -/
def exactDouble (op : ValueOp) (env : HalfEnv) (i : Nat) : Option Half :=
  match op with
  | .copy op => HalfEnv.half env op.src
  | .lop2 op => do
    let a ← HalfEnv.half env (op.srcs 0)
    let b ← HalfEnv.half env (op.srcs 1)
    match op.op with
    | .and => a.and b
    | .or => a.or b
    | _ => none
  | .lop3 op => do
    let a ← HalfEnv.half env (op.srcs 0)
    let b ← HalfEnv.half env (op.srcs 1)
    if op.op = .newLut fun x y _ => x &&& y then a.and b
    else if op.op = .newLut fun x y _ => x ||| y then a.or b
    else none
  | .dSetP op => do
    let a ← HalfEnv.double env (op.srcs 0)
    let b ← HalfEnv.double env (op.srcs 1)
    let accum ← HalfEnv.pred env (op.srcs 2)
    return .pred (op.setOp.eval (exactCompare op.cmpOp a.value b.value) accum)
  | .sel op => do
    if ← HalfEnv.pred env (op.srcs 0) then HalfEnv.half env (op.srcs 1)
    else HalfEnv.half env (op.srcs 2)
  | .float (.dAdd .nearestEven) _ [a, b] => do
    let sum := (← HalfEnv.double env a).add (← HalfEnv.double env b)
    match i with
    | 0 => return .low sum
    | 1 => return .high sum
    | _ => none
  | _ => none

/-- The ops as instructions on halves of doubles. -/
def exactMachine : Straight.Machine ValueOp SSAValue (Option Half) where
  writes := fun op => op.dst.iterSsa
  exec := fun op env x =>
    if x ∈ op.dst.iterSsa then exactDouble op env (op.dst.iterSsa.idxOf x) else env x
  frame := by
    intro op env x other
    exact if_neg other

end CoralReef.NagaTranslate
