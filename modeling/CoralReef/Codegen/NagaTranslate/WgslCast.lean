import CoralReef.Codegen.NagaTranslate.Wgsl
import CoralReef.Misc.FloatFormat
import CoralReef.Misc.Reciprocal

/-!
# What the conversions mean

The `As` expressions that naga's validator allows: conversions between the scalars, and bitcasts
between scalars of one width, of scalars and of vectors. A float that is converted to an integer is
truncated, and saturates at the numbers that both types have.
-/

namespace CoralReef.NagaTranslate

/-!
## Floats as rounded numbers

The arithmetic of single precision on the numbers that words encode: every result is the exact one,
rounded to 24 significant bits. Exponents are not bounded, and words that are read as floats have
no value.
-/

/-- A number of single precision. -/
def single (x : Rat) : Rat := Rounding.roundTo 24 x

/-- A number without its fraction. -/
def truncate (x : Rat) : Int := if x < 0 then ⌈x⌉ else ⌊x⌋

/-- The number an operand stands for. -/
def operandNumber : SrcMod × List (Option Value) → Option Rat
  | (.none, [some (.float q)]) => some q
  | (.fNeg, [some (.float q)]) => some (-q)
  | (.fAbs, [some (.float q)]) => some |q|
  | _ => none

/-- A conversion to an integer stays in the range of the integers. -/
def saturate (n : Int) : BitVec 32 := BitVec.ofInt 32 (max (-2 ^ 31) (min n (2 ^ 31 - 1)))

/-- The ops on floats of the integer divisions. -/
def roundedUnit : FloatUnit := fun code srcs _ =>
  match code, srcs with
  | .i2F .f32 .i32 .nearestEven, [(.none, [some (.word w)])] => some (.float (single w.toInt))
  | .transcendental .rcp, [a] => do
    let a ← operandNumber a
    if a = 0 then none else return .float (single (1 / a))
  | .fMul false .nearestEven false false, [a, b] => do
    return .float (single ((← operandNumber a) * (← operandNumber b)))
  | .fAdd false .nearestEven false, [a, b] => do
    return .float (single ((← operandNumber a) + (← operandNumber b)))
  | .fRnd .f32 .f32 .zero false, [a] => do return .float (truncate (← operandNumber a))
  | .f2I .i32 .f32 .zero false, [a] => do return .word (saturate (truncate (← operandNumber a)))
  | _, _ => none

/-! ## Words that are read as floats -/

/-- The nearest integer to what a word encodes, in the range of the integers. -/
def nearestInt : FloatNumber → BitVec 32
  | .nan => 0
  | .infinite negative => saturate (if negative then -2 ^ 31 else 2 ^ 31)
  | .finite q => saturate (Rounding.roundEven q)

/-- The ops on floats of the conversions, on words by the bits they encode. A double is made of an
integer only. -/
def convertUnit : FloatUnit := fun code srcs i =>
  match code, srcs with
  | .i2F .f32 .i32 .nearestEven, [(.none, [some (.word w)])] => some (.float (single w.toInt))
  | .f2I .i32 .f32 .nearestEven false, [(.none, [some (.word w)])] =>
    some (.word (nearestInt (FloatFormat.binary32.decode w.toNat)))
  | .f2F .f64 .f32 .nearestEven false false false, [(.none, [some (.float q)])] =>
    if q.den = 1 then
      some (.word (BitVec.ofNat 32 (FloatFormat.binary64.encodeInt q.num / 2 ^ (32 * i))))
    else none
  | _, _ => none

end CoralReef.NagaTranslate

namespace CoralReef.Wgsl

open NagaTranslate (ScalarKind Scalar VectorSize truncate)

/-- The types of scalars. -/
inductive CastType where
  | f16 | f32 | f64 | i32 | u32 | i64 | u64 | bool
  deriving DecidableEq, Repr

namespace CastType

def scalar : CastType → Scalar
  | .f16 => ⟨.float, 2⟩
  | .f32 => ⟨.float, 4⟩
  | .f64 => ⟨.float, 8⟩
  | .i32 => ⟨.sint, 4⟩
  | .u32 => ⟨.uint, 4⟩
  | .i64 => ⟨.sint, 8⟩
  | .u64 => ⟨.uint, 8⟩
  | .bool => ⟨.bool, 1⟩

/-- The format of a float. -/
def format? : CastType → Option FloatFormat
  | .f16 => some .binary16
  | .f32 => some .binary32
  | .f64 => some .binary64
  | _ => none

/-- The signedness and the width of an integer. -/
def int? : CastType → Option (Bool × Nat)
  | .i32 => some (true, 32)
  | .u32 => some (false, 32)
  | .i64 => some (true, 64)
  | .u64 => some (false, 64)
  | _ => none

end CastType

/-- The bits of a scalar: of one register or of two. -/
inductive Bits where
  | narrow (w : BitVec 32)
  | wide (lo hi : BitVec 32)
  | bool (b : Bool)
  deriving DecidableEq, Repr

/-- Registers that hold the bits of a scalar. -/
def Bits.Held : Bits → List (Option Value) → Prop
  | .narrow w, regs => regs = [some (.word w)]
  | .wide lo hi, regs => regs = [some (.word lo), some (.word hi)]
  | .bool b, regs => regs = [some (.pred b)] ∨ regs = [some (.word (if b then 1 else 0))]

/-- The value of a scalar. -/
inductive Datum where
  | int (n : Int)
  | float (x : FloatNumber)
  | bool (b : Bool)
  deriving DecidableEq, Repr

/-- What bits stand for. -/
def CastType.datum : CastType → Bits → Option Datum
  | .f16, .narrow w =>
    if w.toNat < 2 ^ 16 then some (.float (FloatFormat.binary16.decode w.toNat)) else none
  | .f32, .narrow w => some (.float (FloatFormat.binary32.decode w.toNat))
  | .f64, .wide lo hi => some (.float (FloatFormat.binary64.decode (hi ++ lo).toNat))
  | .i32, .narrow w => some (.int w.toInt)
  | .u32, .narrow w => some (.int w.toNat)
  | .i64, .wide lo hi => some (.int (hi ++ lo).toInt)
  | .u64, .wide lo hi => some (.int (hi ++ lo).toNat)
  | .bool, .bool b => some (.bool b)
  | _, _ => none

/-- An integer as a scalar of a type. -/
def ofInt (target : CastType) (n : Int) : Datum :=
  match target.format?, target.int? with
  | some format, _ => .float (format.round n)
  | none, some (true, width) => .int (n.bmod (2 ^ width))
  | none, some (false, width) => .int (n % 2 ^ width)
  | none, none => .bool (n ≠ 0)

/-- The integers that a float is converted to. -/
def IsTruncation (format : FloatFormat) (signed : Bool) (width : Nat) (x : FloatNumber) (n : Int) :
    Prop :=
  let bits := if signed then width - 1 else width
  let least : Int :=
    if signed then if bits ≤ format.bias then -2 ^ bits else -format.largestBelow bits else 0
  match x with
  | .nan => (if signed then -2 ^ bits else 0) ≤ n ∧ n < 2 ^ bits
  | .infinite true => n = least
  | .infinite false => n = format.largestBelow bits
  | .finite q => n = max least (min (truncate q) (format.largestBelow bits))

/-- The scalars that a scalar is converted to: one, but for a NaN that becomes an integer. -/
def IsConversion (source target : CastType) : Datum → Datum → Prop
  | .int n, y => y = ofInt target n
  | .bool b, y => if target = .bool then y = .bool b else y = ofInt target (if b then 1 else 0)
  | .float x, y =>
    match source.format?, target.format?, target.int? with
    | some sourceFormat, some format, _ =>
      match x with
      | .finite q =>
        y = .float (if sourceFormat.fraction ≤ format.fraction then x else format.round q)
      | _ => y = .float x
    | some sourceFormat, none, some (signed, width) =>
      ∃ n, y = .int n ∧ IsTruncation sourceFormat signed width x n
    | _, _, _ => y = .bool (x ≠ .finite 0)

/-- The results of an `As` expression at one component. -/
def IsCast (bitcast : Bool) (source target : CastType) (bits : Bits) (y : Datum) : Prop :=
  if bitcast then target.datum bits = some y
  else ∃ x, source.datum bits = some x ∧ IsConversion source target x y

/-- The validator gives a bitcast the width of its operand. -/
def allowedCast (bitcast : Bool) (source target : CastType) : Bool :=
  !bitcast || source.scalar.width = target.scalar.width

/-- Registers that hold a scalar: its bits, or a word that is known by the float it encodes. -/
def CastType.Reads (ty : CastType) (regs : List (Option Value)) (y : Datum) : Prop :=
  (∃ bits : Bits, bits.Held regs ∧ ty.datum bits = some y) ∨
    ty = .f32 ∧ ∃ q, regs = [some (.float q)] ∧ y = .float (.finite q)

/-- A scalar or a vector, by the bits of its components. -/
structure CastOperand where
  ty : CastType
  size : Option VectorSize
  vals : List Bits
  length_vals : vals.length = (size.map VectorSize.comps).getD 1
  has_vals : vals.all fun bits => (ty.datum bits).isSome

/-- Registers that hold an operand, one component after the other. -/
def CastOperand.HeldBy (x : CastOperand) (regs : List (Option Value)) : Prop :=
  ∃ parts, regs = parts.flatten ∧ List.Forall₂ Bits.Held x.vals parts

/-- Registers that hold the result of an `As` expression. -/
def CastYields (bitcast : Bool) (target : CastType) (x : CastOperand)
    (regs : List (Option Value)) : Prop :=
  ∃ parts, regs = parts.flatten ∧ List.Forall₂ (fun bits part =>
    ∃ y, IsCast bitcast x.ty target bits y ∧ target.Reads part y) x.vals parts

end CoralReef.Wgsl
