import CoralReef.Codegen.Ir.SrcDst

/-!
# Types of operands

`SrcType` and what `ir/src.rs` and `ir/src_dst.rs` say of an operand of a type: whether it may stand
there, and its value when it is a constant.
-/

namespace CoralReef

inductive SrcType where
  | ssa | gpr | alu | f16 | f16v2 | f32 | f64 | i32 | b32 | pred | carry | bar
  deriving DecidableEq, Repr

/-- `HasRegFile::is_gpr`. -/
def RegFile.isGpr : RegFile → Bool
  | .gpr | .ugpr => true
  | _ => false

/-- The file of a vector, which has the same file in all its components. -/
def fileOf : SSARef → Option RegFile
  | [] => none
  | x :: rest => if rest.all fun y => y.file = x.file then some x.file else none

namespace SrcRef

def isAlu : SrcRef → Bool
  | .zero | .imm32 _ | .cbuf _ => true
  | .ssa vec => (fileOf vec).any RegFile.isGpr
  | .reg r => r.file.isGpr
  | .boolTrue | .boolFalse => false

def isPredicate : SrcRef → Bool
  | .zero | .imm32 _ | .cbuf _ => false
  | .boolTrue | .boolFalse => true
  | .ssa vec => (fileOf vec).any RegFile.isPredicate
  | .reg r => r.file.isPredicate

/-- Whether the operand lives in this file. -/
def inFile (file : RegFile) : SrcRef → Bool
  | .ssa vec => fileOf vec = some file
  | .reg r => r.file = file
  | _ => false

/-- `SrcRef::as_u32`. -/
def asU32 : SrcRef → Except Fault (Option (BitVec 32))
  | .zero => .ok (some 0)
  | .imm32 u => .ok (some (BitVec.ofNat 32 u))
  | .cbuf _ | .ssa _ | .reg _ => .ok Option.none
  | .boolTrue | .boolFalse => .error (.panic "Invalid integer source")

/-- `SrcRef::from(u32)`. -/
def ofU32 (u : BitVec 32) : SrcRef := if u = 0 then .zero else .imm32 u.toNat

end SrcRef

namespace Src

/-- `Src::supports_type`. -/
def supportsType (src : Src) : SrcType → Bool
  | .ssa => src.isUnmodified && match src.reference with
    | .ssa _ | .reg _ => true
    | _ => false
  | .gpr => src.isUnmodified && match src.reference with
    | .zero | .ssa _ | .reg _ => true
    | _ => false
  | .alu => src.isUnmodified && src.reference.isAlu
  | .f16 | .f16v2 | .f32 | .f64 => (match src.modifier with
    | .none | .fAbs | .fNeg | .fNegAbs => true
    | _ => false) && src.reference.isAlu
  | .i32 => (match src.modifier with
    | .none | .iNeg => true
    | _ => false) && src.reference.isAlu
  | .b32 => (match src.modifier with
    | .none | .bNot => true
    | _ => false) && src.reference.isAlu
  | .pred => (match src.modifier with
    | .none | .bNot => true
    | _ => false) && src.reference.isPredicate
  | .carry => src.isUnmodified && src.reference.inFile .carry
  | .bar => src.isUnmodified && src.reference.inFile .bar

/-- The constant an operand names, before its modifiers. -/
def immediate (src : Src) : Option (BitVec 32) :=
  match src.reference with
  | .zero => some 0
  | .imm32 u => some (BitVec.ofNat 32 u)
  | _ => Option.none

/-- A modifier of floats applied to the sign bits of a mask. -/
def signBits (modifier : SrcMod) (mask u : BitVec 32) : Except Fault (BitVec 32) :=
  match modifier with
  | .none => .ok u
  | .fAbs => .ok (u &&& ~~~mask)
  | .fNeg => .ok (u ^^^ mask)
  | .fNegAbs => .ok (u ||| mask)
  | _ => .error (.panic "Not a float source modifier")

/-- The two halves of a word, as a swizzle orders them. -/
def swizzled (swizzle : SrcSwizzle) (u : BitVec 32) : BitVec 32 :=
  match swizzle with
  | .none => u
  | .xx => (u <<< 16) ||| (u &&& 0xffff)
  | .yy => (u &&& 0xffff0000) ||| (u >>> 16)

/-- `Src::as_u32`. -/
def asU32 (src : Src) (type : SrcType) : Except Fault (Option (BitVec 32)) :=
  match src.immediate with
  | none => .ok Option.none
  | some u =>
    if src.isUnmodified then .ok (some u)
    else do
      assertThat (type = .f16v2 || src.swizzle = .none)
        "src_type == SrcType::F16v2 || self.swizzle.is_none()"
      match type with
      | .i32 => return Option.none
      | .f16 => return some (← signBits src.modifier 0x8000 (u &&& 0xffff))
      | .f16v2 => return some (← signBits src.modifier 0x80008000 (swizzled src.swizzle u))
      | .f32 | .f64 => return some (← signBits src.modifier 0x80000000 u)
      | .b32 => match src.modifier with
        | .none => return some u
        | .bNot => return some (~~~u)
        | _ => .error (.panic "Not a bitwise source modifier")
      | _ => do
        assertThat src.isUnmodified "self.is_unmodified()"
        return some u

end Src

/-- A constant operand without modifiers has the same value at every type. -/
theorem Src.asU32_unmodified {src : Src} (unmodified : src.isUnmodified) (type : SrcType) :
    src.asU32 type = .ok src.immediate := by
  unfold Src.asU32
  cases src.immediate with
  | none => rfl
  | some u => exact if_pos unmodified

end CoralReef
