import CoralReef.Codegen.Ir.Fold
import CoralReef.Codegen.Ir.Prmt

/-!
# The builder

`codegen/builder`: the helpers of `Builder` and `SSABuilder` that emit integer code, and the folds of
the instructions they emit. A carry is a truth value in a register of the carry file. What aborts has
no value; debug assertions are checked, as in a debug build.
-/

namespace CoralReef

structure OpIAdd2X where
  dsts : Fin 2 → Dst
  srcs : Fin 3 → Src

structure OpIAdd3X where
  dsts : Fin 3 → Dst
  srcs : Fin 5 → Src

structure OpLea where
  dsts : Fin 2 → Dst
  srcs : Fin 3 → Src
  shift : Nat
  dstHigh : Bool
  intermediateMod : SrcMod

structure OpLeaX where
  dsts : Fin 2 → Dst
  srcs : Fin 4 → Src
  shift : Nat
  dstHigh : Bool
  intermediateMod : SrcMod

namespace SrcMod

def isINeg : SrcMod → Except Fault Bool
  | .none => .ok false
  | .iNeg => .ok true
  | _ => .error (.panic "Not an integer modifier")

def isBNot : SrcMod → Except Fault Bool
  | .none => .ok false
  | .bNot => .ok true
  | _ => .error (.panic "Not a bitwise modifier")

def iNegated : SrcMod → Except Fault SrcMod
  | .none => .ok .iNeg
  | .iNeg => .ok .none
  | _ => .error (.panic "Not an integer source modifier")

def bNotted : SrcMod → Except Fault SrcMod
  | .none => .ok .bNot
  | .bNot => .ok .none
  | _ => .error (.panic "Not a boolean source modifier")

end SrcMod

namespace Src

/-- `Src::ineg`. -/
def ineg (src : Src) : Except Fault Src := do
  return { src with modifier := ← src.modifier.iNegated }

/-- `Src::bnot`. -/
def bnot (src : Src) : Except Fault Src := do
  return { src with modifier := ← src.modifier.bNotted }

/-- `Src::is_zero`. -/
def isZero (src : Src) : Bool :=
  (match src.reference with
    | .zero | .imm32 0 => true
    | _ => false) &&
  match src.modifier with
  | .none | .fAbs => true
  | .fNeg | .fNegAbs | .bNot | .iNeg => false

end Src

namespace Env

variable (env : Env)

/-- What `OpIAdd2::fold` and `OpIAdd3::fold` add up for an operand, in 64 bits. -/
def addend (src : Src) : Option Nat := do
  let x ← env.getU32Src src
  match src.modifier.isINeg with
  | .ok negated => return if negated then (~~~x).toNat + 1 else x.toNat
  | .error _ => none

/-- `get_carry_src`. -/
def getCarrySrc (src : Src) : Option Bool :=
  match src.reference with
  | .ssa [x] => if x.file = .carry then Value.pred? (env x) else none
  | _ => none

end Env

/-- A sum in 64 bits: the low word, and whether it reaches a multiple of `2 ^ 32`. -/
def sumWord (sum : Nat) : Option Value := some (.word (BitVec.ofNat 32 sum))

def sumReaches (sum carries : Nat) : Option Value := some (.pred (carries * 2 ^ 32 ≤ sum))

/-- `OpIAdd2::fold`. -/
def OpIAdd2.foldAll (op : OpIAdd2) (env : Env) : Fin 2 → Option Value := fun i => do
  let sum := (← env.addend (op.srcs 0)) + (← env.addend (op.srcs 1))
  if i = 0 then sumWord sum else sumReaches sum 1

/-- `OpIAdd2X::fold`. -/
def OpIAdd2X.foldAll (op : OpIAdd2X) (env : Env) : Fin 2 → Option Value := fun i => do
  let a ← env.getU32BnotSrc (op.srcs 0)
  let b ← env.getU32BnotSrc (op.srcs 1)
  let sum := a.toNat + b.toNat + (← env.getCarrySrc (op.srcs 2)).toNat
  if i = 0 then sumWord sum else sumReaches sum 1

/-- `OpIAdd3::fold`. -/
def OpIAdd3.foldAll (op : OpIAdd3) (env : Env) : Fin 3 → Option Value := fun i => do
  let sum := (← env.addend (op.srcs 0)) + (← env.addend (op.srcs 1)) + (← env.addend (op.srcs 2))
  if i = 0 then sumWord sum else sumReaches sum i

/-- `OpIAdd3X::fold`. -/
def OpIAdd3X.foldAll (op : OpIAdd3X) (env : Env) : Fin 3 → Option Value := fun i => do
  let a ← env.getU32BnotSrc (op.srcs 0)
  let b ← env.getU32BnotSrc (op.srcs 1)
  let c ← env.getU32BnotSrc (op.srcs 2)
  let sum := a.toNat + b.toNat + c.toNat + (← env.getPredSrc (op.srcs 3)).toNat +
    (← env.getPredSrc (op.srcs 4)).toNat
  if i = 0 then sumWord sum else sumReaches sum i

/-- The shifted operand of `OpLea` and `OpLeaX`; other amounts overflow a shift or a subtraction. -/
def leaShift (dstHigh : Bool) (shift : Nat) (a aHigh : BitVec 32) : Option (BitVec 32) :=
  if dstHigh then
    if shift ≤ 32 then some (((aHigh ++ a) >>> (32 - shift)).setWidth 32) else none
  else if shift < 32 then some (a <<< shift) else none

/-- `u32::overflowing_add`. -/
def overflowingAdd (x y : BitVec 32) : BitVec 32 × Bool := (x + y, decide (2 ^ 32 ≤ x.toNat + y.toNat))

/-- `OpLea::fold`. -/
def OpLea.foldAll (op : OpLea) (env : Env) : Fin 2 → Option Value := fun i => do
  let a ← env.getU32Src (op.srcs 0)
  let b ← env.getU32Src (op.srcs 1)
  let aHigh ← env.getU32Src (op.srcs 2)
  let shifted ← leaShift op.dstHigh op.shift a aHigh
  let (shifted, o₁) ← (op.intermediateMod.isINeg.toOption.map fun negated =>
    if negated then overflowingAdd (~~~shifted) 1 else (shifted, false))
  let (b, o₂) ← ((op.srcs 1).modifier.isINeg.toOption.map fun negated =>
    if negated then overflowingAdd (~~~b) 1 else (b, false))
  let (dst, o₃) := overflowingAdd shifted b
  return if i = 0 then .word dst else .pred (o₁ || o₂ || o₃)

/-- `OpLeaX::fold`. -/
def OpLeaX.foldAll (op : OpLeaX) (env : Env) : Fin 2 → Option Value := fun i => do
  let a ← env.getU32Src (op.srcs 0)
  let b ← env.getU32Src (op.srcs 1)
  let aHigh ← env.getU32Src (op.srcs 2)
  let carry ← env.getPredSrc (op.srcs 3)
  let shifted ← leaShift op.dstHigh op.shift a aHigh
  let shifted ← op.intermediateMod.isBNot.toOption.map fun negated =>
    if negated then ~~~shifted else shifted
  let b ← (op.srcs 1).modifier.isBNot.toOption.map fun negated => if negated then ~~~b else b
  let (dst, o₁) := overflowingAdd shifted b
  let (dst, o₂) := overflowingAdd dst (if carry then 1 else 0)
  return if i = 0 then .word dst else .pred (o₁ || o₂)

/-- `OpPrmt::fold`. -/
def OpPrmt.fold (op : OpPrmt) (env : Env) : Option Value := do
  let x ← env.getU32Src (op.srcs 0)
  let y ← env.getU32Src (op.srcs 1)
  let sel ← env.getU32Src op.sel
  if op.mode = .index then return .word (PrmtSel.fold ⟨sel.setWidth 16⟩ ![x, y]) else none

/-- The instructions of the builder: `value` for those with one result. -/
inductive BuilderOp where
  | iAdd2 (op : OpIAdd2)
  | iAdd2X (op : OpIAdd2X)
  | iAdd3 (op : OpIAdd3)
  | iAdd3X (op : OpIAdd3X)
  | lea (op : OpLea)
  | leaX (op : OpLeaX)
  | prmt (op : OpPrmt)
  | value (op : ValueOp)

namespace BuilderOp

/-- The destinations of an op with the values it gives them. -/
def results (env : Env) : BuilderOp → List (Dst × Option Value)
  | .iAdd2 op => (List.finRange 2).map fun i => (op.dsts i, op.foldAll env i)
  | .iAdd2X op => (List.finRange 2).map fun i => (op.dsts i, op.foldAll env i)
  | .iAdd3 op => (List.finRange 3).map fun i => (op.dsts i, op.foldAll env i)
  | .iAdd3X op => (List.finRange 3).map fun i => (op.dsts i, op.foldAll env i)
  | .lea op => (List.finRange 2).map fun i => (op.dsts i, op.foldAll env i)
  | .leaX op => (List.finRange 2).map fun i => (op.dsts i, op.foldAll env i)
  | .prmt op => [(op.dst, op.fold env)]
  | .value _ => []

/-- The effect of an op. -/
def exec (sm : Nat) (env : Env) : BuilderOp → Env
  | .value op => op.exec noFold sm env
  | op => assign env ((op.results env).flatMap fun entry => entry.1.iterSsa.map (·, entry.2))

/-- The effect of a sequence. -/
def run (sm : Nat) (env : Env) (ops : List BuilderOp) : Env := ops.foldl (exec sm) env

end BuilderOp

structure Builder where
  sm : Nat
  ssaAlloc : SSAValueAllocator := {}
  instrs : List BuilderOp := []

namespace Builder

abbrev BuilderM := StateT Builder (Except Fault)

/-- `Src::ZERO`, or `0.into()`. -/
def zero : Src := { reference := .zero }

/-- `true.into()`. -/
def pTrue : Src := { reference := .boolTrue }

/-- `false.into()`. -/
def pFalse : Src := { reference := .boolFalse }

def allocSsa (file : RegFile) : BuilderM SSAValue := fun b =>
  let (ssa, ssaAlloc) := b.ssaAlloc.alloc file
  .ok (ssa, { b with ssaAlloc })

/-- `alloc_ssa_vec` of two components. -/
def allocSsaPair (file : RegFile) : BuilderM (SSAValue × SSAValue) := do
  return (← allocSsa file, ← allocSsa file)

def pushOp (op : BuilderOp) : BuilderM Unit := fun b =>
  .ok ((), { b with instrs := b.instrs ++ [op] })

def fail {α : Type} (text : String) : BuilderM α := StateT.lift (.error (.panic text))

/-- The halves of a 64-bit operand that is read as it is. -/
def pairOf (src : Src) (text : String) : BuilderM (SSAValue × SSAValue) :=
  match src.asSsa with
  | some (lo :: hi :: _) => pure (lo, hi)
  | some _ => fail "index out of bounds"
  | none => fail text

/-! ## Shifts -/

def shl (x shift : Src) : BuilderM SSAValue := do
  let dst ← allocSsa .gpr
  if 70 ≤ (← get).sm then
    pushOp (.value (.shf { dst := .ofSsa dst, srcs := ![x, zero, shift], right := false, wrap := true
                           dataType := .i32, dstHigh := false }))
  else
    pushOp (.value (.shl { dst := .ofSsa dst, srcs := ![x, shift], wrap := true }))
  return dst

def shl64 (x shift : Src) : BuilderM (SSAValue × SSAValue) := do
  let (x₀, x₁) ← pairOf x "shl64 requires 64-bit SSA source (SSARef with 2 components)"
  StateT.lift (assertThat shift.isUnmodified "assertion failed: shift.is_unmodified()")
  let dst ← allocSsaPair .gpr
  if 70 ≤ (← get).sm then
    pushOp (.value (.shf { dst := .ofSsa dst.1, srcs := ![.ofSsa x₀, zero, shift], right := false
                           wrap := true, dataType := .u64, dstHigh := false }))
  else
    pushOp (.value (.shf { dst := .ofSsa dst.1, srcs := ![zero, .ofSsa x₀, shift], right := false
                           wrap := true, dataType := .u64, dstHigh := true }))
  pushOp (.value (.shf { dst := .ofSsa dst.2, srcs := ![.ofSsa x₀, .ofSsa x₁, shift], right := false
                         wrap := true, dataType := .u64, dstHigh := true }))
  return dst

def shr (x shift : Src) (signed : Bool) : BuilderM SSAValue := do
  let dst ← allocSsa .gpr
  if 70 ≤ (← get).sm then
    pushOp (.value (.shf { dst := .ofSsa dst, srcs := ![zero, x, shift], right := true, wrap := true
                           dataType := if signed then .i32 else .u32, dstHigh := true }))
  else
    pushOp (.value (.shr { dst := .ofSsa dst, srcs := ![x, shift], wrap := true, signed }))
  return dst

def shr64 (x shift : Src) (signed : Bool) : BuilderM (SSAValue × SSAValue) := do
  let (x₀, x₁) ← pairOf x "shr64 requires 64-bit SSA source (SSARef with 2 components)"
  StateT.lift (assertThat shift.isUnmodified "assertion failed: shift.is_unmodified()")
  let dst ← allocSsaPair .gpr
  pushOp (.value (.shf { dst := .ofSsa dst.1, srcs := ![.ofSsa x₀, .ofSsa x₁, shift], right := true
                         wrap := true, dataType := if signed then .i64 else .u64, dstHigh := false }))
  pushOp (.value (.shf { dst := .ofSsa dst.2, srcs := ![zero, .ofSsa x₁, shift], right := true
                         wrap := true, dataType := if signed then .i64 else .u64, dstHigh := true }))
  return dst

def urol (x shift : Src) : BuilderM SSAValue := do
  let dst ← allocSsa .gpr
  StateT.lift (assertThat (32 ≤ (← get).sm) "assertion failed: self.sm() >= 32")
  pushOp (.value (.shf { dst := .ofSsa dst, srcs := ![x, x, shift], right := false, wrap := true
                         dataType := .u32, dstHigh := true }))
  return dst

def uror (x shift : Src) : BuilderM SSAValue := do
  let dst ← allocSsa .gpr
  StateT.lift (assertThat (32 ≤ (← get).sm) "assertion failed: self.sm() >= 32")
  pushOp (.value (.shf { dst := .ofSsa dst, srcs := ![x, x, shift], right := true, wrap := true
                         dataType := .u32, dstHigh := false }))
  return dst

/-! ## Sums and comparisons of 64 bits -/

/-- `split_iadd64_src`. -/
def splitIadd64Src (src : Src) : Except Fault (Src × Src) :=
  match src.reference with
  | .zero => .ok (zero, zero)
  | .ssa (lo :: hi :: _) => do
    if ← src.modifier.isINeg then return (← (Src.ofSsa lo).ineg, ← (Src.ofSsa hi).bnot)
    else return (.ofSsa lo, .ofSsa hi)
  | .ssa _ => .error (.panic "index out of bounds")
  | _ => .error (.panic "Unsupported iadd64 source")

def iadd64 (x y z : Src) : BuilderM (SSAValue × SSAValue) := do
  let is3Src := !x.isZero && !y.isZero && !z.isZero
  let (x₀, x₁) ← StateT.lift (splitIadd64Src x)
  let (y₀, y₁) ← StateT.lift (splitIadd64Src y)
  let dst ← allocSsaPair .gpr
  if 70 ≤ (← get).sm then
    let carry1 ← allocSsa .pred
    let (carry2Dst, carry2Src) ←
      if is3Src then do
        let carry2 ← allocSsa .pred
        pure (Dst.ofSsa carry2, Src.ofSsa carry2)
      else pure (Dst.none, pFalse)
    let (z₀, z₁) ← StateT.lift (splitIadd64Src z)
    pushOp (.iAdd3 { dsts := ![.ofSsa dst.1, .ofSsa carry1, carry2Dst], srcs := ![x₀, y₀, z₀] })
    pushOp (.iAdd3X { dsts := ![.ofSsa dst.2, .none, .none]
                      srcs := ![x₁, y₁, z₁, .ofSsa carry1, carry2Src] })
  else
    StateT.lift (assertThat z.isZero "assertion failed: z.is_zero()")
    let carry ← allocSsa .carry
    pushOp (.iAdd2 { dsts := ![.ofSsa dst.1, .ofSsa carry], srcs := ![x₀, y₀] })
    pushOp (.iAdd2X { dsts := ![.ofSsa dst.2, .none], srcs := ![x₁, y₁, .ofSsa carry] })
  return dst

def ineg64 (x : Src) : BuilderM (SSAValue × SSAValue) := do
  iadd64 zero (← StateT.lift x.ineg) zero

def isetp (cmpType : IntCmpType) (cmpOp : IntCmpOp) (x y : Src) : BuilderM SSAValue := do
  let dst ← allocSsa .pred
  pushOp (.value (.iSetP { dst := .ofSsa dst, setOp := .and, cmpOp, cmpType, ex := false
                           srcs := ![x, y, pTrue, pTrue] }))
  return dst

def isetp64 (cmpType : IntCmpType) (cmpOp : IntCmpOp) (x y : Src) : BuilderM SSAValue := do
  let (x₀, x₁) ← pairOf x "isetp64 requires 64-bit SSA sources (SSARef with 2 components)"
  let (y₀, y₁) ← pairOf y "isetp64 requires 64-bit SSA sources (SSARef with 2 components)"
  -- The low halves are always compared unsigned.
  let low ← isetp .u32 cmpOp (.ofSsa x₀) (.ofSsa y₀)
  let dst ← allocSsa .pred
  match cmpOp with
  | .false | .true => fail "These don't make sense for the builder helper"
  | .eq | .ne =>
    pushOp (.value (.iSetP { dst := .ofSsa dst, setOp := if cmpOp = .eq then .and else .or, cmpOp
                             cmpType := .u32, ex := false
                             srcs := ![.ofSsa x₁, .ofSsa y₁, .ofSsa low, pTrue] }))
  | .ge | .gt | .le | .lt =>
    if 70 ≤ (← get).sm then
      pushOp (.value (.iSetP { dst := .ofSsa dst, setOp := .and, cmpOp, cmpType, ex := true
                               srcs := ![.ofSsa x₁, .ofSsa y₁, pTrue, .ofSsa low] }))
    else
      let lowAndHighEq ← allocSsa .pred
      pushOp (.value (.iSetP { dst := .ofSsa lowAndHighEq, setOp := .and, cmpOp := .eq
                               cmpType := .u32, ex := false
                               srcs := ![.ofSsa x₁, .ofSsa y₁, .ofSsa low, pTrue] }))
      -- A strict comparison of the high halves is false where they are equal.
      pushOp (.value (.iSetP { dst := .ofSsa dst, setOp := .or
                               cmpOp := if cmpOp = .lt ∨ cmpOp = .le then .lt else .gt, cmpType
                               ex := false
                               srcs := ![.ofSsa x₁, .ofSsa y₁, .ofSsa lowAndHighEq, pTrue] }))
  return dst

def copyTo (dst : Dst) (src : Src) : BuilderM Unit := pushOp (.value (.copy { dst, src }))

def lea64 (a b : Src) (shift : Nat) : BuilderM (SSAValue × SSAValue) := do
  StateT.lift (assertThat (70 ≤ (← get).sm) "assertion failed: self.sm() >= 70")
  StateT.lift (assertThat a.isUnmodified "assertion failed: a.is_unmodified()")
  StateT.lift (assertThat b.isUnmodified "assertion failed: b.is_unmodified()")
  let (a₀, a₁) ← pairOf a "lea64 requires 64-bit SSA sources (SSARef with 2 components)"
  let (b₀, b₁) ← pairOf b "lea64 requires 64-bit SSA sources (SSARef with 2 components)"
  let dst ← allocSsaPair .gpr
  let shift := shift % 64
  if 32 ≤ shift then
    copyTo (.ofSsa dst.1) (.ofSsa b₀)
    pushOp (.lea { dsts := ![.ofSsa dst.2, .none], srcs := ![.ofSsa a₀, .ofSsa b₁, zero]
                   dstHigh := false, shift := shift - 32, intermediateMod := .none })
  else
    let carry ← allocSsa .pred
    pushOp (.lea { dsts := ![.ofSsa dst.1, .ofSsa carry], srcs := ![.ofSsa a₀, .ofSsa b₀, zero]
                   dstHigh := false, shift, intermediateMod := .none })
    pushOp (.leaX { dsts := ![.ofSsa dst.2, .none]
                    srcs := ![.ofSsa a₀, .ofSsa b₁, .ofSsa a₁, .ofSsa carry]
                    dstHigh := true, shift, intermediateMod := .none })
  return dst

/-! ## Logic and bytes -/

end Builder

/-- `LogicOp2::to_lut`. -/
def LogicOp2.toLut : LogicOp2 → LogicOp3
  | .and => .newLut fun x y _ => x &&& y
  | .or => .newLut fun x y _ => x ||| y
  | .xor => .newLut fun x y _ => x ^^^ y
  | .passB => .newLut fun _ b _ => b

namespace Builder

/-- The table with an inverted first or second input, where the operand is inverted. -/
def foldBNot (op : LogicOp3) (first : Bool) (src : Src) : Except Fault (LogicOp3 × Src) := do
  if ← src.modifier.isBNot then
    return (.newLut fun x y _ => if first then op.eval (~~~x) y 0 else op.eval x (~~~y) 0,
      { src with modifier := .none })
  else return (op, src)

def lop2To (dst : Dst) (op : LogicOp2) (x y : Src) : BuilderM Unit := do
  let isPredicate ← match dst with
    | .none => fail "assertion failed: No LOP destination"
    | .ssa vec => pure ((fileOf vec).any RegFile.isPredicate)
    | .reg reg => pure reg.file.isPredicate
  StateT.lift (assertThat (x.reference.isPredicate = isPredicate)
    "assertion failed: x.is_predicate() == is_predicate")
  StateT.lift (assertThat (y.reference.isPredicate = isPredicate)
    "assertion failed: y.is_predicate() == is_predicate")
  if 70 ≤ (← get).sm then
    let (table, x) ← StateT.lift (foldBNot op.toLut true x)
    let (table, y) ← StateT.lift (foldBNot table false y)
    if isPredicate then
      pushOp (.value (.pLop3 { dsts := ![dst, .none], srcs := ![x, y, pTrue]
                               ops := ![table, .newConst false] }))
    else
      pushOp (.value (.lop3 { dst, srcs := ![x, y, zero], op := table }))
  else if isPredicate then
    let (x, cmpOp) := match op with
      | .and => (x, PredSetOp.and)
      | .or => (x, .or)
      | .xor => (x, .xor)
      | .passB => (pTrue, .and)
    pushOp (.value (.pSetP { dsts := ![dst, .none], ops := ![cmpOp, .and], srcs := ![x, y, pTrue] }))
  else
    pushOp (.value (.lop2 { dst, srcs := ![x, y], op }))

def lop2 (op : LogicOp2) (x y : Src) : BuilderM SSAValue := do
  let dst ← allocSsa (if x.reference.isPredicate then .pred else .gpr)
  lop2To (.ofSsa dst) op x y
  return dst

/-- The word of four nibbles. -/
def selU32 (sel : Fin 4 → Nat) : BitVec 32 :=
  (List.finRange 4).foldl (fun word i => word ||| BitVec.ofNat 32 (sel i) <<< (i.val * 4)) 0

def prmtTo (dst : Dst) (x y : Src) (sel : Fin 4 → Nat) : BuilderM Unit := do
  if ∀ i, sel i = i then copyTo dst x
  else if ∀ i, sel i = 4 + i then copyTo dst y
  else
    StateT.lift (assertThat (∀ i, sel i < 16) "assertion failed: sel[i] < 16")
    pushOp (.prmt { dst, srcs := ![x, y, { reference := .ofU32 (selU32 sel) }], mode := .index })

def prmt (x y : Src) (sel : Fin 4 → Nat) : BuilderM SSAValue := do
  let dst ← allocSsa .gpr
  prmtTo (.ofSsa dst) x y sel
  return dst

def prmt4 (src : Fin 4 → Src) (sel : Fin 4 → Nat) : BuilderM SSAValue := do
  let maxSel := max (max (sel 0) (sel 1)) (max (sel 2) (sel 3))
  if maxSel < 8 then prmt (src 0) (src 1) sel
  else if maxSel < 12 then
    let selA := fun i => if sel i < 8 then sel i else 0
    let selB := fun i : Fin 4 => if sel i < 8 then i.val else (sel i - 8) + 4
    let a ← prmt (src 0) (src 1) selA
    prmt (.ofSsa a) (src 2) selB
  else if maxSel < 16 then
    let selA := fun i => if sel i < 8 then sel i else 0
    let selB := fun i => if sel i < 8 then 0 else sel i - 8
    let selC := fun i : Fin 4 => if sel i < 8 then i.val else 4 + i.val
    let a ← prmt (src 0) (src 1) selA
    let b ← prmt (src 2) (src 3) selB
    prmt (.ofSsa a) (.ofSsa b) selC
  else fail s!"Invalid permute value: {maxSel}"

def sel (cond x y : Src) : BuilderM SSAValue := do
  StateT.lift (assertThat cond.reference.isPredicate "assertion failed: cond.reference.is_predicate()")
  StateT.lift (assertThat (x.reference.isPredicate = y.reference.isPredicate)
    "assertion failed: x.is_predicate() == y.is_predicate()")
  if x.reference.isPredicate then
    let dst ← allocSsa .pred
    if 70 ≤ (← get).sm then
      pushOp (.value (.pLop3 { dsts := ![.ofSsa dst, .none], srcs := ![cond, x, y]
                               ops := ![.newLut fun c x y => (c &&& x) ||| (~~~c &&& y),
                                 .newConst false] }))
    else
      let tmp ← allocSsa .pred
      pushOp (.value (.pSetP { dsts := ![.ofSsa tmp, .none], ops := ![.and, .and]
                               srcs := ![cond, x, pTrue] }))
      let notCond ← StateT.lift cond.bnot
      pushOp (.value (.pSetP { dsts := ![.ofSsa dst, .none], ops := ![.and, .or]
                               srcs := ![notCond, y, .ofSsa tmp] }))
    return dst
  else
    let dst ← allocSsa .gpr
    pushOp (.value (.sel { dst := .ofSsa dst, srcs := ![cond, x, y] }))
    return dst

end Builder

end CoralReef
