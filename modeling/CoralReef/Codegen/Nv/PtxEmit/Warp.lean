import CoralReef.Misc.FloatFormat
import CoralReef.Misc.PrefixFold
import CoralReef.Codegen.Nv.PtxEmit.Subgroup

/-!
# A full warp

What the instructions of subgroup operations do with the registers of 32 lanes, which of them PTX
admits, and what naga says of the operations. How floats are computed is a parameter.
-/

namespace CoralReef.Ptx

open NagaTranslate (Scalar)
open PrefixFold (Combines)

abbrev Lane := Fin 32

/-- What a register holds in a lane. -/
inductive Cell where
  | b32 (x : BitVec 32)
  | b64 (x : BitVec 64)
  | pred (b : Bool)
  deriving DecidableEq, Repr

namespace Cell

def asB32 : Cell → BitVec 32
  | b32 x => x
  | _ => 0

def asB64 : Cell → BitVec 64
  | b64 x => x
  | _ => 0

def asPred : Cell → Bool
  | pred b => b
  | _ => false

end Cell

/-! ## Arithmetic -/

inductive FloatOp where
  | add | mul | min | max
  deriving DecidableEq, Repr

def floatFormat (w : Nat) : FloatFormat :=
  if w = 16 then .binary16 else if w = 32 then .binary32 else .binary64

/-- The value that takes every other one in. -/
def FloatOp.absorbing : FloatOp → FloatNumber
  | .add | .mul => .nan
  | .min => .infinite true
  | .max => .infinite false

/-- Operations on floats: a NaN is not lost in a sum or product, nor is the least value in a minimum
or the greatest in a maximum. -/
structure FloatOps where
  op : FloatOp → {w : Nat} → BitVec w → BitVec w → BitVec w
  left : ∀ (o : FloatOp) {w : Nat} (a b : BitVec w),
    (floatFormat w).decode a.toNat = o.absorbing →
      (floatFormat w).decode (op o a b).toNat = o.absorbing
  right : ∀ (o : FloatOp) {w : Nat} (a b : BitVec w),
    (floatFormat w).decode b.toNat = o.absorbing →
      (floatFormat w).decode (op o a b).toNat = o.absorbing

inductive TypeKind where
  | unsigned | signed | float
  deriving DecidableEq, Repr

namespace PtxType

def kind : PtxType → TypeKind
  | u32 | u64 => .unsigned
  | s32 | s64 => .signed
  | f32 | f64 => .float

def is64 : PtxType → Bool
  | u64 | s64 | f64 => true
  | u32 | s32 | f32 => false

end PtxType

namespace WarpOp

/-- The operation on floats, which `mul.lo` and the bitwise ones have not. -/
def floatOp : WarpOp → Option FloatOp
  | add => some .add
  | mul => some .mul
  | min => some .min
  | max => some .max
  | mulLo | and | or | xor => none

/-- The lesser value, by the order of the kind. -/
def lesser {w : Nat} (signed : Bool) (a b : BitVec w) : BitVec w :=
  if (if signed then a.sle b else a.ule b) then a else b

/-- The greater value, by the order of the kind. -/
def greater {w : Nat} (signed : Bool) (a b : BitVec w) : BitVec w :=
  if (if signed then a.sle b else a.ule b) then b else a

def evalInt {w : Nat} (op : WarpOp) (signed : Bool) (a b : BitVec w) : BitVec w :=
  match op with
  | add => a + b
  | mul | mulLo => a * b
  | min => lesser signed a b
  | max => greater signed a b
  | and => a &&& b
  | or => a ||| b
  | xor => a ^^^ b

/-- The value that changes no other one. -/
def identity {w : Nat} (op : WarpOp) (signed : Bool) : BitVec w :=
  match op with
  | add | or | xor => 0
  | mul | mulLo => 1
  | and => BitVec.allOnes w
  | min => if signed then BitVec.intMax w else BitVec.allOnes w
  | max => if signed then BitVec.intMin w else 0

def eval {w : Nat} (floats : FloatOps) (op : WarpOp) (kind : TypeKind) (a b : BitVec w) :
    BitVec w :=
  match kind, op.floatOp with
  | .float, some o => floats.op o a b
  | _, _ => op.evalInt (kind = .signed) a b

end WarpOp

/-! ## Instructions -/

namespace WarpInstr

/-- `segmask` and `cval` of the third operand of `shfl.sync`. -/
def segmask (c : Nat) : BitVec 5 := BitVec.ofNat 5 (c / 2 ^ 8)

def cval (c : Nat) : BitVec 5 := BitVec.ofNat 5 c

/-- The lane that `shfl.sync` reads, and whether it is in range. -/
def shflSource (mode : ShflMode) (bval : BitVec 5) (c : Nat) (lane : Lane) : Lane × Bool :=
  let l := BitVec.ofNat 5 lane.1
  let maxLane := (l &&& segmask c) ||| (cval c &&& ~~~segmask c)
  let minLane := l &&& segmask c
  let (j, inRange) : Int × Bool := match mode with
    | .up => (l.toNat - bval.toNat, maxLane.toNat ≤ (l.toNat - bval.toNat : Int))
    | .down => (l.toNat + bval.toNat, (l.toNat + bval.toNat : Int) ≤ maxLane.toNat)
    | .bfly => ((l ^^^ bval).toNat, (l ^^^ bval) ≤ maxLane)
    | .idx => ((minLane ||| (bval &&& ~~~segmask c)).toNat,
        (minLane ||| (bval &&& ~~~segmask c)) ≤ maxLane)
  (if inRange then ⟨j.toNat % 32, Nat.mod_lt _ (by decide)⟩ else lane, inRange)

def writes : WarpInstr → List Reg
  | redux _ _ d _ _ | mov _ d _ | guarded _ _ _ d _ _ | selp _ d _ _ _ => [d]
  | shfl _ d p _ _ _ _ => d :: p.toList

/-- The operand of a shuffle in a lane. -/
def bval (env : Reg → Lane → Cell) : Operand → Lane → BitVec 5
  | .reg r, lane => (env r lane).asB32.setWidth 5
  | .imm value, _ => BitVec.ofNat 5 value

/-- The result of arithmetic on registers of the width of the type. -/
def arith (floats : FloatOps) (op : WarpOp) (type : PtxType) (a b : Cell) : Cell :=
  if type.is64 then .b64 (op.eval floats type.kind a.asB64 b.asB64)
  else .b32 (op.eval floats type.kind a.asB32 b.asB32)

/-- The registers after an instruction in which all 32 lanes take part. -/
def exec (floats : FloatOps) (instr : WarpInstr) (env : Reg → Lane → Cell) : Reg → Lane → Cell :=
  match instr with
  | redux op type d a _ =>
    let values := (List.finRange 32).map fun lane => (env a lane).asB32
    let signed : Bool := type.kind = .signed
    Function.update env d fun _ => .b32 (values.foldr (op.evalInt signed) (op.identity signed))
  | mov _ d a => Function.update env d (env a)
  | shfl mode d p a b c _ =>
    let source lane := shflSource mode (bval env b lane) c lane
    let env' := Function.update env d fun lane => env a (source lane).1
    match p with
    | none => env'
    | some p => Function.update env' p fun lane => .pred (source lane).2
  | guarded guard op type d a b => Function.update env d fun lane =>
      if (env guard lane).asPred then arith floats op type (env a lane) (env b lane) else env d lane
  | selp type d a b p => Function.update env d fun lane =>
      if (env p lane).asPred then env a lane
      else if type.is64 then .b64 (BitVec.ofNat 64 b)
      else .b32 (BitVec.ofNat 32 b)

theorem exec_frame (floats : FloatOps) (instr : WarpInstr) (env : Reg → Lane → Cell) (r : Reg)
    (kept : r ∉ instr.writes) : instr.exec floats env r = env r := by
  have other : ∀ {d : Reg} {rest : List Reg}, r ∉ d :: rest → r ≠ d :=
    fun kept same => kept (same ▸ List.mem_cons_self)
  cases instr with
  | redux op type d a mask => exact Function.update_of_ne (other kept) _ _
  | mov type d a => exact Function.update_of_ne (other kept) _ _
  | guarded guard op type d a b => exact Function.update_of_ne (other kept) _ _
  | selp type d a b p => exact Function.update_of_ne (other kept) _ _
  | shfl mode d p a b c mask =>
    cases p with
    | none => exact Function.update_of_ne (other kept) _ _
    | some p =>
      have notP : r ≠ p := fun same => kept (same ▸ List.mem_cons_of_mem d List.mem_cons_self)
      exact (Function.update_of_ne notP _ _).trans (Function.update_of_ne (other kept) _ _)

/-! ## What PTX admits -/

/-- Registers are declared without a type: they fit one of their width. -/
def fits (type : PtxType) : Reg → Bool
  | .r _ => !type.is64
  | .rd _ => type.is64
  | .p _ => false

def isB32 : Reg → Bool
  | .r _ => true
  | _ => false

def isPred : Reg → Bool
  | .p _ => true
  | _ => false

/-- `redux.sync` has integers of 32 bits, and its bitwise operations have type `.b32`. -/
def reduxLegal : WarpOp → PtxType → Bool
  | .add, .u32 | .add, .s32 | .min, .u32 | .min, .s32 | .max, .u32 | .max, .s32 => true
  | _, _ => false

/-- `mul` of integers needs a part of the product, and bitwise operations have types `.b32` and
`.b64`. -/
def arithLegal (op : WarpOp) (type : PtxType) : Bool :=
  match op with
  | .add | .min | .max => true
  | .mul => type.kind = .float
  | .mulLo => type.kind ≠ .float
  | .and | .or | .xor => false

/-- An instruction that PTX admits; an integer constant is not an operand of type float. -/
def legal : WarpInstr → Bool
  | redux op type d a _ => reduxLegal op type && isB32 d && isB32 a
  | mov type d a => fits type d && fits type a
  | shfl _ d p a b _ _ =>
    isB32 d && isB32 a && p.toList.all isPred &&
      match b with
      | .reg r => isB32 r
      | .imm _ => true
  | guarded guard op type d a b =>
    isPred guard && arithLegal op type && fits type d && fits type a && fits type b
  | selp type d a _ p => decide (type.kind ≠ .float) && fits type d && fits type a && isPred p

end WarpInstr

/-- The warp that runs the instructions. -/
def warp (floats : FloatOps) : Straight.Machine WarpInstr Reg (Lane → Cell) where
  writes := WarpInstr.writes
  exec := WarpInstr.exec floats
  frame := WarpInstr.exec_frame floats

/-! ## What naga says -/

/-- The scalars that naga has. -/
def validScalar (scalar : Scalar) : Bool :=
  match scalar.kind, scalar.width with
  | .bool, 1 | .sint, 4 | .sint, 8 | .uint, 4 | .uint, 8 | .float, 2 | .float, 4 | .float, 8 => true
  | _, _ => false

def bits (scalar : Scalar) : Nat := if scalar.kind = .bool then 1 else 8 * scalar.width

/-- The register that a value of a scalar type is in. -/
def InClass (scalar : Scalar) : PtxVal → Prop
  | .r32 _ => scalar.kind ≠ .bool ∧ scalar.width ≠ 8
  | .rd64 _ => scalar.width = 8
  | .pred _ => scalar.kind = .bool
  | .vec _ => False

def cellOf (scalar : Scalar) (v : BitVec (bits scalar)) : Cell :=
  if scalar.kind = .bool then .pred (v.getLsbD 0)
  else if scalar.width = 8 then .b64 (v.setWidth 64)
  else .b32 (v.setWidth 32)

def valueOf (scalar : Scalar) : Cell → BitVec (bits scalar)
  | .b32 x => x.setWidth _
  | .b64 x => x.setWidth _
  | .pred b => (BitVec.ofBool b).setWidth _

def scalarKind (scalar : Scalar) : TypeKind :=
  match scalar.kind with
  | .sint => .signed
  | .float => .float
  | _ => .unsigned

/-- The operation that a collective folds with. -/
def SubgroupOperation.warpOp : SubgroupOperation → WarpOp
  | .all | .and => .and
  | .any | .or => .or
  | .add => .add
  | .mul => .mul
  | .min => .min
  | .max => .max
  | .xor => .xor

/-- The identity of an operation in a type: for floats 0, 1 or an infinity. -/
def foldIdentity (op : WarpOp) (scalar : Scalar) : BitVec (bits scalar) :=
  let format := floatFormat (bits scalar)
  let infinity := (2 ^ format.exponent - 1) * 2 ^ format.fraction
  match scalarKind scalar, op.floatOp with
  | .float, some .add => 0
  | .float, some .mul => BitVec.ofNat _ (format.encodeInt 1)
  | .float, some .min => BitVec.ofNat _ infinity
  | .float, some .max => BitVec.ofNat _ (2 ^ (format.fraction + format.exponent) + infinity)
  | kind, _ => op.identity (kind = .signed)

/-- The lanes whose values a lane is given the fold of. -/
def CollectiveOperation.lanes (collectiveOp : CollectiveOperation) (lane : Lane) : List Lane :=
  match collectiveOp with
  | .reduce => List.finRange 32
  | .inclusiveScan => (List.finRange 32).filter (· ≤ lane)
  | .exclusiveScan => (List.finRange 32).filter (· < lane)

/-- `v` is the fold of the values: of floats in some order and bracketing. -/
def IsFold (floats : FloatOps) (op : SubgroupOperation) (scalar : Scalar)
    (values : List (BitVec (bits scalar))) (v : BitVec (bits scalar)) : Prop :=
  let kind := scalarKind scalar
  if kind = .float ∧ values ≠ [] then Combines (op.warpOp.eval floats kind) values v
  else v = values.foldr (op.warpOp.eval floats kind) (foldIdentity op.warpOp scalar)

/-- The lane of a number, which past the last lane there is not. -/
def laneOf (n : Nat) : Option Lane := if h : n < 32 then some ⟨n, h⟩ else none

def Direction.mask : Direction → Nat
  | .x => 1
  | .y => 2
  | .diagonal => 3

/-- The lane that a gather reads for a lane; without one the value is undetermined. -/
def GatherMode.source (mode : GatherMode (Lane → BitVec 32)) (lane : Lane) : Option Lane :=
  match mode with
  | broadcastFirst => laneOf 0
  | broadcast index | shuffle index => laneOf (index lane).toNat
  | shuffleDown offset => laneOf (lane.1 + (offset lane).toNat)
  | shuffleUp offset =>
    if (offset lane).toNat ≤ lane.1 then laneOf (lane.1 - (offset lane).toNat) else none
  | shuffleXor mask => laneOf (lane.1 ^^^ (mask lane).toNat)
  | quadBroadcast index =>
    if (index lane).toNat < 4 then laneOf (lane.1 / 4 * 4 + (index lane).toNat) else none
  | quadSwap direction => laneOf (lane.1 ^^^ direction.mask)

end CoralReef.Ptx
