import CoralReef.Codegen.Ir.Fold
import CoralReef.Codegen.Ir.SrcType

/-!
# Atomics

`OpAtom` (`codegen/ir/op_mem.rs`, `codegen/ir/types/mem.rs`): one read and one write of a word of
memory, and the word that was read. An operand that its source type does not take has no meaning:
the encoders assert that none is left. The types other than the two of 32-bit integers, and the
packed form of a compare and exchange, are not emitted before the legalisation.
-/

namespace CoralReef

inductive MemAddrType where
  | a32 | a64
  deriving DecidableEq, Repr

inductive MemSpace where
  | global (addrType : MemAddrType)
  | local
  | shared
  deriving DecidableEq, Repr

inductive MemScope where
  | cta | gpu | system
  deriving DecidableEq, Repr

inductive MemOrder where
  | constant
  | weak
  | strong (scope : MemScope)
  deriving DecidableEq, Repr

inductive MemEvictionPriority where
  | first | normal | last | lastUse | unchanged | noAllocate
  deriving DecidableEq, Repr

inductive OffsetStride where
  | x1 | x4 | x8 | x16
  deriving DecidableEq, Repr

inductive AtomType where
  | f16x2 | u32 | i32 | f32 | u64 | i64 | f64
  deriving DecidableEq, Repr

inductive AtomCmpSrc where
  | separate | packed
  deriving DecidableEq, Repr

inductive AtomOp where
  | add | min | max | inc | dec | and | or | xor | exch
  | cmpExch (cmpSrc : AtomCmpSrc)
  deriving DecidableEq, Repr

/-- The sources are the address, the value to compare with and the data. -/
structure OpAtom where
  dst : Dst
  srcs : Fin 3 → Src
  atomOp : AtomOp
  atomType : AtomType
  addrOffset : Int
  addrStride : OffsetStride
  memSpace : MemSpace
  memOrder : MemOrder
  memEvictionPriority : MemEvictionPriority

/-- A word of memory, by the address of its first byte. -/
inductive Place where
  | global (address : BitVec 64)
  | shared (address : BitVec 32)
  deriving DecidableEq, Repr

/-- The word behind. -/
def Place.next : Place → Place
  | .global address => .global (address + 4)
  | .shared address => .shared (address + 4)

/-- What the SSA values and the words of memory hold. -/
structure MemMachine where
  env : Env
  memory : Place → BitVec 32

def OffsetStride.factor : OffsetStride → Nat
  | .x1 => 1
  | .x4 => 4
  | .x8 => 8
  | .x16 => 16

/-- The word an op writes for the word it read. -/
def AtomOp.eval (op : AtomOp) (signed : Bool) (old cmpr data : BitVec 32) : Option (BitVec 32) :=
  let less (x y : BitVec 32) := if signed then x.slt y else x.ult y
  match op with
  | .add => some (old + data)
  | .min => some (if less data old then data else old)
  | .max => some (if less old data then data else old)
  | .inc => some (if data ≤ old then 0 else old + 1)
  | .dec => some (if old = 0 ∨ data < old then data else old - 1)
  | .and => some (old &&& data)
  | .or => some (old ||| data)
  | .xor => some (old ^^^ data)
  | .exch => some data
  | .cmpExch .separate => some (if old = cmpr then data else old)
  | .cmpExch .packed => none

namespace OpAtom

/-- `#[src_types(GPR, GPR, SSA)]`. -/
def srcTypes : Fin 3 → SrcType := ![.gpr, .gpr, .ssa]

/-- Each source is one that its type takes. -/
def supported (op : OpAtom) : Bool := ∀ i, (op.srcs i).supportsType (srcTypes i) = true

/-- Where the op reads and writes. -/
def place (op : OpAtom) (env : Env) : Option Place :=
  match op.memSpace, (op.srcs 0).reference with
  | .global .a64, .ssa [x, y] => do
    let lo ← Value.word? (env x)
    let hi ← Value.word? (env y)
    return .global
      ((hi ++ lo) * BitVec.ofNat 64 op.addrStride.factor + BitVec.ofInt 64 op.addrOffset)
  | .global .a32, .ssa [x] => do
    let lo ← Value.word? (env x)
    return .global ((lo * BitVec.ofNat 32 op.addrStride.factor +
      BitVec.ofInt 32 op.addrOffset).setWidth 64)
  | .shared, .ssa [x] => do
    let lo ← Value.word? (env x)
    return .shared (lo * BitVec.ofNat 32 op.addrStride.factor + BitVec.ofInt 32 op.addrOffset)
  | _, _ => none

/-- Whether the words are compared as signed numbers. -/
def signed? (op : OpAtom) : Option Bool :=
  match op.atomType with
  | .u32 => some false
  | .i32 => some true
  | _ => none

/-- The effect of the op. -/
def exec (op : OpAtom) (m : MemMachine) : Option MemMachine :=
  if op.supported then do
    let signed ← op.signed?
    let place ← op.place m.env
    let cmpr ← Value.word? (m.env.srcValue (op.srcs 1))
    let data ← Value.word? (m.env.srcValue (op.srcs 2))
    let old := m.memory place
    let new ← op.atomOp.eval signed old cmpr data
    return {
      env := assign m.env (op.dst.iterSsa.map fun x => (x, some (.word old)))
      memory := Function.update m.memory place new }
  else none

end OpAtom

end CoralReef
