import CoralReef.Codegen.Ir.Atom
import CoralReef.Codegen.NagaTranslate.Types
import CoralReef.Misc.FloatFormat

/-!
# Atomic statements

`emit_atomic` (`naga_translate/func_mem.rs`), from the pointer and the value that `ensure_expr`
gave, and what an atomic statement does: the update of the word its pointer names, and what its
result is.
-/

namespace CoralReef.NagaTranslate

abbrev ExprHandle := Nat

/-- `naga::AtomicFunction`. -/
inductive AtomicFunction where
  | add | subtract | and | exclusiveOr | inclusiveOr | min | max
  | exchange (compare : Option ExprHandle)
  deriving DecidableEq, Repr

/-- What `emit_atomic` sees of the translator. -/
structure MemTranslator where
  ssaAlloc : SSAValueAllocator := {}
  deadCode : Bool := false
  currentInstrs : List OpAtom := []
  exprMap : ExprHandle → Option SSARef := fun _ => none

/-- The op code of a function. -/
def atomOp : AtomicFunction → AtomOp
  | .add => .add
  | .subtract => .add
  | .and => .and
  | .inclusiveOr => .or
  | .exclusiveOr => .xor
  | .min => .min
  | .max => .max
  | .exchange none => .exch
  | .exchange (some _) => .cmpExch .separate

/-- `emit_atomic`. -/
def emitAtomic (addr val : SSARef) (function : AtomicFunction) (result : Option ExprHandle)
    (s : MemTranslator) : Except Fault MemTranslator := do
  let first ← expect val[0]? "index out of bounds"
  let dataSrc : Src :=
    if function = .subtract then { Src.ofSsa first with modifier := .iNeg } else .ofSsa first
  let (resultSsa, ssaAlloc) :=
    if result.isSome then
      let (ssa, ssaAlloc) := s.ssaAlloc.alloc .gpr
      (some ssa, ssaAlloc)
    else (none, s.ssaAlloc)
  let op : OpAtom := {
    dst := (resultSsa.map Dst.ofSsa).getD .none
    srcs := ![{ reference := .ssa addr }, { reference := .zero }, dataSrc]
    atomOp := atomOp function
    atomType := .u32
    addrOffset := 0
    addrStride := .x1
    memSpace := .global .a64
    memOrder := .weak
    memEvictionPriority := .normal }
  let s := { s with ssaAlloc }
  let s := if s.deadCode then s else { s with currentInstrs := s.currentInstrs ++ [op] }
  match result, resultSsa with
  | some handle, some ssa =>
    return { s with exprMap := Function.update s.exprMap handle (some [ssa]) }
  | _, _ => return s

/-- The scalars that an atomic may hold. -/
inductive AtomicTy where
  | u32 | i32 | u64 | i64 | f32
  deriving DecidableEq, Repr

def AtomicTy.bits : AtomicTy → Nat
  | .u32 | .i32 | .f32 => 32
  | .u64 | .i64 => 64

/-- The address space of a pointer to an atomic. -/
inductive AtomicSpace where
  | storage | workGroup
  deriving DecidableEq, Repr

/-- An atomic statement, but for its pointer and its value. -/
structure AtomicStatement where
  function : AtomicFunction
  ty : AtomicTy
  space : AtomicSpace
  result : Option ExprHandle
  deriving DecidableEq, Repr

/-- What the validator lets stand: of the floats, sums, differences and exchanges only. -/
def AtomicStatement.allowed (statement : AtomicStatement) : Bool :=
  match statement.ty, statement.function with
  | .f32, .add | .f32, .subtract | .f32, .exchange none => true
  | .f32, _ => false
  | _, _ => true

/-- The update of an integer. -/
def integerUpdate (function : AtomicFunction) (signed : Bool) {w : Nat}
    (old value compare : BitVec w) : BitVec w :=
  let less (x y : BitVec w) := if signed then x.slt y else x.ult y
  match function with
  | .add => old + value
  | .subtract => old - value
  | .and => old &&& value
  | .exclusiveOr => old ^^^ value
  | .inclusiveOr => old ||| value
  | .min => if less value old then value else old
  | .max => if less old value then value else old
  | .exchange none => value
  | .exchange (some _) => if old = compare then value else old

/-- The bits of the rounded result of an operation on two floats; what an operand that is not a
number gives is left open. -/
def RoundedTo (new : BitVec 32) (op : Rat → Rat → Rat) (a b : BitVec 32) : Prop :=
  match FloatFormat.binary32.decode a.toNat, FloatFormat.binary32.decode b.toNat with
  | .finite a, .finite b =>
    FloatFormat.binary32.decode new.toNat = FloatFormat.binary32.round (op a b)
  | _, _ => True

/-- The update of a float. -/
def FloatUpdates (function : AtomicFunction) (old value new : BitVec 32) : Prop :=
  match function with
  | .add => RoundedTo new (· + ·) old value
  | .subtract => RoundedTo new (· - ·) old value
  | _ => new = value

/-- The update that a statement makes. -/
def Updates (function : AtomicFunction) : (ty : AtomicTy) →
    (old value compare new : BitVec ty.bits) → Prop
  | .u32, old, value, compare, new => new = integerUpdate function false old value compare
  | .i32, old, value, compare, new => new = integerUpdate function true old value compare
  | .u64, old, value, compare, new => new = integerUpdate function false old value compare
  | .i64, old, value, compare, new => new = integerUpdate function true old value compare
  | .f32, old, value, _, new => FloatUpdates function old value new

/-- The words of a value, the lowest first. -/
def wordsOf {w : Nat} (x : BitVec w) : List (BitVec 32) :=
  (List.range (w / 32)).map fun i => x.extractLsb' (32 * i) 32

/-- The words from a place on. -/
def loadWords (memory : Place → BitVec 32) : Place → Nat → List (BitVec 32)
  | _, 0 => []
  | place, n + 1 => memory place :: loadWords memory place.next n

/-- The memory with the words from a place on replaced. -/
def storeWords (memory : Place → BitVec 32) : Place → List (BitVec 32) → Place → BitVec 32
  | _, [] => memory
  | place, word :: words => Function.update (storeWords memory place.next words) place word

/-- The registers of a pointer name the place. -/
def PointsTo (space : AtomicSpace) (env : Env) (addr : SSARef) : Place → Prop
  | .global address => space = .storage ∧ ∃ x y lo hi, addr = [x, y] ∧ env x = some (.word lo) ∧
      env y = some (.word hi) ∧ address = hi ++ lo
  | .shared address => space = .workGroup ∧ ∃ x, addr = [x] ∧ env x = some (.word address)

/-- What the result of a statement is: the words that were there, and for a compare and exchange
whether they were the ones compared with. -/
def resultValues (function : AtomicFunction) {w : Nat} (old compare : BitVec w) :
    List (Option Value) :=
  (wordsOf old).map (fun word => some (.word word)) ++
    match function with
    | .exchange (some _) => [some (.pred (old == compare))]
    | _ => []

/-- The operands of a statement stand in their registers and its word in memory. -/
structure AtomicReady (statement : AtomicStatement) (s : MemTranslator) (m : MemMachine)
    (addr val : SSARef) (place : Place) (old value : BitVec statement.ty.bits) : Prop where
  live : s.deadCode = false
  points : PointsTo statement.space m.env addr place
  holds : val.map m.env = (wordsOf value).map fun word => some (.word word)
  stored : loadWords m.memory place (statement.ty.bits / 32) = wordsOf old

/-- The instruction that is emitted makes the statement's update, changes nothing else, and
leaves the statement's result where its uses will look for it. -/
def AtomicStatement.Right (statement : AtomicStatement) : Prop :=
  ∀ (s : MemTranslator) (m : MemMachine) (addr val : SSARef) (place : Place)
    (old value compare : BitVec statement.ty.bits),
    AtomicReady statement s m addr val place old value →
    ∃ s' op m', emitAtomic addr val statement.function statement.result s = .ok s' ∧
      s'.currentInstrs = s.currentInstrs ++ [op] ∧ op.exec m = some m' ∧
      (∃ new, Updates statement.function statement.ty old value compare new ∧
        m'.memory = storeWords m.memory place (wordsOf new)) ∧
      (∀ x : SSAValue, x.idx ≤ s.ssaAlloc.count → m'.env x = m.env x) ∧
      ∀ handle, statement.result = some handle → ∃ regs, s'.exprMap handle = some regs ∧
        regs.map m'.env = resultValues statement.function old compare

/-- The statements that are translated rightly. -/
def AtomicStatement.Works (statement : AtomicStatement) : Prop :=
  statement.space = .storage ∧
    match statement.function with
    | .add | .and | .inclusiveOr | .exclusiveOr => statement.ty = .u32 ∨ statement.ty = .i32
    | .min | .max => statement.ty = .u32
    | .exchange none => statement.ty = .u32 ∨ statement.ty = .i32 ∨ statement.ty = .f32
    | .subtract | .exchange (some _) => False

end CoralReef.NagaTranslate
