import CoralReef.Codegen.NagaTranslate.Types
import CoralReef.Codegen.Nv.PtxEmit.Values

/-!
# Subgroup operations

`codegen/nv/ptx_emit/subgroup.rs`: collectives and gathers, from an argument that is evaluated. What
`emit_subgroup_ballot` does is left out.
-/

namespace CoralReef.Ptx

open NagaTranslate (Scalar)

/-- `naga::SubgroupOperation`. -/
inductive SubgroupOperation where
  | all | any | add | mul | min | max | and | or | xor
  deriving DecidableEq, Repr

/-- `naga::CollectiveOperation`. -/
inductive CollectiveOperation where
  | reduce | inclusiveScan | exclusiveScan
  deriving DecidableEq, Repr

/-- `naga::Direction` of a swap in a quad. -/
inductive Direction where
  | x | y | diagonal
  deriving DecidableEq, Repr

/-- `naga::GatherMode`, by what an index, offset or mask is. -/
inductive GatherMode (Index : Type) where
  | broadcastFirst
  | broadcast (index : Index)
  | shuffle (index : Index)
  | shuffleDown (offset : Index)
  | shuffleUp (offset : Index)
  | shuffleXor (mask : Index)
  | quadBroadcast (index : Index)
  | quadSwap (direction : Direction)
  deriving DecidableEq, Repr

/-- The mode with another index. -/
def GatherMode.withIndex {Index Index' : Type} (mode : GatherMode Index) (index : Index') :
    GatherMode Index' :=
  match mode with
  | broadcastFirst => broadcastFirst
  | broadcast _ => broadcast index
  | shuffle _ => shuffle index
  | shuffleDown _ => shuffleDown index
  | shuffleUp _ => shuffleUp index
  | shuffleXor _ => shuffleXor index
  | quadBroadcast _ => quadBroadcast index
  | quadSwap direction => quadSwap direction

/-- The types that `ptx_atom_type` names. -/
inductive PtxType where
  | u32 | s32 | f32 | u64 | s64 | f64
  deriving DecidableEq, Repr

/-- The operations of `redux.sync` and of the instructions of a scan. -/
inductive WarpOp where
  | add | mul | mulLo | min | max | and | or | xor
  deriving DecidableEq, Repr

inductive ShflMode where
  | up | down | bfly | idx
  deriving DecidableEq, Repr

inductive Operand where
  | reg (r : Reg)
  | imm (value : Nat)
  deriving DecidableEq, Repr

/-- The instructions of subgroup operations. `shfl` is `shfl.sync.MODE.b32`, and `guarded` an
instruction with a guard. -/
inductive WarpInstr where
  | redux (op : WarpOp) (type : PtxType) (d a : Reg) (membermask : Nat)
  | mov (type : PtxType) (d a : Reg)
  | shfl (mode : ShflMode) (d : Reg) (p : Option Reg) (a : Reg) (b : Operand) (c membermask : Nat)
  | guarded (guard : Reg) (op : WarpOp) (type : PtxType) (d a b : Reg)
  | selp (type : PtxType) (d a : Reg) (b : Nat) (p : Reg)
  deriving DecidableEq, Repr

/-- `ptx_atom_type`. -/
def ptxAtomType (scalar : Scalar) : PtxType :=
  match scalar.kind, scalar.width with
  | .uint, 4 => .u32
  | .sint, 4 => .s32
  | .float, 4 => .f32
  | .uint, 8 => .u64
  | .sint, 8 => .s64
  | .float, 8 => .f64
  | _, _ => .u32

/-- `alloc_for_scalar`. -/
def allocForScalar (scalar : Scalar) : PtxM WarpInstr PtxVal :=
  if scalar.width = 8 then allocRd64 else allocR32

/-- `scan_op_str`. -/
def scanOpStr (op : SubgroupOperation) (scalar : Scalar) : Except Fault WarpOp :=
  match op with
  | .add => .ok .add
  | .mul => .ok (if scalar.kind = .float then .mul else .mulLo)
  | .min => .ok .min
  | .max => .ok .max
  | .and => .ok .and
  | .or => .ok .or
  | .xor => .ok .xor
  | .all => .error (.compileError "PTX scan op: All")
  | .any => .error (.compileError "PTX scan op: Any")

/-- `scan_identity`. -/
def scanIdentity (op : SubgroupOperation) (scalar : Scalar) : Nat :=
  match op with
  | .add | .or | .xor => 0
  | .mul => 1
  | .and => 0xFFFFFFFF
  | .min => if scalar.kind = .float then 0x7F800000 else 0x7FFFFFFF
  | .max => if scalar.kind = .float then 0xFF800000 else 0x80000000
  | .all | .any => 0

/-- A step of the loop of `emit_warp_scan`. -/
def emitScanStep (dst tmp pred : Reg) (scanOp : WarpOp) (typeSuffix : PtxType) (offset : Nat) :
    PtxM WarpInstr Unit := do
  writeln (.shfl .up tmp (some pred) dst (.imm offset) 0 0xFFFFFFFF)
  writeln (.guarded pred scanOp typeSuffix dst dst tmp)

/-- `emit_warp_scan`. -/
def emitWarpScan (val dst : PtxVal) (typeSuffix : PtxType) (scanOp : WarpOp) (exclusive : Bool)
    (op : SubgroupOperation) (scalar : Scalar) : PtxM WarpInstr Unit := do
  let tmp ← operand (← allocForScalar scalar)
  let pred ← operand (← allocPred)
  let dst ← operand dst
  writeln (.mov typeSuffix dst (← operand val))
  [1, 2, 4, 8, 16].forM (emitScanStep dst tmp pred scanOp typeSuffix)
  if exclusive then
    writeln (.shfl .up tmp (some pred) dst (.imm 1) 0 0xFFFFFFFF)
    writeln (.selp typeSuffix dst tmp (scanIdentity op scalar) pred)

/-- The operation of a reduction that `redux.sync` is emitted for. -/
def reduceOp : SubgroupOperation → Option WarpOp
  | .all => some .and
  | .any => some .or
  | .add => some .add
  | .min => some .min
  | .max => some .max
  | .and => some .and
  | .or => some .or
  | .xor => some .xor
  | .mul => none

/-- `emit_subgroup_collective`. -/
def emitSubgroupCollective (op : SubgroupOperation) (collectiveOp : CollectiveOperation)
    (val : PtxVal) (valScalar : Scalar) : PtxM WarpInstr PtxVal := do
  let dst ← allocForScalar valScalar
  let typeSuffix := ptxAtomType valScalar
  match collectiveOp with
  | .reduce =>
    match reduceOp op with
    | some redOp =>
      writeln (.redux redOp typeSuffix (← operand dst) (← operand val) 0xFFFFFFFF)
    | none =>
      let scanOp ← StateT.lift (scanOpStr op valScalar)
      emitWarpScan val dst typeSuffix scanOp false op valScalar
  | .inclusiveScan | .exclusiveScan =>
    let scanOp ← StateT.lift (scanOpStr op valScalar)
    emitWarpScan val dst typeSuffix scanOp (collectiveOp = .exclusiveScan) op valScalar
  return dst

/-- `emit_subgroup_gather`, with the index evaluated. -/
def emitSubgroupGather (mode : GatherMode PtxVal) (val : PtxVal) (valScalar : Scalar) :
    PtxM WarpInstr PtxVal := do
  let dst ← allocForScalar valScalar
  let d ← operand dst
  let a ← operand val
  match mode with
  | .broadcastFirst => writeln (.shfl .idx d none a (.imm 0) 0x1f1f 0xFFFFFFFF)
  | .broadcast index | .shuffle index =>
    writeln (.shfl .idx d none a (.reg (← operand index)) 0x1f1f 0xFFFFFFFF)
  | .shuffleDown offset => writeln (.shfl .down d none a (.reg (← operand offset)) 0x1f 0xFFFFFFFF)
  | .shuffleUp offset => writeln (.shfl .up d none a (.reg (← operand offset)) 0 0xFFFFFFFF)
  | .shuffleXor mask => writeln (.shfl .bfly d none a (.reg (← operand mask)) 0x1f 0xFFFFFFFF)
  | .quadBroadcast index => writeln (.shfl .idx d none a (.reg (← operand index)) 0x0003 0xFFFFFFFF)
  | .quadSwap _ => writeln (.shfl .bfly d none a (.imm 1) 0x03 0xFFFFFFFF)
  return dst

end CoralReef.Ptx
