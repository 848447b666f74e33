import CoralReef.Codegen.Ir.SrcDst
import CoralReef.Stubs.Cfg

/-!
# Instructions

`codegen/ir/op.rs`, `codegen/ir/op_misc/mod.rs` and `codegen/ir/instr.rs`. The ops a modelled
pass tells apart are constructors with the source's fields; every other op of the IR is
`other`, with its name, its operands and whether it can be eliminated.
-/

namespace CoralReef

/-- An op that no modelled pass matches on by name. -/
structure OpOther where
  name : String
  /-- `Instr::can_eliminate`. -/
  canEliminate : Bool
  deriving DecidableEq, Repr

/-- `OpParCopy`: simultaneous copies, with the registers its lowering may clobber. -/
structure OpParCopy where
  dstsSrcs : List (Dst × Src) := []
  tmp : Option RegRef := none
  deriving DecidableEq, Repr

/-- `OpParCopy::push`. -/
def OpParCopy.push (pcopy : OpParCopy) (dst : Dst) (src : Src) : OpParCopy :=
  { pcopy with dstsSrcs := pcopy.dstsSrcs ++ [(dst, src)] }

/-- The branches other than `Bra` and `Exit`, which name a target and nothing else. -/
inductive JumpKind where
  | sync | brk | cont
  deriving DecidableEq, Repr

inductive Op where
  | undef (dst : Dst)
  | phiSrcs (srcs : List (Phi × Src))
  | phiDsts (dsts : List (Phi × Dst))
  | copy (dst : Dst) (src : Src)
  | swap (dst₀ dst₁ : Dst) (src₀ src₁ : Src)
  | parCopy (pcopy : OpParCopy)
  | pin (dst : Dst) (src : Src)
  | unpin (dst : Dst) (src : Src)
  | break_ (barOut : Dst) (barIn cond : Src)
  | bssy (barOut : Dst) (barIn cond : Src) (target : Label)
  | regOut (srcs : List Src)
  | bra (target : Label) (cond : Src)
  | jump (kind : JumpKind) (target : Label)
  | exit
  | annotate (text : String)
  | other (op : OpOther) (dsts : List Dst) (srcs : List Src)
  deriving DecidableEq, Repr

namespace Op

/-- `srcs_as_slice`. -/
def srcs : Op → List Src
  | .undef _ | .phiDsts _ | .jump _ _ | .exit | .annotate _ => []
  | .phiSrcs srcs => srcs.map Prod.snd
  | .copy _ src | .pin _ src | .unpin _ src => [src]
  | .swap _ _ src₀ src₁ => [src₀, src₁]
  | .parCopy pcopy => pcopy.dstsSrcs.map Prod.snd
  | .break_ _ barIn cond | .bssy _ barIn cond _ => [barIn, cond]
  | .regOut srcs | .other _ _ srcs => srcs
  | .bra _ cond => [cond]

/-- `dsts_as_slice`. -/
def dsts : Op → List Dst
  | .undef dst | .copy dst _ | .pin dst _ | .unpin dst _ => [dst]
  | .phiSrcs _ | .regOut _ | .bra _ _ | .jump _ _ | .exit | .annotate _ => []
  | .phiDsts dsts => dsts.map Prod.snd
  | .swap dst₀ dst₁ _ _ => [dst₀, dst₁]
  | .parCopy pcopy => pcopy.dstsSrcs.map Prod.fst
  | .break_ barOut _ _ | .bssy barOut _ _ _ => [barOut]
  | .other _ dsts _ => dsts

def isBranch : Op → Bool
  | .bra _ _ | .jump _ _ | .exit => true
  | _ => false

/-- `Instr::can_eliminate`. -/
def canEliminate : Op → Bool
  | .bra _ _ | .jump _ _ | .exit | .regOut _ | .annotate _ => false
  | .other op _ _ => op.canEliminate
  | _ => true

end Op

/-- An instruction: its guard and its op. Scheduling information (`InstrDeps`) is written by
passes that come later and read by none of those modelled here. -/
structure Instr where
  pred : Pred := {}
  op : Op
  deriving DecidableEq, Repr

namespace Instr

/-- `Instr::new`. -/
def new (op : Op) : Instr := { op }

def srcs (instr : Instr) : List Src := instr.op.srcs

def dsts (instr : Instr) : List Dst := instr.op.dsts

/-- The values `for_each_ssa_use` visits, in its order. -/
def ssaUses (instr : Instr) : List SSAValue :=
  instr.pred.iterSsa ++ instr.srcs.flatMap Src.iterSsa

/-- The values `for_each_ssa_def` visits, in its order. -/
def ssaDefs (instr : Instr) : List SSAValue := instr.dsts.flatMap Dst.iterSsa

def isPhi (instr : Instr) : Bool :=
  match instr.op with
  | .phiSrcs _ | .phiDsts _ => true
  | _ => false

def isBranch (instr : Instr) : Bool := instr.op.isBranch

/-- `is_branch_always_taken`. -/
def isBranchAlwaysTaken (instr : Instr) : Bool :=
  if instr.pred.isTrue then
    match instr.op with
    | .bra _ cond => cond.isTrue
    | op => op.isBranch
  else false

def canEliminate (instr : Instr) : Bool := instr.op.canEliminate

end Instr

/-!
## Basic blocks and functions

`codegen/ir/program.rs`. `phiDsts` and `phiSrcs` are the source's searches for the phi
instruction at the head and at the tail of a block: annotations are skipped on both ends, and
branches on the way back from the tail.
-/

structure BasicBlock where
  label : Label
  uniform : Bool := false
  instrs : List Instr := []
  deriving DecidableEq, Repr

structure Function where
  ssaAlloc : SSAValueAllocator := {}
  phiAlloc : PhiAllocator := {}
  blocks : CFG BasicBlock := {}
  deriving DecidableEq, Repr

namespace BasicBlock

/-- The search of `phi_dsts_ip`. -/
def scanPhiDsts : List Instr → Option (Nat × List (Phi × Dst))
  | [] => none
  | instr :: rest =>
    match instr.op with
    | .annotate _ => (scanPhiDsts rest).map fun found => (found.1 + 1, found.2)
    | .phiDsts dsts => some (0, dsts)
    | _ => none

/-- The search of `phi_srcs_ip`, over the instructions in reverse. -/
def scanPhiSrcs : List Instr → Option (Nat × List (Phi × Src))
  | [] => none
  | instr :: rest =>
    match instr.op with
    | .annotate _ => (scanPhiSrcs rest).map fun found => (found.1 + 1, found.2)
    | .phiSrcs srcs => some (0, srcs)
    | op => if op.isBranch then (scanPhiSrcs rest).map fun found => (found.1 + 1, found.2) else none

def phiDstsIp (bb : BasicBlock) : Option Nat := (scanPhiDsts bb.instrs).map Prod.fst

/-- `BasicBlock::phi_dsts`. -/
def phiDsts (bb : BasicBlock) : Option (List (Phi × Dst)) :=
  (scanPhiDsts bb.instrs).map Prod.snd

def phiSrcsIp (bb : BasicBlock) : Option Nat :=
  (scanPhiSrcs bb.instrs.reverse).map fun found => bb.instrs.length - 1 - found.1

/-- `BasicBlock::phi_srcs`. -/
def phiSrcs (bb : BasicBlock) : Option (List (Phi × Src)) :=
  (scanPhiSrcs bb.instrs.reverse).map Prod.snd

/-- `BasicBlock::branch`. -/
def branch (bb : BasicBlock) : Option Instr := bb.instrs.getLast?.filter Instr.isBranch

def branchIp (bb : BasicBlock) : Option Nat :=
  bb.branch.map fun _ => bb.instrs.length - 1

def fallsThrough (bb : BasicBlock) : Bool :=
  match bb.branch with
  | some instr => !instr.isBranchAlwaysTaken
  | none => true

end BasicBlock

namespace Function

/-- The instructions of a block; none when there is no such block. -/
def instrs (f : Function) (b : Nat) : List Instr :=
  (f.blocks.blocks[b]?.map BasicBlock.instrs).getD []

/-- The phi destinations of a block, if it has any. -/
def phiDsts (f : Function) (b : Nat) : Option (List (Phi × Dst)) :=
  f.blocks.blocks[b]?.bind BasicBlock.phiDsts

/-- The phi sources of a block, if it has any. -/
def phiSrcs (f : Function) (b : Nat) : Option (List (Phi × Src)) :=
  f.blocks.blocks[b]?.bind BasicBlock.phiSrcs

end Function

end CoralReef
