import CoralReef.Codegen.Ir.Instr
import CoralReef.Stubs.BitSet
import CoralReef.Stubs.Dataflow
import Mathlib.Data.Finset.Basic

/-!
# Liveness

`SimpleLiveness` of `codegen/liveness.rs`. A `BitSet<SSAValue>` is the set of the numbers of its
values. The hash maps are association lists with the entry inserted last in front, and a block
that has no entry in a vector of sets stands for a block with the empty set.
-/

namespace CoralReef

structure SimpleBlockLiveness where
  defs : Finset Nat := ∅
  uses : Finset Nat := ∅
  lastUse : List (SSAValue × Nat) := []
  liveIn : Finset Nat := ∅
  liveOut : Finset Nat := ∅

namespace SimpleBlockLiveness

def addDef (bl : SimpleBlockLiveness) (ssa : SSAValue) : SimpleBlockLiveness :=
  { bl with defs := insert ssa.idx bl.defs }

def addUse (ip : Nat) (bl : SimpleBlockLiveness) (ssa : SSAValue) : SimpleBlockLiveness :=
  { bl with
    uses := insert ssa.idx bl.uses
    lastUse := (ssa, ip) :: bl.lastUse }

def isLiveAfterIp (bl : SimpleBlockLiveness) (val : SSAValue) (ip : Nat) : Bool :=
  if val.idx ∈ bl.liveOut then true
  else
    match bl.lastUse.lookup val with
    | some lastUseIp => decide (lastUseIp > ip)
    | none => false

def isLiveIn (bl : SimpleBlockLiveness) (val : SSAValue) : Bool := decide (val.idx ∈ bl.liveIn)

def isLiveOut (bl : SimpleBlockLiveness) (val : SSAValue) : Bool := decide (val.idx ∈ bl.liveOut)

/-- The uses and definitions of a block. -/
def ofInstrs (instrs : List Instr) : SimpleBlockLiveness :=
  instrs.zipIdx.foldl (fun bl entry =>
    entry.1.ssaDefs.foldl addDef (entry.1.ssaUses.foldl (addUse entry.2) bl)) {}

end SimpleBlockLiveness

structure SimpleLiveness where
  ssaBlockIp : List (SSAValue × Nat × Nat)
  blocks : List SimpleBlockLiveness

namespace SimpleLiveness

/-- The sets that the loop over the blocks improves. -/
structure Sets where
  liveIn : Nat → Finset Nat := fun _ => ∅
  liveOut : Nat → Finset Nat := fun _ => ∅
  changed : Bool := false

/-- The union of the sets that are live into the successors of a block. -/
def outSet (cfg : CFG BasicBlock) (liveIn : Nat → Finset Nat) (node : Nat) : Finset Nat :=
  (cfg.successors node).foldl (fun output succ => output ∪ liveIn succ) ∅

/-- The body of the loop over the blocks. -/
def update (cfg : CFG BasicBlock) (blocks : Nat → SimpleBlockLiveness) (sets : Sets)
    (node : Nat) : Sets :=
  let output := outSet cfg sets.liveIn node
  let newLiveIn := (output ∪ (blocks node).uses) \ (blocks node).defs
  { liveIn := Function.update sets.liveIn node newLiveIn
    liveOut := Function.update sets.liveOut node output
    changed := sets.changed || decide (sets.liveIn node ≠ newLiveIn) }

/-- The loop that runs until nothing changes. A pass that changes something adds a use to a block,
so the fuel lasts when it starts above the number of blocks times the number of uses. -/
def fixpoint (cfg : CFG BasicBlock) (blocks : Nat → SimpleBlockLiveness) (order : List Nat) :
    Nat → Sets → Except Fault Sets
  | 0, _ => .error (.panic "out of fuel")
  | fuel + 1, sets =>
    let sets := order.foldl (update cfg blocks) { sets with changed := false }
    if sets.changed then fixpoint cfg blocks order fuel sets else .ok sets

/-- Where each value is defined. -/
def defSites (f : Function) : List (SSAValue × Nat × Nat) :=
  f.blocks.blocks.zipIdx.foldl (fun sites entry =>
    entry.1.instrs.zipIdx.foldl (fun sites instr =>
      instr.1.ssaDefs.foldl (fun sites ssa => (ssa, entry.2, instr.2) :: sites) sites) sites) []

/-- `SimpleLiveness::for_function`. -/
def forFunction (f : Function) : Except Fault SimpleLiveness := do
  let blocks := f.blocks.blocks.map fun bb => SimpleBlockLiveness.ofInstrs bb.instrs
  let uses := f.blocks.blocks.flatMap fun bb => bb.instrs.flatMap Instr.ssaUses
  let sets ← fixpoint f.blocks (fun b => blocks.getD b {}) f.blocks.reversePostOrder.reverse
    (f.blocks.len * uses.length + 1) {}
  return {
    ssaBlockIp := defSites f
    blocks := blocks.zipIdx.map fun entry =>
      { entry.1 with liveIn := sets.liveIn entry.2, liveOut := sets.liveOut entry.2 } }

/-- `SimpleLiveness::def_block_ip`. -/
def defBlockIp (live : SimpleLiveness) (ssa : SSAValue) : Except Fault (Nat × Nat) :=
  expect (live.ssaBlockIp.lookup ssa) "SSA value must be defined in block"

/-- `Liveness::block_live`. -/
def blockLive (live : SimpleLiveness) (idx : Nat) : Except Fault SimpleBlockLiveness :=
  expect live.blocks[idx]? "index out of bounds"

/-- `SimpleLiveness::interferes`. -/
def interferes (live : SimpleLiveness) (a b : SSAValue) : Except Fault Bool := do
  let (ab, ai) ← live.defBlockIp a
  let (bb, bi) ← live.defBlockIp b
  if ab = bb ∧ ai = bi then return true
  else if ab < bb ∨ (ab = bb ∧ ai < bi) then return (← live.blockLive bb).isLiveAfterIp a bi
  else return (← live.blockLive ab).isLiveAfterIp b ai

/-- `SimpleLiveness::live_in_values`, in an order of its own. -/
def liveInValues (live : SimpleLiveness) (blockIdx : Nat) : Except Fault (List SSAValue) := do
  let bl ← live.blockLive blockIdx
  return (live.ssaBlockIp.map Prod.fst).dedup.filter bl.isLiveIn

/-! ## The bit sets

The loop of `for_function` with its bit sets as words, which it compares to see a change. It is that
of a `BackwardDataflow`, written out.
-/

/-- The bit sets `uses` and `defs` of a block. -/
def blockSets (bb : BasicBlock) : BitSet × BitSet :=
  bb.instrs.foldl (fun sets instr =>
    (instr.ssaUses.foldl (fun uses ssa => (uses.insert ssa.idx).1) sets.1,
      instr.ssaDefs.foldl (fun defs ssa => (defs.insert ssa.idx).1) sets.2))
    (.new 0, .new 0)

def moveSets (bb : BasicBlock) (liveOut : BitSet) : BitSet :=
  (liveOut.bitor (blockSets bb).1).sub (blockSets bb).2

/-- The sets `live_in` and `live_out` of the blocks. -/
def liveSets (f : Function) (fuel : Nat) : Except Fault (List BitSet × List BitSet) := do
  let empty := List.replicate f.blocks.len (BitSet.new 0)
  let run ← Dataflow.sweeps f.blocks f.blocks.successors (.new 0) BitSet.union
    (fun _ bb liveIn liveOut => (moveSets bb liveOut, decide (liveIn ≠ moveSets bb liveOut)))
    f.blocks.reversePostOrder.reverse fuel { moved := empty, joined := empty }
  return (run.moved, run.joined)

end SimpleLiveness

end CoralReef
