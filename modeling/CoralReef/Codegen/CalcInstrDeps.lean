import CoralReef.Codegen.OptInstrSched.Postpass

/-!
# Scoreboard barriers

`assign_deps_serial` of `codegen/calc_instr_deps/mod.rs` with `InstrDeps` of `codegen/ir/instr.rs`,
and the passes that `codegen/pipeline.rs` runs after it. An instruction carries its dependencies
through those passes, which never look at them. The delay and the reuse mask stay as they are.
-/

namespace CoralReef

/-- `InstrDeps`: the barriers an instruction signals when it has written and when it has read its
registers, and the mask of those it waits on. -/
structure InstrDeps where
  yld : Bool := false
  wrBar : Option Nat := none
  rdBar : Option Nat := none
  wtBarMask : Nat := 0
  deriving DecidableEq, Repr

namespace InstrDeps

def setYield (deps : InstrDeps) (yld : Bool) : InstrDeps := { deps with yld }

def setWrBar (deps : InstrDeps) (idx : Nat) : Except Fault InstrDeps := do
  assertThat (idx < 6) "idx < 6"
  return { deps with wrBar := some idx }

def setRdBar (deps : InstrDeps) (idx : Nat) : Except Fault InstrDeps := do
  assertThat (idx < 6) "idx < 6"
  return { deps with rdBar := some idx }

def addWtBarMask (deps : InstrDeps) (barMask : Nat) : Except Fault InstrDeps := do
  assertThat (barMask < 1 <<< 6) "bar_mask < 1 << 6"
  return { deps with wtBarMask := deps.wtBarMask ||| barMask }

/-- The barrier is in the mask. -/
def WaitsOn (deps : InstrDeps) (bar : Nat) : Prop := deps.wtBarMask.testBit bar = true

instance (deps : InstrDeps) (bar : Nat) : Decidable (deps.WaitsOn bar) := by
  unfold WaitsOn
  infer_instance

end InstrDeps

/-- An instruction with its dependencies. -/
structure DepInstr extends Instr where
  deps : InstrDeps := {}
  deriving DecidableEq, Repr

/-- A block of such instructions. -/
structure DepBlock where
  label : Label
  instrs : List DepInstr := []
  deriving DecidableEq, Repr

/-- The ops that yield and neither wait nor signal. -/
def Op.isYield : Op → Bool
  | .bssy _ _ _ _ => true
  | .other op _ _ => op.name ∈ ["Bar", "BClear", "BSync"]
  | _ => false

/-- Signal a barrier, and wait on it from then on. -/
def signal (hasRegs : Bool) (setBar : InstrDeps → Nat → Except Fault InstrDeps) (bar : Nat)
    (state : Nat × InstrDeps) : Except Fault (Nat × InstrDeps) :=
  if hasRegs then do
    return (state.1 ||| 1 <<< bar, ← setBar state.2 bar)
  else .ok state

/-- One instruction of `assign_deps_serial`, with the barriers to wait on so far. -/
def assignInstr (wt : Nat) (instr : DepInstr) : Except Fault (Nat × DepInstr) :=
  if instr.op.isYield then
    .ok (wt, { instr with deps := instr.deps.setYield true })
  else if instr.isBranch then do
    return (wt, { instr with deps := ← instr.deps.addWtBarMask 0x3f })
  else do
    let deps ← instr.deps.addWtBarMask wt
    let state ← signal (!instr.dsts.isEmpty) InstrDeps.setWrBar 0 (wt, deps)
    let (wt, deps) ←
      signal (!(instr.pred.predicate = .none) || !instr.srcs.isEmpty) InstrDeps.setRdBar 1 state
    return (wt, { instr with deps })

/-- The loop of `assign_deps_serial` over a block. -/
def assignInstrs (wt : Nat) : List DepInstr → Except Fault (List DepInstr)
  | [] => .ok []
  | instr :: rest => do
    let (wt, instr) ← assignInstr wt instr
    return instr :: (← assignInstrs wt rest)

/-- `assign_deps_serial`, block by block. -/
def assignDepsSerial (blocks : List DepBlock) : Except Fault (List DepBlock) :=
  blocks.mapM fun block => do return { block with instrs := ← assignInstrs 0 block.instrs }

def Op.isAnnotate : Op → Bool
  | .annotate _ => true
  | _ => false

/-- `remove_annotations`. -/
def removeAnnotations (blocks : List DepBlock) : List DepBlock :=
  blocks.map fun block => { block with
    instrs := block.instrs.filter fun instr => !instr.op.isAnnotate }

/-- `sched_buffer`: the instructions in the order the scheduler picks, with their dependencies. -/
def schedDeps (sm : ShaderModel) (instrs : List DepInstr) : Except Fault (List DepInstr) := do
  let (order, _) ← Postpass.newOrder sm (instrs.map DepInstr.toInstr)
  return order.filterMap (instrs[·]?)

/-- The passes from `assign_deps_serial` to `opt_instr_sched_postpass`. -/
def assignAndSchedule (sm : ShaderModel) (blocks : List DepBlock) :
    Except Fault (List DepBlock) := do
  let blocks ← assignDepsSerial blocks
  (removeAnnotations blocks).mapM fun block => do
    return { block with instrs := ← schedDeps sm block.instrs }

end CoralReef
