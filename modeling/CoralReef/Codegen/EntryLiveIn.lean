import CoralReef.Codegen.Liveness
import CoralReef.Codegen.OptDce
import CoralReef.Codegen.RepairSsa

/-!
# Undefined values at the entry

`Function::fix_entry_live_in` of `codegen/repair_ssa.rs`: undefs in the entry block for every value
in sight, unreachable blocks cut off, then the repair of SSA form and dead-code elimination.
-/

namespace CoralReef

/-- An order in which a hash set lists the values put into it. -/
structure HashOrder where
  iter : List SSAValue → List SSAValue
  perm : ∀ values, (iter values).Perm values.dedup

namespace CFG

variable {α : Type}

/-- The body of the loop over the successors of a block. -/
def enqueue (cfg : CFG α) (state : List Nat × List Nat) (s : Nat) :
    Except Fault (List Nat × List Nat) := do
  assertThat (s < cfg.len) "index out of bounds"
  return if s ∈ state.1 then state else (s :: state.1, state.2 ++ [s])

/-- The loop over the queue, with the blocks reached so far. Every block is queued at most once,
so the number of blocks is fuel enough. -/
def reachLoop (cfg : CFG α) : Nat → List Nat × List Nat → Except Fault (List Nat)
  | _, (reached, []) => .ok reached
  | 0, _ => .error (.panic "out of fuel")
  | fuel + 1, (reached, b :: queue) => do
    let state ← (cfg.successors b).foldlM cfg.enqueue (reached, queue)
    reachLoop cfg fuel state

/-- The blocks that can be reached from the entry. -/
def reachable (cfg : CFG α) : Except Fault (List Nat) := do
  assertThat (0 < cfg.len) "index out of bounds"
  cfg.reachLoop cfg.len ([0], [0])

end CFG

namespace Function

/-- Clear and disconnect a block that is not among those reached. -/
def cutBlock (reached : List Nat) (cfg : CFG BasicBlock) (bi : Nat) : CFG BasicBlock :=
  if bi ∈ reached then cfg
  else { cfg with
    blocks := cfg.blocks.modify bi fun bb => { bb with instrs := [] } }.disconnectBlock bi

/-- The graph without the instructions and edges of unreachable blocks. -/
def cutUnreachable (f : Function) : Except Fault (CFG BasicBlock) := do
  let reached ← f.blocks.reachable
  return (List.range' 1 (f.blocks.len - 1)).foldl (cutBlock reached) f.blocks

/-- All the uses of a function. -/
def allUses (f : Function) : List SSAValue :=
  f.blocks.blocks.flatMap fun bb => bb.instrs.flatMap Instr.ssaUses

/-- Undefs at the very start of the entry block. -/
def undefAtEntry (cfg : CFG BasicBlock) (names : List SSAValue) : CFG BasicBlock :=
  { cfg with blocks := cfg.blocks.modify 0 fun bb =>
    { bb with instrs := (names.map fun ssa => .new (.undef (.ofSsa ssa))) ++ bb.instrs } }

/-- `Function::fix_entry_live_in`. -/
def fixEntryLiveIn (order : HashOrder) (annotate : Bool) (f : Function) :
    Except Fault Function := do
  let live ← SimpleLiveness.forFunction f
  let entryLi ← live.liveInValues 0
  let defs := f.blocks.blocks.flatMap fun bb => bb.instrs.flatMap Instr.ssaDefs
  let needsUndef := entryLi ++ defs
  if needsUndef = [] then return f
  else
    let needsUndef := needsUndef ++ f.allUses
    let blocks ← f.cutUnreachable
    let f ← { f with blocks := undefAtEntry blocks (order.iter needsUndef) }.repairSsa
    f.optDce annotate

end Function

end CoralReef
