import CoralReef.Codegen.CalcInstrDeps
import CoralReef.Codegen.OptInstrSched.Proofs.Slots

/-!
# Barriers on demand

`assign_barriers` of `codegen/calc_instr_deps/analysis.rs`, with `RegUse`, `DepGraph` and `BarAlloc`
of `calc_instr_deps/types.rs`. The instructions of its input carry the dependencies of
`InstrDeps::new`. Debug assertions are left out, as in a release build.
-/

namespace CoralReef

/-!
## Runs and hazards

The instructions that are executed one after the other, whichever way the branches go, and what it
means that every access to a register waits for the accesses in flight.
-/

/-- The label a branch names. -/
def Op.target : Op → Option Label
  | .bra target _ | .jump _ target => some target
  | _ => none

/-- The place of an instruction. -/
structure Point where
  block : Nat
  ip : Nat
  deriving DecidableEq, Repr

def instrAt (blocks : List DepBlock) (p : Point) : Option DepInstr :=
  blocks[p.block]?.bind fun block => block.instrs[p.ip]?

/-- The first instruction at the head of a block. An empty block falls into the next one. -/
inductive Enters (blocks : List DepBlock) : Nat → Point → Prop
  | here {b : Nat} {instr : DepInstr} (first : instrAt blocks ⟨b, 0⟩ = some instr) :
    Enters blocks b ⟨b, 0⟩
  | skip {b : Nat} {block : DepBlock} {p : Point} (isBlock : blocks[b]? = some block)
    (empty : block.instrs = []) (next : Enters blocks (b + 1) p) : Enters blocks b p

/-- One instruction is executed right after another. -/
inductive Flow (blocks : List DepBlock) : Point → Point → Prop
  | next {p : Point} {instr instr' : DepInstr} (here : instrAt blocks p = some instr)
    (passes : instr.isBranchAlwaysTaken = false)
    (there : instrAt blocks ⟨p.block, p.ip + 1⟩ = some instr') :
    Flow blocks p ⟨p.block, p.ip + 1⟩
  | branch {p q : Point} {instr : DepInstr} {label : Label} {b : Nat} {block : DepBlock}
    (here : instrAt blocks p = some instr) (isTarget : instr.op.target = some label)
    (isBlock : blocks[b]? = some block) (labelled : block.label = label)
    (enters : Enters blocks b q) : Flow blocks p q
  | fall {p q : Point} {instr : DepInstr} (here : instrAt blocks p = some instr)
    (passes : instr.isBranchAlwaysTaken = false)
    (last : instrAt blocks ⟨p.block, p.ip + 1⟩ = none) (enters : Enters blocks (p.block + 1) q) :
    Flow blocks p q

/-- An execution from the entry, up to any point. -/
structure Run (blocks : List DepBlock) (run : List Point) : Prop where
  starts : ∀ p ∈ run.head?, Enters blocks 0 p
  flows : run.IsChain (Flow blocks)

/-- After step `i` and up to step `j` of a run, an instruction waits on the barrier. -/
def WaitedOn (blocks : List DepBlock) (run : List Point) (i j bar : Nat) : Prop :=
  ∃ k p instr, i < k ∧ k ≤ j ∧ run[k]? = some p ∧ instrAt blocks p = some instr ∧
    instr.deps.WaitsOn bar

/-- After step `i` and up to step `j` of a run, a branch is executed. -/
def BranchSince (blocks : List DepBlock) (run : List Point) (i j : Nat) : Prop :=
  ∃ k p instr, i < k ∧ k ≤ j ∧ run[k]? = some p ∧ instrAt blocks p = some instr ∧
    instr.isBranch = true

namespace Instr

/-- The second instruction accesses a register that the first one writes. -/
def WriteHazard (a b : Instr) : Prop :=
  ∃ slot ∈ a.writes, slot ∈ b.writes ∨ slot ∈ b.reads ∨ slot ∈ b.guards

/-- The second instruction overwrites a register that the first one reads. -/
def ReadHazard (a b : Instr) : Prop := ∃ slot ∈ b.writes, slot ∈ a.reads ∨ slot ∈ a.guards

end Instr

/-- Every access to a register that an instruction of variable latency still has to write or to
read waits on a barrier that this instruction signals then. -/
def Covered (sm : ShaderModel) (blocks : List DepBlock) (run : List Point) : Prop :=
  ∀ i j p q a b, i < j → run[i]? = some p → run[j]? = some q → instrAt blocks p = some a →
    instrAt blocks q = some b → sm.opNeedsScoreboard a.op = true →
      (a.WriteHazard b.toInstr → ∃ bar, a.deps.wrBar = some bar ∧ WaitedOn blocks run i j bar) ∧
      (a.ReadHazard b.toInstr →
        ∃ bar, (a.deps.rdBar = some bar ∨ a.deps.wrBar = some bar) ∧ WaitedOn blocks run i j bar)

/-- A writer of variable latency stays behind the instructions whose guard it writes. -/
def WritersOrdered (sm : ShaderModel) (instrs : List Instr) : Prop :=
  ∀ i j, At (fun a b => a.GuardConflict b ∧ sm.opNeedsScoreboard b.op = true) instrs i j →
    Relation.TransGen (At Instr.Linked instrs) i j

/-- The steps of a run avoid the gaps. Control falls from a block into the next only when a branch
has been executed since the last instruction of variable latency; an instruction that only yields
has no registers of the tracked files; and in the blocks of the run, as they are before
scheduling, a chain of dependencies keeps an instruction of variable latency behind those whose
guard it writes. -/
structure AvoidsGaps (sm : ShaderModel) (source blocks : List DepBlock) (run : List Point) : Prop
    where
  falls : ∀ i j p q a, i ≤ j → j + 1 < run.length → run[i]? = some p → run[j]? = some q →
    instrAt blocks p = some a → sm.opNeedsScoreboard a.op = true →
    instrAt blocks ⟨q.block, q.ip + 1⟩ = none → BranchSince blocks run i j
  yields : ∀ p ∈ run, ∀ instr, instrAt blocks p = some instr → instr.op.isYield = true →
    instr.writes = [] ∧ instr.reads = [] ∧ instr.guards = []
  guards : ∀ p ∈ run, ∀ block, (removeAnnotations source)[p.block]? = some block →
    WritersOrdered sm (block.instrs.map DepInstr.toInstr)

/-- The order of `(block_idx, ip)`. -/
def Point.Before (p q : Point) : Prop := p.block < q.block ∨ p.block = q.block ∧ p.ip < q.ip

instance (p q : Point) : Decidable (p.Before q) := by
  unfold Point.Before
  infer_instance

/-- The instructions of a function with their places. -/
def instrPoints (blocks : List BasicBlock) : List (Point × Instr) :=
  blocks.zipIdx.flatMap fun (block, b) => block.instrs.zipIdx.map fun (instr, ip) => (⟨b, ip⟩, instr)

/-- `Instr::needs_yield`. -/
def Op.needsYield : Op → Bool
  | .other op _ _ => op.name ∈ ["Bar", "BSync"]
  | _ => false

namespace InstrDeps

/-- `add_wt_bar`. -/
def addWtBar (deps : InstrDeps) (bar : Fin 6) : Except Fault InstrDeps :=
  deps.addWtBarMask (1 <<< bar.val)

end InstrDeps

namespace AssignBarriers

/-! ## Uses of a register -/

/-- `RegUse`. -/
inductive RegUse (α : Type) where
  | none
  | write (dep : α)
  | reads (deps : List α)
  deriving DecidableEq, Repr

namespace RegUse

variable {α : Type}

def deps : RegUse α → List α
  | .none => []
  | .write dep => [dep]
  | .reads deps => deps

/-- The updates of a use return what they leave of it and what they return. -/
def clear (use : RegUse α) : RegUse α × RegUse α := (.none, use)

def clearWrite : RegUse α → RegUse α × RegUse α
  | .write dep => (.none, .write dep)
  | use => (use, .none)

def addRead (dep : α) : RegUse α → RegUse α × RegUse α
  | .none => (.reads [dep], .none)
  | .write old => (.reads [dep], .write old)
  | .reads earlier => (.reads (earlier ++ [dep]), .none)

def setWrite (dep : α) (use : RegUse α) : RegUse α × RegUse α := (.write dep, use)

end RegUse

/-! ## Dependencies -/

structure DepNode where
  readDep : Option Nat := none
  firstWait : Option Point := none
  deriving DecidableEq, Repr

/-- `DepGraph`: the nodes by number, below `count`. -/
structure DepGraph where
  count : Nat := 0
  nodes : Nat → DepNode := fun _ => {}
  instrDeps : Point → Option (Nat × Nat) := fun _ => none
  instrWaits : Point → List Nat := fun _ => []
  active : List Nat := []

namespace DepGraph

def addNewDep (graph : DepGraph) (readDep : Option Nat) : Nat × DepGraph :=
  (graph.count,
    { graph with
      count := graph.count + 1
      nodes := Function.update graph.nodes graph.count { readDep } })

def addInstr (graph : DepGraph) (p : Point) : (Nat × Nat) × DepGraph :=
  let (rd, graph) := graph.addNewDep none
  let (wr, graph) := graph.addNewDep (some rd)
  ((rd, wr), { graph with instrDeps := Function.update graph.instrDeps p (some (rd, wr)) })

def addSignal (graph : DepGraph) (dep : Nat) : DepGraph :=
  { graph with active := graph.active.insert dep }

/-- `add_signal` for every entry that is visited. -/
def addSignals (graph : DepGraph) (dep : Nat) (slots : List Slot) : DepGraph :=
  slots.foldl (fun graph _ => graph.addSignal dep) graph

/-- The reads of the writes that are waited on are waited on with them. -/
def dropReads (graph : DepGraph) (waits : List Nat) : DepGraph :=
  { graph with
    active := waits.foldl (fun active dep =>
      match (graph.nodes dep).readDep with
      | some rd => active.filter (· ≠ rd)
      | none => active) graph.active }

/-- The waits that are the first on their dependency. -/
def retainWaits (p : Point) : List Nat → DepGraph → List Nat × DepGraph
  | [], graph => ([], graph)
  | dep :: rest, graph =>
    if (graph.nodes dep).firstWait.isSome ∨ dep ∉ graph.active then retainWaits p rest graph
    else
      let node := { graph.nodes dep with firstWait := some p }
      let (kept, graph) := retainWaits p rest
        { graph with
          nodes := Function.update graph.nodes dep node
          active := graph.active.filter (· ≠ dep) }
      (dep :: kept, graph)

def addWaits (graph : DepGraph) (p : Point) (waits : List Nat) : DepGraph :=
  let (waits, graph) := retainWaits p waits (graph.dropReads waits)
  { graph with instrWaits := Function.update graph.instrWaits p (waits.mergeSort (· ≤ ·)) }

def addBarrier (graph : DepGraph) (p : Point) : DepGraph := graph.addWaits p graph.active

def depIsWaitedAfter (graph : DepGraph) (dep : Nat) (p : Point) : Bool :=
  (graph.nodes dep).firstWait.any fun wait => p.Before wait

end DepGraph

/-! ## Tracking -/

structure Tracked where
  uses : RegTracker (RegUse Nat) := fun _ => .none
  deps : DepGraph := {}

/-- Visit the entries of an instruction with an update, and collect the dependencies it returns. -/
def visitUses (update : RegUse Nat → RegUse Nat × RegUse Nat) :
    List Slot → RegTracker (RegUse Nat) → RegTracker (RegUse Nat) × List Nat
  | [], uses => (uses, [])
  | slot :: slots, uses =>
    let (use, old) := update (uses slot)
    let (uses, rest) := visitUses update slots (Function.update uses slot use)
    (uses, old.deps ++ rest)

/-- The accesses of an instruction that needs the scoreboard. -/
def trackScoreboard (p : Point) (guards srcs dsts : List Slot) (state : Tracked) : Tracked :=
  let (uses, guardWaits) := visitUses RegUse.clearWrite guards state.uses
  let ((rd, wr), deps) := state.deps.addInstr p
  let (uses, srcWaits) := visitUses (RegUse.addRead rd) srcs uses
  let (uses, dstWaits) := visitUses (RegUse.setWrite wr) dsts uses
  { uses
    deps := ((deps.addSignals rd srcs).addSignals wr dsts).addWaits p
      (guardWaits ++ srcWaits ++ dstWaits.filter (· ≠ rd)) }

/-- The accesses of an instruction that the delays cover. -/
def trackFixed (p : Point) (guards srcs dsts : List Slot) (state : Tracked) : Tracked :=
  let (uses, guardWaits) := visitUses RegUse.clearWrite guards state.uses
  let (uses, srcWaits) := visitUses RegUse.clearWrite srcs uses
  let (uses, dstWaits) := visitUses RegUse.clear dsts uses
  { uses
    deps := state.deps.addWaits p (guardWaits ++ srcWaits ++ dstWaits) }

/-- One instruction of the first loop of `assign_barriers`. -/
def trackInstr (sm : ShaderModel) (state : Tracked) (entry : Point × Instr) :
    Except Fault Tracked :=
  let (p, instr) := entry
  if instr.isBranch then .ok { state with deps := state.deps.addBarrier p }
  else do
    let guards ← instr.predSlots
    let srcs ← instr.srcSlots
    let dsts ← instr.dstSlots
    if sm.opNeedsScoreboard instr.op then
      return trackScoreboard p guards (srcs.map Prod.snd) (dsts.map Prod.snd) state
    else return trackFixed p guards (srcs.map Prod.snd) (dsts.map Prod.snd) state

/-! ## Barriers -/

/-- `BarAlloc`: the dependency that each barrier stands for, if it is not free. -/
abbrev BarAlloc := Fin 6 → Option Nat

namespace BarAlloc

def tryFindFreeBar (bars : BarAlloc) : Option (Fin 6) :=
  (List.finRange 6).find? fun bar => (bars bar).isNone

/-- `bar_dep[b] < bar_dep[bar]`, where a free barrier has the largest number. -/
def older (bars : BarAlloc) (b bar : Fin 6) : Bool :=
  match bars b, bars bar with
  | some dep, some dep' => dep < dep'
  | some _, none => true
  | none, _ => false

def freeBar (bars : BarAlloc) (bar : Fin 6) : BarAlloc := Function.update bars bar none

def oldestBar (bars : BarAlloc) : Fin 6 :=
  [1, 2, 3, 4, 5].foldl (fun bar b => if bars.older b bar then b else bar) 0

def freeSomeBar (bars : BarAlloc) : Fin 6 × BarAlloc := (bars.oldestBar, bars.freeBar bars.oldestBar)

def getBarForDep (bars : BarAlloc) (dep : Nat) : Option (Fin 6) :=
  (List.finRange 6).find? fun bar => bars bar = some dep

def setBarDep (bars : BarAlloc) (bar : Fin 6) (dep : Nat) : BarAlloc :=
  Function.update bars bar (some dep)

end BarAlloc

/-- The barriers of the dependencies that an instruction waits on. -/
def waitBars : List Nat → BarAlloc → Nat → Nat × BarAlloc
  | [], bars, mask => (mask, bars)
  | dep :: rest, bars, mask =>
    match bars.getBarForDep dep with
    | some bar => waitBars rest (bars.freeBar bar) (mask ||| 1 <<< bar.val)
    | none => waitBars rest bars mask

/-- A barrier that is free, or that is waited on and freed. -/
def takeBar (bars : BarAlloc) (deps : InstrDeps) : Except Fault (Fin 6 × BarAlloc × InstrDeps) :=
  match bars.tryFindFreeBar with
  | some bar => .ok (bar, bars, deps)
  | none => do
    let (bar, bars) := bars.freeSomeBar
    return (bar, bars, ← deps.addWtBar bar)

/-- A barrier for a dependency that a later instruction waits on. -/
def assignBar (graph : DepGraph) (p : Point) (dep : Nat)
    (setBar : InstrDeps → Nat → Except Fault InstrDeps) (state : BarAlloc × InstrDeps) :
    Except Fault (BarAlloc × InstrDeps) :=
  if graph.depIsWaitedAfter dep p then do
    let (bar, bars, deps) ← takeBar state.1 state.2
    return (bars.setBarDep bar dep, ← setBar deps bar)
  else .ok state

/-- One instruction of the second loop of `assign_barriers`. -/
def barInstr (sm : ShaderModel) (graph : DepGraph) (bars : BarAlloc) (entry : Point × Instr) :
    Except Fault (DepInstr × BarAlloc) := do
  let (p, instr) := entry
  let (mask, bars) := waitBars (graph.instrWaits p) bars 0
  let deps ← ({} : InstrDeps).addWtBarMask mask
  let deps := if instr.op.needsYield then deps.setYield true else deps
  if sm.opNeedsScoreboard instr.op then
    let (rd, wr) ← expect (graph.instrDeps p) "instruction must have dependency info"
    let state ← assignBar graph p rd InstrDeps.setRdBar (bars, deps)
    let (bars, deps) ← assignBar graph p wr InstrDeps.setWrBar state
    return ({ instr with deps }, bars)
  else return ({ instr with deps }, bars)

/-- One block of the second loop. -/
def barBlock (sm : ShaderModel) (graph : DepGraph) (bars : BarAlloc) (entry : BasicBlock × Nat) :
    Except Fault (DepBlock × BarAlloc) := do
  let (block, b) := entry
  let (instrs, bars) ← mapAccumM (fun bars (instr, ip) => barInstr sm graph bars (⟨b, ip⟩, instr))
    block.instrs.zipIdx bars
  return ({ label := block.label, instrs }, bars)

/-- `assign_barriers`. -/
def assignBarriers (sm : ShaderModel) (blocks : List BasicBlock) : Except Fault (List DepBlock) := do
  let state ← (instrPoints blocks).foldlM (trackInstr sm) {}
  let (blocks, _) ← mapAccumM (barBlock sm state.deps) blocks.zipIdx fun _ => none
  return blocks

end AssignBarriers

end CoralReef
