import CoralReef.Codegen.OptInstrSched

/-!
# Scheduling after register allocation

`codegen/opt_instr_sched_postpass.rs`. The dependency graph is built from the last instruction to
the first; the order is picked from the bottom of the block to its top.
-/

/-!
## Register tracker

`codegen/reg_tracker.rs`: one entry for every register, and the entries an instruction touches.
-/

namespace CoralReef

/-- A scalar register. -/
abbrev Slot := RegFile × Nat

/-- `RegTracker`. -/
abbrev RegTracker (α : Type) := Slot → α

namespace RegTracker

/-- The number of entries for a file. -/
def fileSize : RegFile → Nat
  | .gpr => 255 | .ugpr => 80 | .pred => 7 | .upred => 7 | .carry => 1 | .bar => 0 | .mem => 0

/-- The entries of `self[reg]`. Barriers have none. -/
def index (reg : RegRef) : Except Fault (List Slot) :=
  match reg.file with
  | .bar => .ok []
  | .mem => .error (.panic "Not a register")
  | file => do
    assertThat (reg.baseIdx + reg.comps ≤ fileSize file) "range end index out of range"
    return (List.range reg.comps).map fun c => (file, reg.baseIdx + c)

/-- The entries of the operands that refer to registers, with the numbers of the operands. -/
def operandSlots {α : Type} (ref : α → Option RegRef) (operands : List α) :
    Except Fault (List (Nat × Slot)) := do
  let slots ← operands.zipIdx.mapM fun (operand, i) =>
    match ref operand with
    | some reg => do return (← index reg).map fun slot => (i, slot)
    | none => .ok []
  return slots.flatten

end RegTracker

namespace Instr

/-- The entries that `for_each_instr_pred_mut` visits. -/
def predSlots (instr : Instr) : Except Fault (List Slot) :=
  match instr.pred.predicate with
  | .reg reg => RegTracker.index reg
  | _ => .ok []

/-- The entries that `for_each_instr_src_mut` visits, with the number of the source. -/
def srcSlots (instr : Instr) : Except Fault (List (Nat × Slot)) :=
  RegTracker.operandSlots (fun src => src.reference.getReg) instr.srcs

/-- The entries that `for_each_instr_dst_mut` visits, with the number of the destination. -/
def dstSlots (instr : Instr) : Except Fault (List (Nat × Slot)) :=
  RegTracker.operandSlots Dst.asReg instr.dsts

end Instr

namespace Postpass

/-- The instructions that read a register before its next write, with the number of the source or
`none` for the guard, and that write with the number of its destination. -/
structure RegUse where
  reads : List (Nat × Option Nat) := []
  write : Option (Nat × Nat) := none
  deriving DecidableEq, Repr

def RegUse.addRead (u : RegUse) (dep : Nat × Option Nat) : RegUse :=
  { u with reads := u.reads ++ [dep] }

def RegUse.setWrite (_ : RegUse) (dep : Nat × Nat) : RegUse := { reads := [], write := some dep }

/-- What the loop over the instructions carries. -/
structure GraphState where
  g : DepGraph
  uses : RegTracker RegUse := fun _ => {}
  lastMemoryOp : Option Nat := none
  lastBarrierOp : Option Nat := none

section Edges

variable (sm : ShaderModel) (instrs : List Instr) (ip : Nat) (instr : Instr)

/-- The edges that keep barriers and memory operations in order. -/
def orderEdges (state : GraphState) : List Edge :=
  (match state.lastBarrierOp with
    | some barIp => [⟨0, barIp⟩]
    | none => []) ++
  match sideEffectType instr.op with
  | .none => []
  | .barrier =>
    let lastIp := state.lastBarrierOp.getD instrs.length
    (List.range' (ip + 1) (lastIp - (ip + 1))).map fun otherIp => ⟨0, otherIp⟩
  | .memory =>
    match state.lastMemoryOp with
    | some memIp => [⟨0, memIp⟩]
    | none => []

/-- The op of another instruction of the list. -/
def opAt (i : Nat) : Op := (instrs[i]?.map Instr.op).getD (.annotate "")

/-- The edges for one register that is written. -/
def dstEdges (estimate : Nat) (uses : RegTracker RegUse) (i : Nat) (slot : Slot) : List Edge :=
  (match (uses slot).write with
    | some (wIp, wDstIdx) =>
      let latency := sm.wawLatency instr.op i (!(instr.pred.predicate = .none)) (opAt instrs wIp)
        wDstIdx
      [⟨if sm.opNeedsScoreboard instr.op then max latency 2 else latency, wIp⟩]
    | none => []) ++
  (uses slot).reads.map fun (rIp, rSrcIdx) =>
    let latency := match rSrcIdx with
      | none => sm.pawLatency instr.op i
      | some rSrcIdx => sm.rawLatency instr.op i (opAt instrs rIp) rSrcIdx
    ⟨max latency estimate, rIp⟩

/-- The edge for one register that is read. -/
def srcEdges (uses : RegTracker RegUse) (i : Nat) (slot : Slot) : List Edge :=
  match (uses slot).write with
  | some (wIp, wDstIdx) =>
    let latency := sm.warLatency instr.op i (opAt instrs wIp) wDstIdx
    [⟨if sm.opNeedsScoreboard instr.op then max latency 2 else latency, wIp⟩]
  | none => []

/-- All the edges of an instruction. -/
def nodeEdges (estimate : Nat) (dsts srcs : List (Nat × Slot)) (state : GraphState) : List Edge :=
  orderEdges instrs ip instr state ++
    dsts.flatMap (fun (i, slot) => dstEdges sm instrs instr estimate state.uses i slot) ++
    srcs.flatMap fun (i, slot) => srcEdges sm instrs instr state.uses i slot

/-- The label of an instruction, with its distance to the end. -/
def nodeLabel (estimate : Nat) (label : NodeLabel) : NodeLabel :=
  let readyCycle := (List.range instr.dsts.length).foldl
    (fun cycle i => max cycle (sm.worstLatency instr.op i)) 0
  let varLatency := estimate + sm.execLatency (opAt instrs (instrs.length - 1))
  { label with readyCycle := max readyCycle varLatency, execLatency := sm.execLatency instr.op }

/-- The entries of the tracker after an instruction. The loop runs backwards, so writes are
logically first. -/
def nodeUses (dsts srcs : List (Nat × Slot)) (guard : List Slot) (uses : RegTracker RegUse) :
    RegTracker RegUse :=
  let uses := dsts.foldl (fun uses (i, slot) =>
    Function.update uses slot ((uses slot).setWrite (ip, i))) uses
  let uses := guard.foldl (fun uses slot =>
    Function.update uses slot ((uses slot).addRead (ip, none))) uses
  srcs.foldl (fun uses (i, slot) =>
    Function.update uses slot ((uses slot).addRead (ip, some i))) uses

/-- One instruction of the loop of `generate_dep_graph`. -/
def graphStep (state : GraphState) : Except Fault GraphState := do
  let dsts ← instr.dstSlots
  let srcs ← instr.srcSlots
  let guard ← instr.predSlots
  let estimate ← estimateVariableLatency sm instr.op
  let edges := nodeEdges sm instrs ip instr estimate dsts srcs state
  let g ← edges.foldlM (fun g edge => g.addEdge ip edge) state.g
  return {
    g := { g with
      label := Function.update g.label ip (nodeLabel sm instrs instr estimate (g.label ip)) }
    uses := nodeUses ip dsts srcs guard state.uses
    lastMemoryOp := if sideEffectType instr.op = .memory then some ip else state.lastMemoryOp
    lastBarrierOp := if sideEffectType instr.op = .barrier then some ip else state.lastBarrierOp }

end Edges

/-- `generate_dep_graph`. -/
def generateDepGraph (sm : ShaderModel) (instrs : List Instr) : Except Fault DepGraph := do
  let state ← instrs.zipIdx.reverse.foldlM
    (fun state (instr, ip) => graphStep sm instrs ip instr state) { g := { len := instrs.length } }
  return state.g

/-- What the loop of `generate_order` carries. -/
structure OrderState where
  g : DepGraph
  ready : List ReadyInstr := []
  future : List FutureReadyInstr
  currentCycle : Nat := 0
  instrOrder : List Nat := []

/-- Count down the use of the head of an edge. -/
def releaseEdge (state : OrderState) (edge : Edge) : Except Fault OrderState := do
  let depInstr := state.g.label edge.headIdx
  assertThat (0 < depInstr.useCount) "attempt to subtract with overflow"
  let depInstr := { depInstr with
    readyCycle := max depInstr.readyCycle (state.currentCycle + edge.latency)
    useCount := depInstr.useCount - 1 }
  let label := Function.update state.g.label edge.headIdx depInstr
  return { state with
    g := { state.g with label }
    future := if depInstr.useCount = 0 then
        FutureReadyInstr.new label edge.headIdx :: state.future
      else state.future }

/-- Schedule an instruction. -/
def scheduleInstr (state : OrderState) (nextIdx : Nat) : Except Fault OrderState :=
  let outgoingEdges := state.g.outgoingEdges nextIdx
  outgoingEdges.foldlM releaseEdge { state with
    g := { state.g with outgoingEdges := Function.update state.g.outgoingEdges nextIdx [] }
    instrOrder := state.instrOrder ++ [nextIdx]
    currentCycle := state.currentCycle + (state.g.label nextIdx).execLatency }

/-- The loop of `generate_order`. Between two instructions that it schedules it fast-forwards at
most once, so the fuel lasts when it is more than twice the number of instructions. -/
def orderLoop : Nat → OrderState → Except Fault (List Nat × Nat)
  | 0, _ => .error (.panic "out of fuel")
  | fuel + 1, state => do
    let (ready, future) := moveReady state.g.label state.currentCycle state.future.length
      state.ready state.future
    match popMax ReadyInstr.lt ready with
    | some (next, ready) => orderLoop fuel (← scheduleInstr { state with ready, future } next.index)
    | none =>
      match popMax FutureReadyInstr.lt future with
      | none => return (state.instrOrder, state.currentCycle)
      | some (fri, _) =>
        assertThat (state.currentCycle < fri.readyCycle) "ready_cycle > current_cycle"
        orderLoop fuel { state with ready, future, currentCycle := fri.readyCycle }

/-- `generate_order`. -/
def generateOrder (g : DepGraph) (initReadyList : List Nat) : Except Fault (List Nat × Nat) :=
  orderLoop (2 * g.len + 2) { g, future := initReadyList.map (FutureReadyInstr.new g.label) }

/-- The new order of a list of instructions, from top to bottom, and the cycles it takes. -/
def newOrder (sm : ShaderModel) (instrs : List Instr) : Except Fault (List Nat × Nat) := do
  let g ← generateDepGraph sm instrs
  let (g, initReadyList) ← g.calcStatistics
  let (order, cycleCount) ← generateOrder g.reverse initReadyList
  return (order.reverse, cycleCount)

/-- Take an instruction out of its place. -/
def takeInstr (state : List (Option Instr) × List Instr) (i : Nat) :
    Except Fault (List (Option Instr) × List Instr) := do
  let instr ← expect state.1[i]?.join "Instruction scheduled twice"
  return (state.1.set i none, state.2 ++ [instr])

/-- `sched_buffer`. -/
def schedBuffer (sm : ShaderModel) (instrs : List Instr) : Except Fault (List Instr × Nat) := do
  let (order, cycleCount) ← newOrder sm instrs
  let (_, instrs) ← order.foldlM takeInstr (instrs.map some, [])
  return (instrs, cycleCount)

end Postpass

/-- `Function::opt_instr_sched_postpass`, with its count of static cycles. The weight of a block is
estimated by its loop depth in floating point. -/
def Function.optInstrSchedPostpass (sm : ShaderModel)
    (estimateBlockWeight : CFG BasicBlock → Nat → Except Fault Nat) (f : Function) :
    Except Fault (Function × Nat) :=
  (List.range f.blocks.len).foldlM (fun (f, staticCycleCount) i => do
    let (instrs, cycleCount) ← Postpass.schedBuffer sm (f.instrs i)
    assertThat (instrs.length = (f.instrs i).length) "orig_instr_count == block.instrs.len()"
    let blocks := { f.blocks with
      blocks := f.blocks.blocks.modify i fun block => { block with instrs } }
    let blockWeight ← estimateBlockWeight blocks i
    assertThat (cycleCount * blockWeight + staticCycleCount < 2 ^ 64)
      "Cycle count estimate overflow"
    return ({ f with blocks }, cycleCount * blockWeight + staticCycleCount)) (f, 0)

end CoralReef
