import CoralReef.Codegen.Liveness
import CoralReef.Codegen.OptInstrSched

/-!
# The order of a schedule unit

`codegen/opt_instr_sched_prepass/generate_order.rs`. The dependency graph is built from the first
instruction to the last and reversed; the order is picked from the bottom to the top. Debug
assertions are left out, as in a release build.
-/

/-!
## Register pressure

`LiveSet` of `codegen/liveness.rs` and `codegen/opt_instr_sched_prepass/net_live.rs`. A set of
values is a list, and counts are unbounded: an instruction has far fewer operands than an `i8` can
count.
-/

namespace CoralReef

/-- `PerRegFile<i32>`. -/
abbrev RegCounts := RegFile → Int

abbrev LiveSet := List SSAValue

namespace LiveSet

def insert (live : LiveSet) (ssa : SSAValue) : LiveSet := if ssa ∈ live then live else ssa :: live

def remove (live : LiveSet) (ssa : SSAValue) : LiveSet := live.filter (· ≠ ssa)

/-- `LiveSet::count`, for all files. -/
def count (live : LiveSet) : RegCounts := fun file => (live.countP fun ssa => ssa.file = file)

/-- The values of the vector destinations, or those of the scalar ones. -/
def dstsWhere (vectors : Bool) (instr : Instr) : List SSAValue :=
  (instr.dsts.filter fun dst => decide (1 < dst.iterSsa.length) = vectors).flatMap Dst.iterSsa

/-- `LiveSet::insert_instr_top_down`, with the counts it returns. -/
def insertInstrTopDown (live : LiveSet) (ip : Nat) (instr : Instr) (bl : SimpleBlockLiveness) :
    LiveSet × RegCounts :=
  let dead (ssa : SSAValue) : Bool := !bl.isLiveAfterIp ssa ip
  let afterDsts := (dstsWhere true instr).foldl insert live
  let live := (instr.ssaUses.filter dead).foldl remove afterDsts
  let live := (dstsWhere false instr).foldl insert live
  let maxLive := fun file => max (live.count file) (afterDsts.count file)
  ((instr.ssaDefs.filter dead).foldl remove live, maxLive)

end LiveSet

namespace Prepass

/-- `InstrCount`: the net change in live values over an instruction that is scheduled next, at its
end, and just before its sources are read. -/
structure InstrCount where
  net : RegCounts := fun _ => 0
  peak1 : RegCounts := fun _ => 0
  peak2 : RegCounts := fun _ => 0

def addTo (counts : RegCounts) (file : RegFile) (n : Int) : RegCounts :=
  Function.update counts file (counts file + n)

/-- The counts for one value that an instruction defines. -/
def InstrCount.addDef (isVector isUsed : Bool) (c : InstrCount) (ssa : SSAValue) : InstrCount :=
  let c := if isUsed then { c with net := addTo c.net ssa.file (-1) }
    else { c with peak1 := addTo c.peak1 ssa.file 1, peak2 := addTo c.peak2 ssa.file 1 }
  if isVector then c else { c with peak2 := addTo c.peak2 ssa.file (-1) }

/-- `NetLive`. No entry of the map is empty, so a value without instructions is not in it. -/
structure NetLive where
  counts : Nat → InstrCount
  ssaToInstr : SSAValue → List Nat

namespace NetLive

/-- The values an instruction uses that are not live at the end. -/
def useSet (liveOut : LiveSet) (instr : Instr) : List SSAValue :=
  (instr.ssaUses.filter (· ∉ liveOut)).foldl LiveSet.insert []

/-- `NetLive::new`. -/
def new (instrs : List Instr) (liveOut : LiveSet) : NetLive :=
  let ssaToInstr := fun ssa =>
    (instrs.zipIdx.filter fun entry => ssa ∈ useSet liveOut entry.1).map Prod.snd
  let counts := fun i => match instrs[i]? with
    | none => {}
    | some instr =>
      let net := LiveSet.count (useSet liveOut instr)
      instr.dsts.foldl (fun c dst => dst.iterSsa.foldl (fun c ssa =>
        c.addDef (1 < dst.iterSsa.length) (!(ssaToInstr ssa).isEmpty || ssa ∈ liveOut) ssa) c)
        { net, peak2 := net }
  { counts, ssaToInstr }

/-- `NetLive::remove`. -/
def remove (netLive : NetLive) (ssa : SSAValue) : Bool × NetLive :=
  match netLive.ssaToInstr ssa with
  | [] => (false, netLive)
  | idxs => (true, {
      counts := idxs.foldl (fun counts i => Function.update counts i { counts i with
        net := addTo (counts i).net ssa.file (-1)
        peak2 := addTo (counts i).peak2 ssa.file (-1) }) netLive.counts
      ssaToInstr := Function.update netLive.ssaToInstr ssa [] })

end NetLive

/-- The ops that `Op::is_virtual` holds of and no constructor stands for. -/
def virtualOps : List String :=
  ["SrcBar", "F64Exp2", "F64Log2", "F64Rcp", "F64Sin", "F64Cos", "F64Sqrt"]

/-- `Op::is_virtual`. -/
def isVirtual : Op → Bool
  | .undef _ | .phiSrcs _ | .phiDsts _ | .copy _ _ | .swap _ _ _ _ | .parCopy _ => true
  | .pin _ _ | .unpin _ _ | .regOut _ | .annotate _ => true
  | .break_ _ _ _ | .bssy _ _ _ _ | .bra _ _ | .jump _ _ | .exit => false
  | .other op _ _ => op.name ∈ virtualOps

/-- What the loop over the instructions carries: the instruction that defines a value with the
number of its destination, and the last ones of two classes. -/
structure GraphState where
  g : DepGraph
  defs : SSAValue → Option (Nat × Nat) := fun _ => none
  lastMemoryOp : Option Nat := none
  lastBarrierOp : Option Nat := none

section Graph

variable (sm : ShaderModel) (instrs : List Instr) (ip : Nat) (instr : Instr)

/-- The tails of the edges that keep barriers and memory operations in order. -/
def orderTails (state : GraphState) : List Nat :=
  state.lastBarrierOp.toList ++
  match sideEffectType instr.op with
  | .none => []
  | .barrier => List.range' (state.lastBarrierOp.getD 0) (ip - state.lastBarrierOp.getD 0)
  | .memory => state.lastMemoryOp.toList

/-- The values an instruction reads, with the number of the source or `none` for the guard. -/
def ssaReads : List (SSAValue × Option Nat) :=
  (instr.srcs.zipIdx.flatMap fun (src, i) => src.iterSsa.map fun ssa => (ssa, some i)) ++
    instr.pred.iterSsa.map fun ssa => (ssa, none)

/-- The latency of a value between its definition and a read. -/
def readLatency (defOp : Op) (defIdx : Nat) (srcIdx : Option Nat) : Except Fault Nat := do
  match srcIdx with
  | some i =>
    if isVirtual defOp || isVirtual instr.op then return 0
    return max (sm.rawLatency defOp defIdx instr.op i) (← estimateVariableLatency sm defOp)
  | none =>
    if isVirtual defOp then return 0
    return max (sm.pawLatency defOp defIdx) (← estimateVariableLatency sm defOp)

/-- Add the edge for a value that is read. -/
def addRead (defs : SSAValue → Option (Nat × Nat)) (g : DepGraph) (read : SSAValue × Option Nat) :
    Except Fault DepGraph :=
  match defs read.1 with
  | none => .ok g
  | some (defIp, defIdx) => do
    let defInstr ← expect instrs[defIp]? "index out of bounds"
    let latency ← readLatency sm instr defInstr.op defIdx read.2
    g.addEdge defIp ⟨latency, ip⟩

/-- One instruction of the loop of `generate_dep_graph`. -/
def graphStep (state : GraphState) : Except Fault GraphState := do
  let g ← (orderTails ip instr state).foldlM (fun g tail => g.addEdge tail ⟨0, ip⟩) state.g
  let g ← (ssaReads instr).foldlM (addRead sm instrs ip instr state.defs) g
  return {
    g
    defs := instr.dsts.zipIdx.foldl (fun defs (dst, i) =>
      dst.iterSsa.foldl (fun defs ssa => Function.update defs ssa (some (ip, i))) defs) state.defs
    lastMemoryOp := if sideEffectType instr.op = .memory then some ip else state.lastMemoryOp
    lastBarrierOp := if sideEffectType instr.op = .barrier then some ip else state.lastBarrierOp }

end Graph

/-- `generate_dep_graph`. -/
def generateDepGraph (sm : ShaderModel) (instrs : List Instr) : Except Fault DepGraph := do
  let state ← instrs.zipIdx.foldlM (fun state (instr, ip) => graphStep sm instrs ip instr state)
    { g := { len := instrs.length } }
  return state.g

/-- `SPILL_FILES`. -/
def spillFiles : List (RegFile × RegFile × Int) :=
  [(.bar, .gpr, 6 + 6), (.pred, .gpr, 12 + 6), (.upred, .ugpr, 12 + 6), (.ugpr, .gpr, 15 + 6),
    (.gpr, .mem, 32 + 32)]

/-- `calc_used_gprs`. -/
def calcUsedGprs (p maxRegCount : RegCounts) : Int :=
  spillFiles.foldl (fun p (src, dest, _) =>
    if maxRegCount src < p src then addTo p dest (p src - maxRegCount src) else p) p .gpr

/-- `calc_score_part`. -/
def calcScorePart (p maxRegCount : RegCounts) : Int × Int :=
  let (_, badness, goodness) := spillFiles.foldl (fun (p, badness, goodness) (src, dest, weight) =>
    if maxRegCount src < p src then
      let spillCount := p src - maxRegCount src
      (addTo p dest spillCount, badness + spillCount * weight, goodness)
    else (p, badness, goodness + (maxRegCount src - p src) * weight)) (p, (0 : Int), (0 : Int))
  (badness, goodness)

/-- `ScheduleThresholds`. -/
structure ScheduleThresholds where
  /-- Schedule for pressure from here on. -/
  heuristicThreshold : Int
  /-- Give up from here on. -/
  quitThreshold : Int
  deriving DecidableEq, Repr

/-- `Score`: whether the instruction is usable, its badness and its goodness. -/
structure Score where
  usable : Bool
  badness : Int
  goodness : Int
  deriving DecidableEq, Repr

/-- The derived order: the badness is wrapped in `Reverse`. -/
def Score.lt (a b : Score) : Bool :=
  (!a.usable && b.usable) || (a.usable == b.usable && (decide (b.badness < a.badness) ||
    (decide (a.badness = b.badness) && decide (a.goodness < b.goodness))))

/-- The order of pairs. -/
def scoredLt {α : Type} (lt : α → α → Bool) (a b : Score × α) : Bool :=
  a.1.lt b.1 || (decide (a.1 = b.1) && lt a.2 b.2)

/-- `calc_score`. -/
def calcScore (net peak1 peak2 maxRegCount : RegCounts) (delayCycles : Nat)
    (thresholds : ScheduleThresholds) : Score :=
  let peakGprs := max (calcUsedGprs peak1 maxRegCount) (calcUsedGprs peak2 maxRegCount)
  if thresholds.quitThreshold < peakGprs then ⟨false, 0, 0⟩
  else
    let (badness, goodness) := calcScorePart net maxRegCount
    ⟨true, badness + delayCycles, goodness⟩

/-- What the loop of `generate_order` carries. -/
structure OrderState where
  netLive : NetLive
  live : LiveSet
  useCount : Nat → Nat
  ready : List ReadyInstr
  future : List FutureReadyInstr := []
  currentCycle : Nat := 0
  instrOrder : List Nat := []

section Order

variable (maxRegCount : RegCounts) (thresholds : ScheduleThresholds)

/-- `new_used_regs`. -/
def OrderState.newUsedRegs (state : OrderState) (net : RegCounts) : RegCounts :=
  fun file => state.live.count file + net file

/-- `new_score`. -/
def OrderState.newScore (state : OrderState) (i delayCycles : Nat) : Score :=
  let c := state.netLive.counts i
  calcScore (state.newUsedRegs c.net) (state.newUsedRegs c.peak1) (state.newUsedRegs c.peak2)
    maxRegCount delayCycles thresholds

/-- Pick the next instruction, and take it out of its queue. -/
def pickNext (state : OrderState) : Except Fault (Nat × OrderState) :=
  if calcUsedGprs state.live.count maxRegCount ≤ thresholds.heuristicThreshold then do
    let (next, ready) ← expect (popMax ReadyInstr.lt state.ready)
      "ready_instrs must not be empty when used"
    return (next.index, { state with ready })
  else do
    let ((newScore, next), others) ← expect
      (popMax (scoredLt ReadyInstr.lt) (state.ready.map fun r =>
        (state.newScore maxRegCount thresholds r.index 0, r)))
      "ready_instrs must not be empty when scheduling for pressure"
    let better := state.future.filterMap fun fri =>
      let s := state.newScore maxRegCount thresholds fri.index (fri.readyCycle - state.currentCycle)
      if newScore.lt s then some (s, fri) else none
    match popMax (scoredLt FutureReadyInstr.lt) better with
    | some ((_, fri), _) =>
      assertThat (state.currentCycle < fri.readyCycle) "ready_cycle > current_cycle"
      return (fri.index, { state with
        future := state.future.erase fri, currentCycle := fri.readyCycle })
    | none => return (next.index, { state with ready := others.map Prod.snd })

variable (g : DepGraph) (instrs : List Instr)

/-- Count down the use of the head of an edge. -/
def releaseEdge (state : OrderState) (edge : Edge) : Except Fault OrderState := do
  assertThat (0 < state.useCount edge.headIdx) "attempt to subtract with overflow"
  let useCount := Function.update state.useCount edge.headIdx (state.useCount edge.headIdx - 1)
  return { state with
    useCount
    future := if useCount edge.headIdx = 0 then
        FutureReadyInstr.new g.label edge.headIdx :: state.future
      else state.future }

/-- Make the values that an instruction uses live, and those that it defines dead. -/
def OrderState.updateLive (state : OrderState) (instr : Instr) : OrderState :=
  let live := instr.ssaDefs.foldl LiveSet.remove state.live
  let (netLive, live) := instr.ssaUses.foldl (fun (netLive, live) ssa =>
    match netLive.remove ssa with
    | (true, netLive) => (netLive, live.insert ssa)
    | (false, netLive) => (netLive, live)) (state.netLive, live)
  { state with netLive, live }

/-- Schedule the instruction that was picked. -/
def scheduleInstr (state : OrderState) (nextIdx : Nat) : Except Fault OrderState := do
  let state ← (g.outgoingEdges nextIdx).foldlM (releaseEdge g) state
  let instr ← expect instrs[nextIdx]? "index out of bounds"
  let state := state.updateLive instr
  return { state with
    instrOrder := state.instrOrder ++ [nextIdx], currentCycle := state.currentCycle + 1 }

/-- The loop of `generate_order`. Between two instructions that it schedules it fast-forwards at
most once, so the fuel lasts when it is more than twice the number of instructions. -/
def orderLoop : Nat → OrderState → Except Fault (Option (List Nat))
  | 0, _ => .error (.panic "out of fuel")
  | fuel + 1, state => do
    let (ready, future) := moveReady g.label state.currentCycle state.future.length state.ready
      state.future
    let state := { state with ready, future }
    if ready.isEmpty then
      match popMax FutureReadyInstr.lt future with
      | none => return some state.instrOrder
      | some (fri, _) =>
        assertThat (state.currentCycle < fri.readyCycle) "ready_cycle > current_cycle"
        orderLoop fuel { state with currentCycle := fri.readyCycle }
    else
      let (nextIdx, state) ← pickNext maxRegCount thresholds state
      let c := state.netLive.counts nextIdx
      let predictedPeak := max (calcUsedGprs (state.newUsedRegs c.peak1) maxRegCount)
        (calcUsedGprs (state.newUsedRegs c.peak2) maxRegCount)
      if thresholds.quitThreshold < predictedPeak then return none
      else orderLoop fuel (← scheduleInstr g instrs state nextIdx)

end Order

/-- `GenerateOrder::new` and `generate_order`. -/
def generateOrder (maxRegCount : RegCounts) (instrs : List Instr) (liveOut : LiveSet)
    (g : DepGraph) (initReadyList : List Nat) (thresholds : ScheduleThresholds) :
    Except Fault (Option (List Nat)) :=
  orderLoop maxRegCount thresholds g instrs (2 * g.len + 2) {
    netLive := .new instrs liveOut
    live := liveOut
    useCount := fun i => (g.label i).useCount
    ready := initReadyList.map (ReadyInstr.new g.label) }

end Prepass

end CoralReef
