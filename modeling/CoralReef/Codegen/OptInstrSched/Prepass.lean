import CoralReef.Codegen.OptInstrSched.Postpass
import CoralReef.Codegen.OptInstrSched.Prepass.GenerateOrder

/-!
# Scheduling before register allocation

`codegen/opt_instr_sched_prepass/mod.rs`. The register limits to try depend on the occupancy of the
target and are a parameter. Debug assertions are left out, as in a release build.
-/

namespace CoralReef.Prepass

/-!
## Schedule units

`codegen/opt_instr_sched_prepass/schedule.rs`: a block is cut into its phis, its branch and the
instructions in between, which alone are scheduled.
-/

/-- `ScheduleType`. -/
inductive ScheduleType where
  | regLimit (gprTarget : Nat)
  | spill
  deriving DecidableEq, Repr

/-- `ScheduleUnit`. The graph is made again whenever it is needed, and `live_in_count` feeds a
debug assertion only. -/
structure ScheduleUnit where
  liveOut : Option LiveSet := none
  instrs : List Instr := []
  newOrder : Option (List Nat) := none
  lastTriedScheduleType : Option ScheduleType := none
  peakGprCount : Int := 0
  phiDsts : Option Instr := none
  phiSrcs : Option Instr := none
  branch : Option Instr := none
  deriving DecidableEq, Repr

/-- `TARGET_FREE`. -/
def targetFree : Int := 4

/-- `SW_RESERVED_GPRS_SPILL`. -/
def swReservedGprsSpill : Int := 2

/-- `ScheduleType::thresholds`. -/
def ScheduleType.thresholds (maxRegCount : RegCounts) (unit : ScheduleUnit) :
    ScheduleType → ScheduleThresholds
  | .regLimit gprTarget =>
    { heuristicThreshold := gprTarget - targetFree, quitThreshold := gprTarget }
  | .spill =>
    { heuristicThreshold := maxRegCount .gpr - swReservedGprsSpill - targetFree
      quitThreshold := unit.peakGprCount }

namespace ScheduleUnit

/-- `ScheduleUnitGraph::new` and `sched_buffer`. -/
def schedBuffer (sm : ShaderModel) (maxRegCount : RegCounts) (instrs : List Instr)
    (liveOut : LiveSet) (thresholds : ScheduleThresholds) : Except Fault (Option (List Nat)) := do
  let g ← generateDepGraph sm instrs
  let (g, initReadyList) ← g.calcStatistics
  let order ← generateOrder maxRegCount instrs liveOut g.reverse initReadyList thresholds
  return order.map List.reverse

/-- `ScheduleUnit::schedule`. -/
def schedule (sm : ShaderModel) (maxRegCount : RegCounts) (scheduleType : ScheduleType)
    (unit : ScheduleUnit) : Except Fault ScheduleUnit := do
  let liveOut ← expect unit.liveOut "live_out must be set before scheduling"
  let order ← schedBuffer sm maxRegCount unit.instrs liveOut
    (scheduleType.thresholds maxRegCount unit)
  return { unit with
    lastTriedScheduleType := some scheduleType
    newOrder := if order.isSome then order else unit.newOrder }

/-- `finish_block`. -/
def finishBlock (unit : ScheduleUnit) (liveOut : LiveSet) : ScheduleUnit :=
  { unit with liveOut := unit.liveOut.or (some liveOut) }

/-- `to_instrs`. -/
def toInstrs (unit : ScheduleUnit) : Except Fault (List Instr) := do
  let scheduled ← match unit.newOrder with
    | some order => do
      assertThat (order.length = unit.instrs.length) "self.order.len() == instrs.len()"
      let (_, scheduled) ← order.foldlM Postpass.takeInstr (unit.instrs.map some, [])
      pure scheduled
    | none => pure unit.instrs
  return unit.phiDsts.toList ++ scheduled ++ unit.phiSrcs.toList ++ unit.branch.toList

end ScheduleUnit

/-- What the first pass over the blocks gathers. -/
structure Gathered where
  minGprTarget : Int := 1
  maxGprTarget : Int := 1
  units : List ScheduleUnit := []
  liveOutSets : List LiveSet := []

/-- What the loop over the instructions of a block carries. -/
structure Cut where
  unit : ScheduleUnit := {}
  live : LiveSet
  minGprTarget : Int
  maxGprTarget : Int

/-- Put an instruction in its place in the unit. -/
def place (unit : ScheduleUnit) (instr : Instr) : Except Fault ScheduleUnit :=
  match instr.op with
  | .phiDsts _ => .ok { unit with phiDsts := some instr }
  | .phiSrcs _ => .ok { unit with phiSrcs := some instr }
  | op =>
    if op.isBranch then .ok { unit with branch := some instr }
    else do
      assertThat unit.liveOut.isNone "unit.live_out.is_none()"
      return { unit with instrs := unit.instrs ++ [instr] }

def startsBlock : Op → Bool
  | .phiDsts _ => true
  | _ => false

def endsBlock : Op → Bool
  | .phiSrcs _ => true
  | op => op.isBranch

/-- The registers an instruction uses at its worst point. -/
def usedGprs (maxRegCount : RegCounts) (instr : Instr) (live : LiveSet) (liveCount : RegCounts) :
    Except Fault Int :=
  match instr.op with
  | .regOut srcs => do
    assertThat (live.count .gpr = 0) "live_set.count(RegFile::GPR) == 0"
    return max (calcUsedGprs liveCount maxRegCount) srcs.length
  | _ => .ok (calcUsedGprs liveCount maxRegCount)

/-- One instruction of the first pass. -/
def cutInstr (maxRegCount : RegCounts) (bl : SimpleBlockLiveness) (cut : Cut)
    (entry : Instr × Nat) : Except Fault Cut := do
  let (instr, ip) := entry
  let unit := if endsBlock instr.op then cut.unit.finishBlock cut.live else cut.unit
  let (live, liveCount) := cut.live.insertInstrTopDown ip instr bl
  let usedGprs ← usedGprs maxRegCount instr live liveCount
  let unit := if startsBlock instr.op || endsBlock instr.op then unit
    else { unit with peakGprCount := max unit.peakGprCount usedGprs }
  return {
    unit := ← place unit instr
    live
    maxGprTarget := max cut.maxGprTarget usedGprs
    minGprTarget := if sideEffectType instr.op = .barrier then max cut.minGprTarget usedGprs
      else cut.minGprTarget }

/-- The values live at the head of a block, from the blocks before it if no edge leads back. -/
def liveAtHead (f : Function) (liveness : SimpleLiveness) (liveOutSets : List LiveSet)
    (bl : SimpleBlockLiveness) (b : Nat) : Except Fault LiveSet :=
  if (f.blocks.predecessors b).any fun p => b ≤ p then do
    return (← liveness.liveInValues b).foldl LiveSet.insert []
  else
    .ok ((f.blocks.predecessors b).foldl (fun set pred =>
      ((liveOutSets.getD pred []).filter bl.isLiveIn).foldl LiveSet.insert set) [])

/-- One block of the first pass. -/
def cutBlock (maxRegCount : RegCounts) (f : Function) (liveness : SimpleLiveness)
    (gathered : Gathered) (b : Nat) : Except Fault Gathered := do
  let bl ← liveness.blockLive b
  let live ← liveAtHead f liveness gathered.liveOutSets bl b
  let cut ← (f.instrs b).zipIdx.foldlM (cutInstr maxRegCount bl)
    { live, minGprTarget := gathered.minGprTarget, maxGprTarget := gathered.maxGprTarget }
  return {
    minGprTarget := cut.minGprTarget
    maxGprTarget := cut.maxGprTarget
    units := gathered.units ++ [cut.unit.finishBlock cut.live]
    liveOutSets := gathered.liveOutSets ++ [cut.live] }

section Schedule

variable (sm : ShaderModel) (maxRegCount : RegCounts)

/-- Try schedule types, the last one first, until one gives an order or only one is left. -/
def tryTypes (unit : ScheduleUnit) : List ScheduleType → Except Fault (ScheduleUnit × List ScheduleType)
  | [] => .error (.panic "schedule_types must not be empty")
  | scheduleType :: rest => do
    let unit ← unit.schedule sm maxRegCount scheduleType
    if unit.newOrder.isSome || rest.isEmpty then return (unit, scheduleType :: rest)
    else tryTypes unit rest

/-- One unit of the second pass. The types to try are in the order in which they are tried. -/
def tryUnit (state : List ScheduleUnit × List ScheduleType) (unit : ScheduleUnit) :
    Except Fault (List ScheduleUnit × List ScheduleType) := do
  if unit.instrs.isEmpty then return (state.1 ++ [unit], state.2)
  let (unit, types) ← tryTypes sm maxRegCount unit state.2
  return (state.1 ++ [unit], types)

/-- Schedule a unit with the type that was settled on, unless it was tried last. -/
def finishUnit (scheduleType : ScheduleType) (unit : ScheduleUnit) : Except Fault (List Instr) := do
  let unit ←
    if !unit.instrs.isEmpty && unit.lastTriedScheduleType ≠ some scheduleType then
      unit.schedule sm maxRegCount scheduleType
    else pure unit
  unit.toInstrs

end Schedule

end Prepass

/-- `Function::opt_instr_sched_prepass`. `get_schedule_types` gives the types in the order in which
they are tried. -/
def Function.optInstrSchedPrepass (sm : ShaderModel) (maxRegCount : RegCounts)
    (getScheduleTypes : Int → Int → List Prepass.ScheduleType) (f : Function) :
    Except Fault Function := do
  let liveness ← SimpleLiveness.forFunction f
  let gathered ← (List.range f.blocks.len).foldlM (Prepass.cutBlock maxRegCount f liveness) {}
  let scheduleTypes := getScheduleTypes gathered.minGprTarget gathered.maxGprTarget
  let (units, scheduleTypes) ← gathered.units.foldlM (Prepass.tryUnit sm maxRegCount)
    ([], scheduleTypes)
  let scheduleType ← expect scheduleTypes.head? "schedule_types must not be empty"
  let instrs ← units.mapM (Prepass.finishUnit sm maxRegCount scheduleType)
  return { f with blocks := { f.blocks with
    blocks := f.blocks.blocks.zipWith (fun block instrs => { block with instrs }) instrs } }

end CoralReef
