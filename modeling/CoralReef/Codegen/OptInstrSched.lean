import CoralReef.Codegen.Ir.Instr

/-!
# Instruction scheduling

`codegen/opt_instr_sched_common.rs`: side effect classes, the dependency graph and the queues that
both schedulers use. Node numbers are positions in a list of instructions. Cycles and use counts
are `u32`; a block too small to overflow them is taken for granted.
-/

namespace CoralReef

/-- What the schedulers ask the `ShaderModel` of a target. -/
structure ShaderModel where
  sm : Nat
  opNeedsScoreboard : Op → Bool
  execLatency : Op → Nat
  /-- `write`, `dst_idx`, `read`, `src_idx` -/
  rawLatency : Op → Nat → Op → Nat → Nat
  /-- `read`, `src_idx`, `write`, `dst_idx` -/
  warLatency : Op → Nat → Op → Nat → Nat
  /-- `a`, `a_dst_idx`, `a_has_pred`, `b`, `b_dst_idx` -/
  wawLatency : Op → Nat → Bool → Op → Nat → Nat
  /-- `write`, `dst_idx` -/
  pawLatency : Op → Nat → Nat
  /-- `write`, `dst_idx` -/
  worstLatency : Op → Nat → Nat

inductive SideEffect where
  | none | memory | barrier
  deriving DecidableEq, Repr

/-- The ops of class `SideEffect::Memory`. -/
def memoryOps : List String :=
  ["Tex", "Tld", "Tld4", "Tmml", "Txd", "Txq", "SuLd", "SuSt", "SuAtom", "SuLdGa", "SuStGa", "Ld",
    "Ldsm", "LdSharedLock", "St", "StSCheckUnlock", "Atom", "AL2P", "ALd", "ASt", "CCtl", "LdTram",
    "MemBar", "BMov"]

/-- The ops of class `SideEffect::Barrier` that no constructor stands for. A `Nop` with a label is
named apart from one without. -/
def barrierOps : List String :=
  ["BClear", "BSync", "SSy", "PBk", "PCnt", "WarpSync", "Out", "OutFinal", "Bar", "TexDepBar",
    "CS2R", "Isberd", "ViLd", "Kill", "S2R", "NopLabel", "SrcBar"]

/-- `side_effect_type`. -/
def sideEffectType : Op → SideEffect
  | .undef _ | .copy _ _ | .swap _ _ _ _ | .parCopy _ | .annotate _ => .none
  | .phiSrcs _ | .phiDsts _ | .pin _ _ | .unpin _ _ | .regOut _ => .barrier
  | .break_ _ _ _ | .bssy _ _ _ _ | .bra _ _ | .jump _ _ | .exit => .barrier
  | .other op _ _ =>
    if op.name ∈ memoryOps then .memory else if op.name ∈ barrierOps then .barrier else .none

/-- The estimates of `estimate_variable_latency` by op. -/
def variableLatencies : List (List String × Nat) :=
  [(["Rro", "Transcendental", "BRev", "Flo", "PopC"], 15),
    (["DFma", "DSetP"], 54),
    (["DAdd", "DMnMx", "DMul"], 48),
    (["F64Exp2", "F64Log2", "F64Rcp", "F64Sin", "F64Cos", "F64Sqrt"], 200),
    (["F2F", "F2I", "I2F", "I2I", "FRnd", "Shfl", "Redux", "R2UR"], 15),
    (["Tex", "Tld", "Tld4", "Tmml", "Txd", "Txq", "SuLd", "SuSt", "SuAtom", "SuLdGa", "SuStGa",
      "Ld", "Ldsm", "Movm", "LdSharedLock", "St", "StSCheckUnlock", "Atom", "AL2P", "ALd", "ASt",
      "Ipa", "CCtl", "LdTram", "MemBar"], 32),
    (["Ldc"], 4),
    (["WarpSync", "BMov", "Bar", "TexDepBar", "CS2R", "Isberd", "ViLd", "Kill", "PixLd", "S2R",
      "Match"], 16),
    (["Out", "OutFinal"], 2),
    (["Hmma", "Imma"], 22)]

/-- `estimate_variable_latency`. -/
def estimateVariableLatency (sm : ShaderModel) (op : Op) : Except Fault Nat :=
  if !sm.opNeedsScoreboard op then .ok 0
  else
    match op with
    | .other op _ _ =>
      if op.name ∈ ["IMad", "IMul"] then do
        assertThat (sm.sm < 70) "sm.sm() < 70"
        return 86
      else
        expect ((variableLatencies.find? fun entry => op.name ∈ entry.1).map Prod.snd)
          "Unknown variable latency op"
    | _ => .error (.panic "Unknown variable latency op")

structure NodeLabel where
  cyclesToEnd : Nat := 0
  useCount : Nat := 0
  /-- The first cycle that the instruction can begin executing. -/
  readyCycle : Nat := 0
  execLatency : Nat := 0
  deriving DecidableEq, Repr

structure Edge where
  latency : Nat
  headIdx : Nat
  deriving DecidableEq, Repr

/-- `graph::Graph`. -/
structure DepGraph where
  len : Nat
  label : Nat → NodeLabel := fun _ => {}
  outgoingEdges : Nat → List Edge := fun _ => []

namespace DepGraph

/-- The heads of the edges of a node. -/
def heads (g : DepGraph) (i : Nat) : List Nat := (g.outgoingEdges i).map Edge.headIdx

/-- `Graph::add_edge`. -/
def addEdge (g : DepGraph) (tailIdx : Nat) (edge : Edge) : Except Fault DepGraph := do
  assertThat (edge.headIdx < g.len) "head_idx < self.nodes.len()"
  return { g with
    outgoingEdges := Function.update g.outgoingEdges tailIdx (g.outgoingEdges tailIdx ++ [edge]) }

/-- `Graph::reverse`: tails in order, and the edges of a tail in order. -/
def reverse (g : DepGraph) : DepGraph :=
  { g with
    outgoingEdges := fun head => (List.range g.len).flatMap fun tail =>
      (g.outgoingEdges tail).filterMap fun e =>
        if e.headIdx = head then some { e with headIdx := tail } else none }

/-- One node of `calc_statistics`. -/
def calcNode (state : DepGraph × List Nat) (i : Nat) : Except Fault (DepGraph × List Nat) := do
  let (g, initialReadyList) := state
  assertThat ((g.outgoingEdges i).all fun e => i < e.headIdx) "edge.head_idx > i"
  let maxDelay := (g.outgoingEdges i).foldl
    (fun delay e => max delay ((g.label e.headIdx).cyclesToEnd + e.latency)) 0
  let useCount := (g.outgoingEdges i).length
  let g := { g with
    label := Function.update g.label i { g.label i with cyclesToEnd := maxDelay, useCount } }
  return (g, if useCount = 0 then initialReadyList ++ [i] else initialReadyList)

/-- `calc_statistics`. -/
def calcStatistics (g : DepGraph) : Except Fault (DepGraph × List Nat) :=
  (List.range g.len).reverse.foldlM calcNode (g, [])

end DepGraph

structure ReadyInstr where
  cyclesToEnd : Nat
  index : Nat
  deriving DecidableEq, Repr

namespace ReadyInstr

/-- `ReadyInstr::new`. -/
def new (label : Nat → NodeLabel) (i : Nat) : ReadyInstr :=
  { cyclesToEnd := (label i).cyclesToEnd + (label i).execLatency, index := i }

/-- The derived order. -/
def lt (a b : ReadyInstr) : Bool :=
  decide (a.cyclesToEnd < b.cyclesToEnd) ||
    (decide (a.cyclesToEnd = b.cyclesToEnd) && decide (a.index < b.index))

end ReadyInstr

structure FutureReadyInstr where
  /-- The first cycle that the instruction can end executing. -/
  readyCycle : Nat
  index : Nat
  deriving DecidableEq, Repr

namespace FutureReadyInstr

/-- `FutureReadyInstr::new`. -/
def new (label : Nat → NodeLabel) (i : Nat) : FutureReadyInstr :=
  { readyCycle := (label i).readyCycle - (label i).execLatency, index := i }

/-- The derived order: the cycle is wrapped in `Reverse`. -/
def lt (a b : FutureReadyInstr) : Bool :=
  decide (b.readyCycle < a.readyCycle) ||
    (decide (a.readyCycle = b.readyCycle) && decide (a.index < b.index))

end FutureReadyInstr

/-- Take the greatest element out, as `BinaryHeap::pop` and `BTreeSet::pop_last` do. -/
def popMax {α : Type} (lt : α → α → Bool) : List α → Option (α × List α)
  | [] => none
  | a :: rest =>
    match popMax lt rest with
    | none => some (a, [])
    | some (m, others) => if lt a m then some (m, a :: others) else some (a, m :: others)

/-- Move the instructions that are ready to the ready list. -/
def moveReady (label : Nat → NodeLabel) (currentCycle : Nat) :
    Nat → List ReadyInstr → List FutureReadyInstr → List ReadyInstr × List FutureReadyInstr
  | 0, ready, future => (ready, future)
  | fuel + 1, ready, future =>
    match popMax FutureReadyInstr.lt future with
    | none => (ready, future)
    | some (fri, rest) =>
      if currentCycle < fri.readyCycle then (ready, future)
      else moveReady label currentCycle fuel (ReadyInstr.new label fri.index :: ready) rest

/-!
## SM50

`codegen/nv/sm50/encoder.rs`: the latencies of `ShaderModel50`, and the ops of fixed latency of
`codegen/ir/op.rs`. The target has no uniform registers, and virtual ops are gone when latencies
are asked for.
-/

/-- The ops that `Op::has_fixed_latency` holds of for every target. -/
def fixedLatencyOps : List String :=
  ["F2FP", "FAdd", "FFma", "FMnMx", "FMul", "FSet", "FSetP", "HAdd2", "HFma2", "HMul2", "HSet2",
    "HSetP2", "HMnMx2", "FSwz", "FSwzAdd", "BMsk", "IAbs", "IAdd2", "IAdd2X", "IAdd3", "IAdd3X",
    "IDp4", "IMad64", "IMnMx", "ISetP", "Lea", "LeaX", "Lop2", "Lop3", "SuClamp", "SuBfm", "SuEau",
    "IMadSp", "Shf", "Shl", "Shr", "Bfe", "Mov", "Prmt", "Sel", "Sgxt", "PLop3", "PSetP", "Nop",
    "NopLabel", "Vote"]

/-- The ops of `Op::no_scoreboard` that no constructor stands for. -/
def noScoreboardOps : List String := ["BClear", "BSync", "SSy", "PBk", "PCnt"]

/-- `Op::has_fixed_latency`. -/
def hasFixedLatency (sm : Nat) (op : OpOther) : Bool :=
  if op.name ∈ ["IMad", "IMul"] then 70 ≤ sm else op.name ∈ fixedLatencyOps

/-- `ShaderModel::op_needs_scoreboard`. -/
def opNeedsScoreboard (sm : Nat) : Op → Bool
  | .other op _ _ => op.name ∉ noScoreboardOps && !hasFixedLatency sm op
  | _ => false

namespace Sm50

/-- The ops of half and double precision. -/
def slowOps : List String :=
  ["DAdd", "DFma", "DMnMx", "DMul", "DSetP", "HAdd2", "HFma2", "HMul2", "HSet2", "HSetP2", "HMnMx2"]

def isSlow : Op → Bool
  | .other op _ _ => op.name ∈ slowOps
  | _ => false

/-- `instr_latency`. -/
def instrLatency (op : Op) (dstIdx : Nat) : Nat :=
  let file := match op.dsts[dstIdx]? with
    | some (.ssa ref) => (ref.head?).map SSAValue.file
    | some (.reg reg) => some reg.file
    | _ => none
  match file with
  | some .gpr => if isSlow op then 13 else 6
  | some .pred => if isSlow op then 14 else 13
  | some .carry => 6
  | _ => 0

/-- `exec_latency`. -/
def execLatency : Op → Nat
  | .bra _ _ | .jump _ _ | .exit => 13
  | .other op _ _ =>
    if op.name ∈ ["CCtl", "MemBar", "SSy", "PBk", "PCnt", "Bar", "Kill", "OutFinal"] then 13 else 1
  | _ => 1

end Sm50

/-- `ShaderModel50`. -/
def shaderModel50 : ShaderModel where
  sm := 50
  opNeedsScoreboard := opNeedsScoreboard 50
  execLatency := Sm50.execLatency
  rawLatency write dstIdx _ _ := Sm50.instrLatency write dstIdx
  warLatency _ _ _ _ := 4
  wawLatency a aDstIdx _ _ _ := Sm50.instrLatency a aDstIdx
  pawLatency _ _ := 13
  worstLatency := Sm50.instrLatency

end CoralReef
