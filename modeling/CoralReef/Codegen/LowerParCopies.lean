import CoralReef.Codegen.Ir.Instr
import Mathlib.Logic.Relation

/-!
# Lowering of parallel copies

`codegen/lower_par_copies.rs`. An `OpParCopy` becomes a sequence of `OpCopy` and `OpSwap`: a
graph whose nodes are operands and whose edges are copies is emptied from its unread nodes
inwards, and the cycles that remain are broken by swaps or through the temporary. Debug assertions
are checked, as in a debug build.
-/

namespace CoralReef

/-- A node of the copy graph: how many nodes read it, and the node it has to read. The source
encodes the absence of `src` as -1. -/
structure CopyNode where
  numReads : Nat
  src : Option Nat
  deriving DecidableEq, Repr

structure CopyGraph where
  nodes : List CopyNode := []
  deriving DecidableEq, Repr

namespace CopyGraph

/-- `CopyGraph::add_node`; the index of the new node is the old length. -/
def addNode (graph : CopyGraph) : CopyGraph := ⟨graph.nodes ++ [⟨0, none⟩]⟩

def numReads (graph : CopyGraph) (node : Nat) : Nat :=
  (graph.nodes[node]?.getD ⟨0, none⟩).numReads

def src (graph : CopyGraph) (node : Nat) : Option Nat :=
  (graph.nodes[node]?.getD ⟨0, none⟩).src

def setNode (graph : CopyGraph) (node : Nat) (value : CopyNode) : CopyGraph :=
  ⟨graph.nodes.set node value⟩

/-- `CopyGraph::add_edge`. -/
def addEdge (graph : CopyGraph) (dst src : Nat) : Except Fault CopyGraph := do
  assertThat (dst ≠ src) "dst_idx != src_idx"
  assertThat (graph.src dst = none) "self.nodes[dst_idx].src == -1"
  let graph := graph.setNode dst ⟨graph.numReads dst, some src⟩
  return graph.setNode src ⟨graph.numReads src + 1, graph.src src⟩

/-- `CopyGraph::del_edge`; the flag says that `src` is not read any more. -/
def delEdge (graph : CopyGraph) (dst src : Nat) : Except Fault (CopyGraph × Bool) := do
  assertThat (graph.src dst).isSome "self.nodes[dst_idx].src >= 0"
  let graph := graph.setNode dst ⟨graph.numReads dst, none⟩
  let graph := graph.setNode src ⟨graph.numReads src - 1, graph.src src⟩
  return (graph, graph.numReads src == 0)

end CopyGraph

/-- `copy_needs_tmp`. -/
def copyNeedsTmp (dst : RegRef) (src : SrcRef) : Bool :=
  match src.asReg with
  | some srcReg =>
    (dst.file = .mem && srcReg.file ≠ .gpr) || (dst.file = .bar && srcReg.file = .bar)
  | none => dst.file = .mem

/-- `cycle_use_swap`. -/
def cycleUseSwap (pc : OpParCopy) (file : RegFile) : Except Fault Bool :=
  match file with
  | .gpr =>
    match pc.tmp with
    | some tmp => do
      assertThat (tmp.file = .gpr) "tmp.file() == RegFile::GPR"
      return false
    | none => return true
  | .bar | .mem => do
    let tmp ← expect pc.tmp "This copy needs a temporary"
    assertThat (2 ≤ tmp.comps) "Memory cycles need 2 temporaries"
    return false
  | _ => return true

/-- `Builder::copy_to`. -/
def copyTo (dst : RegRef) (src : SrcRef) : Instr :=
  .new (.copy (.reg dst) { reference := src })

/-- `Builder::swap`. -/
def swapRegs (x y : RegRef) : Except Fault Instr := do
  assertThat (x.file = y.file) "x.file() == y.file()"
  return .new (.swap (.reg x) (.reg y) (.ofReg y) (.ofReg x))

namespace LowerParCopy

/-- The operand of each node, destinations first, and the nodes of the register operands
(`reg_to_idx`). -/
structure Operands where
  graph : CopyGraph := {}
  vals : List SrcRef := []
  regToIdx : List (RegRef × Nat) := []
  deriving DecidableEq, Repr

def Operands.addVal (operands : Operands) (val : SrcRef) : Operands :=
  { operands with graph := operands.graph.addNode, vals := operands.vals ++ [val] }

/-- One step of the loop that makes a node for each destination. -/
def addDst (operands : Operands) (dst : Dst) : Except Fault Operands := do
  let reg ← expect dst.asReg "OpParCopy dsts are Reg; run after register allocation"
  assertThat (operands.regToIdx.lookup reg = none) "!reg_to_idx.contains_key(reg)"
  assertThat (reg.comps = 1) "reg.comps() == 1"
  let idx := operands.vals.length
  let operands := operands.addVal (.reg reg)
  return { operands with regToIdx := (reg, idx) :: operands.regToIdx }

/-- The node of a source, made on demand; a register has at most one. -/
def srcNode (operands : Operands) (src : SrcRef) : Except Fault (Operands × Nat) :=
  match src with
  | .reg reg => do
    assertThat (reg.comps = 1) "reg.comps() == 1"
    match operands.regToIdx.lookup reg with
    | some idx => return (operands, idx)
    | none =>
      let idx := operands.vals.length
      let operands := operands.addVal src
      return ({ operands with regToIdx := (reg, idx) :: operands.regToIdx }, idx)
  | src => do
    assertThat (src.getReg = none) "src.get_reg().is_none()"
    return (operands.addVal src, operands.vals.length)

/-- One step of the loop that makes an edge for each copy. -/
def addCopy (operands : Operands) (dstIdx : Nat) (src : Src) : Except Fault Operands := do
  assertThat src.isUnmodified "src.is_unmodified()"
  let (operands, srcIdx) ← srcNode operands src.reference
  if dstIdx ≠ srcIdx then
    return { operands with graph := ← operands.graph.addEdge dstIdx srcIdx }
  else return operands

/-- The two loops over `pc.dsts_srcs`. -/
def build (pc : OpParCopy) : Except Fault Operands := do
  let operands ← pc.dstsSrcs.foldlM (fun operands pair => addDst operands pair.1) {}
  pc.dstsSrcs.zipIdx.foldlM (fun operands entry => addCopy operands entry.2 entry.1.2) operands

/-- `vals[node].as_reg().expect(..)`. -/
def regAt (vals : List SrcRef) (node : Nat) (message : String) : Except Fault RegRef :=
  expect (vals[node]?.bind SrcRef.asReg) message

/-- The copies that move `src` to `dst`, through the temporary where one is needed. -/
def emitCopy (pc : OpParCopy) (dst : RegRef) (src : SrcRef) : Except Fault (List Instr) :=
  if copyNeedsTmp dst src then do
    let tmp ← expect pc.tmp "This copy needs a temporary"
    let tmp ← tmp.comp 0
    return [copyTo tmp src, copyTo dst (.reg tmp)]
  else return [copyTo dst src]

/-- The `while let Some(dst_idx) = ready.pop()` loop. Every turn takes a node off `ready` and
puts one back only when it removes an edge, so `fuel` bounds edges and ready nodes together. -/
def readyLoop (pc : OpParCopy) (vals : List SrcRef) :
    Nat → CopyGraph → List Nat → Except Fault (CopyGraph × List Instr)
  | _, graph, [] => return (graph, [])
  | 0, _, _ :: _ => .error (.panic "out of fuel")
  | fuel + 1, graph, dstIdx :: ready =>
    match graph.src dstIdx with
    | none => readyLoop pc vals fuel graph ready
    | some srcIdx => do
      let dst ← regAt vals dstIdx "vals[dst_idx] is from dsts_srcs; dsts are Reg"
      let src ← expect vals[srcIdx]? "index out of bounds"
      let copies ← emitCopy pc dst src
      let (graph, unread) ← graph.delEdge dstIdx srcIdx
      let (graph, rest) ← readyLoop pc vals fuel graph (if unread then srcIdx :: ready else ready)
      return (graph, copies ++ rest)

/-- The `loop` that breaks the cycle through `i` by swaps. -/
def swapLoop (vals : List SrcRef) (i : Nat) :
    Nat → CopyGraph → Except Fault (CopyGraph × List Instr)
  | 0, _ => .error (.panic "out of fuel")
  | fuel + 1, graph => do
    let j ← expect (graph.src i)
      "graph.src(i) is Some; we checked above and we're in a cycle"
    let k ← expect (graph.src j) "node j in cycle has src; cycles have in-degree 1"
    let jReg ← regAt vals j "vals[j] is Reg; from dsts_srcs"
    let kReg ← regAt vals k "vals[k] is Reg; from dsts_srcs"
    let swap ← swapRegs jReg kReg
    let (graph, _) ← graph.delEdge i j
    let (graph, _) ← graph.delEdge j k
    if i = k then return (graph, [swap])
    else
      let graph ← graph.addEdge i k
      let (graph, rest) ← swapLoop vals i fuel graph
      return (graph, swap :: rest)

/-- The copies of one step of a walk around a cycle: memory and barrier registers go through
the second component of the temporary. -/
def emitStep (pcTmp : RegRef) (file : RegFile) (pReg jReg : RegRef) : Except Fault (List Instr) :=
  if file = .bar ∨ file = .mem then do
    let copyTmp ← pcTmp.comp 1
    return [copyTo copyTmp (.reg jReg), copyTo pReg (.reg copyTmp)]
  else return [copyTo pReg (.reg jReg)]

/-- The `loop` that walks the cycle of `i`, whose value is kept in `tmp`, from `p` on. -/
def walkLoop (vals : List SrcRef) (pcTmp tmp : RegRef) (file : RegFile) (i : Nat) :
    Nat → CopyGraph → Nat → RegRef → Except Fault (CopyGraph × List Instr)
  | 0, _, _, _ => .error (.panic "out of fuel")
  | fuel + 1, graph, p, pReg => do
    let j ← expect (graph.src p) "node p in cycle has src"
    if j = i then
      let (graph, _) ← graph.delEdge p i
      return (graph, [copyTo pReg (.reg tmp)])
    else
      let jReg ← regAt vals j "vals[j] is Reg; j is dst index in cycle"
      assertThat (jReg.file = file) "j_reg.file() == file"
      let step ← emitStep pcTmp file pReg jReg
      let (graph, _) ← graph.delEdge p j
      let (graph, rest) ← walkLoop vals pcTmp tmp file i fuel graph j jReg
      return (graph, step ++ rest)

/-- The body of the loop over the nodes that are left in cycles. -/
def breakCycle (pc : OpParCopy) (vals : List SrcRef) (fuel : Nat) (graph : CopyGraph) (i : Nat) :
    Except Fault (CopyGraph × List Instr) :=
  match graph.src i with
  | none => do
    assertThat (graph.numReads i = 0) "graph.num_reads(i) == 0"
    return (graph, [])
  | some _ => do
    let iReg ← regAt vals i "vals[i] is dst or src; both are Reg in par copy"
    if ← cycleUseSwap pc iReg.file then swapLoop vals i fuel graph
    else
      let pcTmp ← expect pc.tmp "This copy needs a temporary"
      let tmp ← pcTmp.comp 0
      let (graph, rest) ← walkLoop vals pcTmp tmp iReg.file i fuel graph i iReg
      return (graph, copyTo tmp (.reg iReg) :: rest)

/-- The `for i in 0..pc.dsts_srcs.len()` loop of the second phase. -/
def cycleLoop (pc : OpParCopy) (vals : List SrcRef) (fuel : Nat) :
    List Nat → CopyGraph → Except Fault (CopyGraph × List Instr)
  | [], graph => return (graph, [])
  | i :: rest, graph => do
    let (graph, first) ← breakCycle pc vals fuel graph i
    let (graph, later) ← cycleLoop pc vals fuel rest graph
    return (graph, first ++ later)

end LowerParCopy

open LowerParCopy in
/-- `lower_par_copy`. -/
def lowerParCopy (pc : OpParCopy) : Except Fault (List Instr) := do
  let operands ← build pc
  let count := pc.dstsSrcs.length
  let ready := ((List.range count).filter fun i => operands.graph.numReads i = 0).reverse
  let (graph, copies) ← readyLoop pc operands.vals (2 * count) operands.graph ready
  let (_, cycles) ← cycleLoop pc operands.vals (count + 1) (List.range count) graph
  return copies ++ cycles

/-!
## What the lowering of a parallel copy is for

A parallel copy assigns all its sources to its destinations at once. `Scalar` is what the
lowering is given, `Supplied` what it asks of the temporaries and of the cycles, and `Refines`
what the emitted instructions do.
-/

/-!
## Register machine

What the instructions left by the copy lowering do to the registers. A state gives a value to
every scalar register; `imm` gives the value of the operands that are not registers
(immediates and bound constant buffers), which no instruction changes.
-/

/-- The contents of all scalar registers. -/
abbrev RegState (V : Type) := RegFile × Nat → V

variable {V : Type}

/-- The value an unmodified source operand reads. -/
def evalSrc (imm : SrcRef → V) (state : RegState V) (src : SrcRef) : V :=
  match src.asReg with
  | some reg => state reg.loc
  | none => imm src

/-- The effect of an `OpCopy` or an `OpSwap` on the registers. -/
def execInstr (imm : SrcRef → V) (state : RegState V) (instr : Instr) : RegState V :=
  match instr.op with
  | .copy (.reg dst) src => Function.update state dst.loc (evalSrc imm state src.reference)
  | .swap (.reg x) (.reg y) src₀ src₁ =>
    Function.update (Function.update state x.loc (evalSrc imm state src₀.reference)) y.loc
      (evalSrc imm state src₁.reference)
  | _ => state

/-- Run a sequence of instructions. -/
def execInstrs (imm : SrcRef → V) (instrs : List Instr) (state : RegState V) : RegState V :=
  instrs.foldl (execInstr imm) state

variable (imm : SrcRef → V)

@[simp] theorem evalSrc_reg (state : RegState V) (reg : RegRef) :
    evalSrc imm state (.reg reg) = state reg.loc := rfl

@[simp] theorem execInstrs_nil (state : RegState V) :
    execInstrs imm [] state = state := rfl

@[simp] theorem execInstrs_cons (instr : Instr) (instrs : List Instr) (state : RegState V) :
    execInstrs imm (instr :: instrs) state = execInstrs imm instrs (execInstr imm state instr) :=
  rfl

@[simp] theorem execInstrs_append (first second : List Instr) (state : RegState V) :
    execInstrs imm (first ++ second) state = execInstrs imm second (execInstrs imm first state) :=
  List.foldl_append

namespace LowerParCopy

/-- A component of the temporary. -/
def IsTmp (pc : OpParCopy) (loc : RegFile × Nat) : Prop :=
  ∃ tmp c, pc.tmp = some tmp ∧ c < tmp.comps ∧ loc = (tmp.file, tmp.baseIdx + c)

theorem IsTmp.comp {pc : OpParCopy} {tmp single : RegRef} {c : Nat} (present : pc.tmp = some tmp)
    (component : tmp.comp c = .ok single) : IsTmp pc single.loc := by
  obtain ⟨inside, file, base, -⟩ := RegRef.comp_eq_ok.mp component
  exact ⟨tmp, c, present, inside, by simp [RegRef.loc, file, base]⟩

/-- Distinct scalar destinations, unmodified scalar sources, and a temporary that is neither. -/
structure Scalar (pc : OpParCopy) : Prop where
  dst : ∀ pair ∈ pc.dstsSrcs, ∃ reg, pair.1 = .reg reg ∧ reg.comps = 1 ∧ ¬ IsTmp pc reg.loc
  distinct : (pc.dstsSrcs.map Prod.fst).Nodup
  unmodified : ∀ pair ∈ pc.dstsSrcs, pair.2.isUnmodified
  src : ∀ pair ∈ pc.dstsSrcs, ∀ reg, pair.2.reference.getReg = some reg →
    pair.2.reference = .reg reg ∧ reg.comps = 1 ∧ ¬ IsTmp pc reg.loc

/-- Entry `i` reads the register that the other entry `j` writes. -/
def Reads (pc : OpParCopy) (i j : Nat) : Prop :=
  i ≠ j ∧ ∃ dst src reg src', pc.dstsSrcs[i]? = some (dst, src) ∧
    pc.dstsSrcs[j]? = some (.reg reg, src') ∧ src.reference = .reg reg

def OnCycle (pc : OpParCopy) (i : Nat) : Prop := Relation.TransGen (Reads pc) i i

/-- Each copy that goes through a temporary has one, each cycle stays in one register file, the
temporary of a cycle of `gpr` is itself one, and memory and barrier cycles have two temporaries. -/
structure Supplied (pc : OpParCopy) : Prop where
  copy : ∀ (i : Nat) dst src, pc.dstsSrcs[i]? = some (.reg dst, src) → src.reference ≠ .reg dst →
    copyNeedsTmp dst src.reference → pc.tmp.isSome
  file : ∀ (i j : Nat) a b src src', OnCycle pc i → Reads pc i j →
    pc.dstsSrcs[i]? = some (.reg a, src) → pc.dstsSrcs[j]? = some (.reg b, src') → a.file = b.file
  gpr : ∀ (i : Nat) dst src tmp, OnCycle pc i → pc.dstsSrcs[i]? = some (.reg dst, src) →
    dst.file = .gpr → pc.tmp = some tmp → tmp.file = .gpr
  mem : ∀ (i : Nat) dst src, OnCycle pc i → pc.dstsSrcs[i]? = some (.reg dst, src) →
    dst.file = .bar ∨ dst.file = .mem → ∃ tmp single, pc.tmp = some tmp ∧ tmp.comp 1 = .ok single

/-- The instructions assign all sources at once and leave every other register but the temporary
as it was. -/
def Refines (pc : OpParCopy) (instrs : List Instr) : Prop :=
  ∀ {V : Type} (imm : SrcRef → V) (state : RegState V),
    (∀ dst src, (.reg dst, src) ∈ pc.dstsSrcs →
      execInstrs imm instrs state dst.loc = evalSrc imm state src.reference) ∧
    ∀ loc, (∀ dst src, (.reg dst, src) ∈ pc.dstsSrcs → dst.loc ≠ loc) → ¬ IsTmp pc loc →
      execInstrs imm instrs state loc = state loc

end LowerParCopy

end CoralReef
