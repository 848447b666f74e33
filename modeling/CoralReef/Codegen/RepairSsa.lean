import CoralReef.Codegen.Ir.Operands
import CoralReef.Codegen.UnionFind
import Mathlib.Data.List.Sort

/-!
# SSA repair

`repair_ssa` of `codegen/repair_ssa.rs`. Names with several definitions get one version for each
definition; a use asks its block for the version at its place, and a block that has none asks
its predecessors, with a phi where they disagree or have not been visited yet. Phis that turn
out to be redundant are removed afterwards, and what is left is placed.
-/

namespace CoralReef

/-- A phi to be placed: the name it merges, its own version, and the version that each
predecessor contributes. -/
structure PhiTracker where
  phi : Phi
  orig : SSAValue
  dst : SSAValue
  srcs : List (Nat × SSAValue) := []
  deriving DecidableEq, Repr

/-- `phi.srcs.insert(pred, ssa)`. -/
def PhiTracker.insertSrc (tracker : PhiTracker) (pred : Nat) (ssa : SSAValue) : PhiTracker :=
  { tracker with srcs := (pred, ssa) :: tracker.srcs.filter fun entry => entry.1 ≠ pred }

/-- What is known of a block: its neighbours, the version of each name at its end (so far), and
the phis at its start. -/
structure DefTrackerBlock where
  pred : List Nat
  succ : List Nat
  defs : SSAValue → Option SSAValue := fun _ => none
  phis : List PhiTracker := []

/-- The mutable state of the pass. `needsSrc` is a bit set. -/
structure RepairState where
  ssaAlloc : SSAValueAllocator
  phiAlloc : PhiAllocator
  blocks : List DefTrackerBlock := []
  needsSrc : List Nat := []
  synthUndefs : List (Nat × SSAValue) := []

namespace RepairState

def allocSsa (st : RepairState) (file : RegFile) : SSAValue × RepairState :=
  ((st.ssaAlloc.alloc file).1, { st with ssaAlloc := (st.ssaAlloc.alloc file).2 })

def allocPhi (st : RepairState) : Phi × RepairState :=
  (st.phiAlloc.alloc.1, { st with phiAlloc := st.phiAlloc.alloc.2 })

def setDef (st : RepairState) (b : Nat) (ssa version : SSAValue) : RepairState :=
  { st with blocks := st.blocks.modify b fun block =>
      { block with defs := Function.update block.defs ssa (some version) } }

def pushPhi (st : RepairState) (b : Nat) (tracker : PhiTracker) : RepairState :=
  { st with blocks := st.blocks.modify b fun block =>
      { block with phis := block.phis ++ [tracker] } }

def insertNeedsSrc (st : RepairState) (b : Nat) : RepairState :=
  if b ∈ st.needsSrc then st else { st with needsSrc := b :: st.needsSrc }

/-- Every block is resolved once and pushes each predecessor once, so this many turns of
`get_ssa_or_phi` are enough. -/
def fuel (st : RepairState) : Nat :=
  1 + (st.blocks.map fun block => block.pred.length + 2).sum

end RepairState

namespace RepairSsa

/-- The local variables of the loop over the predecessors: the blocks pushed, the first version
found, and whether all agree. -/
structure PredScan where
  pushed : List Nat := []
  predSsa : Option SSAValue := none
  allSame : Bool := true
  deriving DecidableEq, Repr

/-- The body of the loop over the predecessors. -/
def scanPred (blocks : List DefTrackerBlock) (b : Nat) (ssa : SSAValue) (scan : PredScan) (p : Nat) :
    Except Fault PredScan :=
  if p ≥ b then return { scan with allSame := false }
  else do
    let block ← expect blocks[p]? "index out of bounds"
    match block.defs ssa, scan.predSsa with
    | some version, none => return { scan with predSsa := some version }
    | some version, some first =>
      return { scan with allSame := scan.allSame && decide (first = version) }
    | none, _ => return { scan with pushed := scan.pushed ++ [p] }

/-- The loop that gives a new phi its sources: the predecessors not visited yet come later. -/
def addSrc (b : Nat) (ssa : SSAValue) (state : RepairState × PhiTracker) (p : Nat) :
    Except Fault (RepairState × PhiTracker) :=
  if p ≥ b then return (state.1.insertNeedsSrc p, state.2)
  else do
    let block ← expect state.1.blocks[p]? "index out of bounds"
    let version ← expect (block.defs ssa) "predecessor must have def for SSA value"
    return (state.1, state.2.insertSrc p version)

/-- The version of `ssa` at the start of block `b`, once all predecessors before it are known. -/
def resolve (st : RepairState) (b : Nat) (pred : List Nat) (ssa : SSAValue) (scan : PredScan) :
    Except Fault (SSAValue × RepairState) :=
  if scan.allSame then
    match scan.predSsa with
    | some version => return (version, st.setDef b ssa version)
    | none =>
      if b ≠ 0 ∧ pred = [] then
        let (undef, st) := st.allocSsa ssa.file
        let st := { st with synthUndefs := st.synthUndefs ++ [(b, undef)] }
        return (undef, st.setDef b ssa undef)
      else
        .error (.compileError "Undefined SSA value at entry — fix_entry_live_in missed it")
  else do
    let (phi, st) := st.allocPhi
    let (dst, st) := st.allocSsa ssa.file
    let (st, tracker) ← pred.foldlM (addSrc b ssa) (st, { phi, orig := ssa, dst })
    return (dst, (st.pushPhi b tracker).setDef b ssa dst)

/-- `get_ssa_or_phi`. The worklist is a binary heap that yields the earliest block first, here a
sorted list. -/
def getSsaOrPhi (ssa : SSAValue) : Nat → List Nat → RepairState →
    Except Fault (SSAValue × RepairState)
  | 0, _, _ => .error (.panic "out of fuel")
  | _ + 1, [], _ => .error (.panic "worklist must not be empty")
  | fuel + 1, b :: worklist, st => do
    let block ← expect st.blocks[b]? "index out of bounds"
    match block.defs ssa with
    | some version =>
      if worklist = [] then return (version, st) else getSsaOrPhi ssa fuel worklist st
    | none =>
      let scan ← block.pred.foldlM (scanPred st.blocks b ssa) {}
      if scan.pushed ≠ [] then
        getSsaOrPhi ssa fuel
          (scan.pushed.foldl (fun worklist p => worklist.orderedInsert (· ≤ ·) p) (b :: worklist))
          st
      else
        let (version, st) ← resolve st b block.pred ssa scan
        if worklist = [] then return (version, st) else getSsaOrPhi ssa fuel worklist st

/-- The closure that rewrites one use in block `b`. -/
def renameUse (multi : SSAValue → Bool) (b : Nat) (ssa : SSAValue) (st : RepairState) :
    Except Fault (SSAValue × RepairState) :=
  if multi ssa then getSsaOrPhi ssa st.fuel [b] st else return (ssa, st)

/-- The uses of an instruction of block `b`, rewritten one after the other. -/
def renameUses (multi : SSAValue → Bool) (b : Nat) :
    List SSAValue → RepairState → Except Fault (List SSAValue × RepairState)
  | [], st => return ([], st)
  | ssa :: rest, st => do
    let (version, st) ← renameUse multi b ssa st
    let (versions, st) ← renameUses multi b rest st
    return (version :: versions, st)

/-- The definitions of an instruction of block `b`, rewritten one after the other. -/
def renameDefs (multi : SSAValue → Bool) (b : Nat) :
    List SSAValue → RepairState → List SSAValue × RepairState
  | [], st => ([], st)
  | ssa :: rest, st =>
    if multi ssa then
      let (version, st) := st.allocSsa ssa.file
      let (versions, st) := renameDefs multi b rest (st.setDef b ssa version)
      (version :: versions, st)
    else
      let (versions, st) := renameDefs multi b rest st
      (ssa :: versions, st)

def renameInstr (multi : SSAValue → Bool) (b : Nat) (instr : Instr) (st : RepairState) :
    Except Fault (Instr × RepairState) := do
  let (uses, st) ← renameUses multi b instr.ssaUses st
  let (defs, st) := renameDefs multi b instr.ssaDefs st
  return ((instr.setUses uses).setDefs defs, st)

def renameInstrs (multi : SSAValue → Bool) (b : Nat) :
    List Instr → RepairState → Except Fault (List Instr × RepairState)
  | [], st => return ([], st)
  | instr :: rest, st => do
    let (instr, st) ← renameInstr multi b instr st
    let (instrs, st) ← renameInstrs multi b rest st
    return (instr :: instrs, st)

/-- The loop over the blocks: each is entered in the tracker and rewritten. -/
def renameBlock (cfg : CFG BasicBlock) (multi : SSAValue → Bool)
    (state : List (List Instr) × RepairState) (b : Nat) :
    Except Fault (List (List Instr) × RepairState) := do
  let st := { state.2 with blocks := state.2.blocks ++
    [{ pred := cfg.predecessors b, succ := cfg.successors b }] }
  let bb ← expect cfg.blocks[b]? "index out of bounds"
  let (instrs, st) ← renameInstrs multi b bb.instrs st
  return (state.1 ++ [instrs], st)

/-- The source of one phi of block `s` for its predecessor `b`, if it is missing. The phis of `s`
are borrowed meanwhile, so a phi added to them is a panic. -/
def fillPhi (b s : Nat) (st : RepairState) (i : Nat) : Except Fault RepairState := do
  let tracker ← expect (st.blocks[s]?.bind fun block => block.phis[i]?) "index out of bounds"
  if (tracker.srcs.lookup b).isSome then return st
  else
    let (version, after) ← getSsaOrPhi tracker.orig st.fuel [b] st
    assertThat ((after.blocks[s]?.map fun block => block.phis.length) =
      (st.blocks[s]?.map fun block => block.phis.length)) "already borrowed: BorrowMutError"
    return { after with blocks := after.blocks.modify s fun block =>
      { block with phis := block.phis.modify i fun tracker => tracker.insertSrc b version } }

/-- The body of the loop over the successors of `b`. -/
def fillSucc (b : Nat) (st : RepairState) (s : Nat) : Except Fault RepairState :=
  if s ≤ b then do
    let block ← expect st.blocks[s]? "index out of bounds"
    (List.range block.phis.length).foldlM (fillPhi b s) st
  else return st

/-- The loop that populates the phi sources of the back edges. -/
def fillLoop : Nat → RepairState → Except Fault RepairState
  | 0, _ => .error (.panic "out of fuel")
  | fuel + 1, st =>
    match st.needsSrc.min? with
    | none => return st
    | some b => do
      let st := { st with needsSrc := st.needsSrc.filter (· ≠ b) }
      let block ← expect st.blocks[b]? "index out of bounds"
      let st ← block.succ.foldlM (fillSucc b) st
      fillLoop fuel st

/-- The loop over the sources of a phi: the sources, remapped as far as it gets, and the one
source other than the phi itself; `none` in its place when there are several. -/
def scanSrcs (dst : SSAValue) : List (Nat × SSAValue) → UnionFind SSAValue → Option SSAValue →
    Except Fault (List (Nat × SSAValue) × UnionFind SSAValue × Option (Option SSAValue))
  | [], ssaMap, seen => return ([], ssaMap, some seen)
  | (p, src) :: rest, ssaMap, seen => do
    let (src, ssaMap) ← ssaMap.find src
    if src ≠ dst ∧ seen ≠ none ∧ seen ≠ some src then return ((p, src) :: rest, ssaMap, none)
    else
      let (srcs, ssaMap, verdict) ←
        scanSrcs dst rest ssaMap (if src = dst then seen else some src)
      return ((p, src) :: srcs, ssaMap, verdict)

/-- The closure that decides whether to keep a phi. -/
def retainPhi (state : List PhiTracker × UnionFind SSAValue × Bool) (tracker : PhiTracker) :
    Except Fault (List PhiTracker × UnionFind SSAValue × Bool) := do
  let (kept, ssaMap, toDo) := state
  let (srcs, ssaMap, verdict) ← scanSrcs tracker.dst tracker.srcs ssaMap none
  match verdict with
  | none => return (kept ++ [{ tracker with srcs }], ssaMap, toDo)
  | some seen =>
    let ssa ← expect seen "Circular SSA def"
    let ssaMap ← ssaMap.union ssa tracker.dst
    return (kept, ssaMap, true)

/-- One round of the `while to_do` loop over all blocks. -/
def removeRound : List DefTrackerBlock → UnionFind SSAValue → Bool →
    Except Fault (List DefTrackerBlock × UnionFind SSAValue × Bool)
  | [], ssaMap, toDo => return ([], ssaMap, toDo)
  | block :: rest, ssaMap, toDo => do
    let (phis, ssaMap, toDo) ← block.phis.foldlM retainPhi ([], ssaMap, toDo)
    let (blocks, ssaMap, toDo) ← removeRound rest ssaMap toDo
    return ({ block with phis } :: blocks, ssaMap, toDo)

/-- The `while to_do` loop; every round but the last removes a phi. -/
def removeLoop : Nat → List DefTrackerBlock → UnionFind SSAValue →
    Except Fault (List DefTrackerBlock × UnionFind SSAValue)
  | 0, _, _ => .error (.panic "out of fuel")
  | fuel + 1, blocks, ssaMap => do
    let (blocks, ssaMap, toDo) ← removeRound blocks ssaMap false
    if toDo then removeLoop fuel blocks ssaMap else return (blocks, ssaMap)

/-- The removal of the redundant phis, in a graph with loops. -/
def removePhis (hasLoop : Bool) (blocks : List DefTrackerBlock) :
    Except Fault (List DefTrackerBlock × UnionFind SSAValue) :=
  if hasLoop then removeLoop (1 + (blocks.map fun block => block.phis.length).sum) blocks {}
  else return (blocks, {})

end RepairSsa

namespace Instr

/-- `OpPhiDsts::push`, for several entries. -/
def pushPhiDsts (instr : Instr) (new : List (Phi × Dst)) : Instr :=
  match instr.op with
  | .phiDsts dsts => { instr with op := .phiDsts (dsts ++ new) }
  | _ => instr

/-- `OpPhiSrcs::push`, for several entries. -/
def pushPhiSrcs (instr : Instr) (new : List (Phi × Src)) : Instr :=
  match instr.op with
  | .phiSrcs srcs => { instr with op := .phiSrcs (srcs ++ new) }
  | _ => instr

end Instr

namespace BasicBlock

/-- `get_or_insert_phi_dsts`, with the entries pushed. -/
def insertPhiDsts (bb : BasicBlock) (new : List (Phi × Dst)) : BasicBlock :=
  match bb.phiDstsIp with
  | some ip => { bb with instrs := bb.instrs.modify ip fun instr => instr.pushPhiDsts new }
  | none => { bb with instrs := .new (.phiDsts new) :: bb.instrs }

/-- `get_or_insert_phi_srcs`, with the entries pushed. -/
def insertPhiSrcs (bb : BasicBlock) (new : List (Phi × Src)) : BasicBlock :=
  match bb.phiSrcsIp with
  | some ip => { bb with instrs := bb.instrs.modify ip fun instr => instr.pushPhiSrcs new }
  | none =>
    match bb.branchIp with
    | some ip => { bb with instrs := bb.instrs.insertIdx ip (.new (.phiSrcs new)) }
    | none => { bb with instrs := bb.instrs ++ [.new (.phiSrcs new)] }

end BasicBlock

namespace RepairSsa

/-- `ssa_map.find` on every value of a list. -/
def findAll : List SSAValue → UnionFind SSAValue →
    Except Fault (List SSAValue × UnionFind SSAValue)
  | [], ssaMap => return ([], ssaMap)
  | ssa :: rest, ssaMap => do
    let (ssa, ssaMap) ← ssaMap.find ssa
    let (found, ssaMap) ← findAll rest ssaMap
    return (ssa :: found, ssaMap)

/-- Remap the uses of the instructions. -/
def remapInstrs : List Instr → UnionFind SSAValue →
    Except Fault (List Instr × UnionFind SSAValue)
  | [], ssaMap => return ([], ssaMap)
  | instr :: rest, ssaMap => do
    let (uses, ssaMap) ← findAll instr.ssaUses ssaMap
    let (instrs, ssaMap) ← remapInstrs rest ssaMap
    return (instr.setUses uses :: instrs, ssaMap)

/-- The sources that block `b` contributes to the phis of one successor. -/
def phiSrcsFor (b : Nat) : List PhiTracker → UnionFind SSAValue →
    Except Fault (List (Phi × Src) × UnionFind SSAValue)
  | [], ssaMap => return ([], ssaMap)
  | tracker :: rest, ssaMap =>
    match tracker.srcs.lookup b with
    | none => phiSrcsFor b rest ssaMap
    | some src => do
      let (ssa, ssaMap) ← ssaMap.find src
      let (entries, ssaMap) ← phiSrcsFor b rest ssaMap
      return ((tracker.phi, .ofSsa ssa) :: entries, ssaMap)

/-- Insert the phi sources for one successor. -/
def placeSrcs (blocks : List DefTrackerBlock) (b : Nat) (state : BasicBlock × UnionFind SSAValue)
    (s : Nat) : Except Fault (BasicBlock × UnionFind SSAValue) := do
  let block ← expect blocks[s]? "index out of bounds"
  if block.phis = [] then return state
  else
    let (entries, ssaMap) ← phiSrcsFor b block.phis state.2
    return (state.1.insertPhiSrcs entries, ssaMap)

/-- Fix up the remapped values in the sources of a block. -/
def remapBlock (bb : BasicBlock) (ssaMap : UnionFind SSAValue) :
    Except Fault (BasicBlock × UnionFind SSAValue) :=
  if ssaMap.isEmpty then return (bb, ssaMap)
  else do
    let (instrs, ssaMap) ← remapInstrs bb.instrs ssaMap
    return ({ bb with instrs }, ssaMap)

/-- The body of the loop that places the phis: destinations, remapped uses, sources. -/
def placeBlock (cfg : CFG BasicBlock) (blocks : List DefTrackerBlock)
    (state : List BasicBlock × UnionFind SSAValue) (entry : BasicBlock × Nat) :
    Except Fault (List BasicBlock × UnionFind SSAValue) := do
  let (bb, b) := entry
  let block ← expect blocks[b]? "index out of bounds"
  let bb :=
    if block.phis = [] then bb
    else bb.insertPhiDsts (block.phis.map fun tracker => (tracker.phi, .ofSsa tracker.dst))
  let (bb, ssaMap) ← remapBlock bb state.2
  let (bb, ssaMap) ← (cfg.successors b).foldlM (placeSrcs blocks b) (bb, ssaMap)
  return (state.1 ++ [bb], ssaMap)

/-- Insert the synthesized `OpUndef`s. -/
def placeUndef (blocks : List BasicBlock) (entry : Nat × SSAValue) : List BasicBlock :=
  blocks.modify entry.1 fun bb =>
    { bb with instrs := .new (.undef (.ofSsa entry.2)) :: bb.instrs }

end RepairSsa

open RepairSsa in
/-- `Function::repair_ssa`. -/
def Function.repairSsa (f : Function) : Except Fault Function := do
  let allDefs := f.blocks.blocks.flatMap fun bb => bb.instrs.flatMap Instr.ssaDefs
  let multi := fun ssa => decide (1 < allDefs.count ssa)
  if ¬ allDefs.any multi then return f
  else
    let (renamed, st) ← (List.range f.blocks.len).foldlM (renameBlock f.blocks multi)
      ([], { ssaAlloc := f.ssaAlloc, phiAlloc := f.phiAlloc })
    let st ← fillLoop (st.needsSrc.length + allDefs.length * st.fuel + 1) st
    let (blocks, ssaMap) ← removePhis (← f.blocks.hasLoop) st.blocks
    let bbs := (f.blocks.blocks.zip renamed).map fun entry => { entry.1 with instrs := entry.2 }
    let (bbs, _) ← bbs.zipIdx.foldlM (placeBlock f.blocks blocks) ([], ssaMap)
    return {
      ssaAlloc := st.ssaAlloc
      phiAlloc := st.phiAlloc
      blocks := { f.blocks with blocks := st.synthUndefs.foldl placeUndef bbs } }

end CoralReef
