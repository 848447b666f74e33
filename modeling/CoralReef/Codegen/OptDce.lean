import CoralReef.Codegen.Ir.Instr

/-!
# Dead-code elimination

`codegen/opt_dce.rs`. The two bit sets are lists of the numbers in them. `annotate` is the debug
flag under which a removed instruction leaves an annotation.
-/

namespace CoralReef

structure DeadCodePass where
  anyDead : Bool := false
  newLive : Bool := false
  liveSsa : List Nat := []
  livePhi : List Nat := []
  deriving DecidableEq, Repr

namespace DeadCodePass

def markSsaLive (pass : DeadCodePass) (ssa : SSAValue) : DeadCodePass :=
  if ssa.idx ∈ pass.liveSsa then pass
  else { pass with liveSsa := ssa.idx :: pass.liveSsa, newLive := true }

def markSrcLive (pass : DeadCodePass) (src : Src) : DeadCodePass :=
  src.iterSsa.foldl markSsaLive pass

def markPhiLive (pass : DeadCodePass) (phi : Phi) : DeadCodePass :=
  if phi.idx ∈ pass.livePhi then pass
  else { pass with livePhi := phi.idx :: pass.livePhi, newLive := true }

def isDstLive (pass : DeadCodePass) : Dst → Except Fault Bool
  | .ssa vec => .ok (vec.any fun val => decide (val.idx ∈ pass.liveSsa))
  | .none => .ok false
  | .reg _ => .error (.panic "Invalid SSA destination")

def isPhiLive (pass : DeadCodePass) (phi : Phi) : Bool := decide (phi.idx ∈ pass.livePhi)

def isInstrLive (pass : DeadCodePass) (instr : Instr) : Except Fault Bool :=
  if instr.pred.isFalse then .ok false
  else if !instr.canEliminate then .ok true
  else instr.dsts.anyM pass.isDstLive

/-- The body of the loop over phi sources. -/
def markPhiSrc (pass : DeadCodePass) (entry : Phi × Src) : Except Fault DeadCodePass :=
  if pass.isPhiLive entry.1 then .ok (pass.markSrcLive entry.2)
  else .ok { pass with anyDead := true }

/-- The body of the loop over phi destinations. -/
def markPhiDst (pass : DeadCodePass) (entry : Phi × Dst) : Except Fault DeadCodePass := do
  if ← pass.isDstLive entry.2 then return pass.markPhiLive entry.1
  else return { pass with anyDead := true }

/-- The body of the loop over the pairs of a parallel copy. -/
def markCopy (pass : DeadCodePass) (entry : Dst × Src) : Except Fault DeadCodePass := do
  if ← pass.isDstLive entry.1 then return pass.markSrcLive entry.2
  else return { pass with anyDead := true }

def markInstr (pass : DeadCodePass) (instr : Instr) : Except Fault DeadCodePass :=
  match instr.op with
  | .phiSrcs srcs => do
    assertThat instr.pred.isTrue "instr.pred.is_true()"
    srcs.foldlM markPhiSrc pass
  | .phiDsts dsts => do
    assertThat instr.pred.isTrue "instr.pred.is_true()"
    dsts.foldlM markPhiDst pass
  | .parCopy pcopy => do
    assertThat instr.pred.isTrue "instr.pred.is_true()"
    pcopy.dstsSrcs.foldlM markCopy pass
  | _ => do
    if ← pass.isInstrLive instr then
      return instr.srcs.foldl markSrcLive (instr.pred.iterSsa.foldl markSsaLive pass)
    else return { pass with anyDead := true }

/-- `Vec::retain` with a test that can panic. -/
def retain {α : Type} (keep : α → Except Fault Bool) : List α → Except Fault (List α)
  | [] => .ok []
  | a :: as => do
    let kept ← keep a
    let rest ← retain keep as
    return if kept then a :: rest else rest

/-- The instruction left of `instr`, if it is live. -/
def liveInstr (pass : DeadCodePass) (instr : Instr) : Except Fault (Option Instr) :=
  match instr.op with
  | .phiSrcs srcs => do
    let srcs := srcs.filter fun entry => pass.isPhiLive entry.1
    return if srcs = [] then none else some { instr with op := .phiSrcs srcs }
  | .phiDsts dsts => do
    let dsts ← retain (fun entry : Phi × Dst => pass.isDstLive entry.2) dsts
    return if dsts = [] then none else some { instr with op := .phiDsts dsts }
  | .parCopy pcopy => do
    let dstsSrcs ← retain (fun entry : Dst × Src => pass.isDstLive entry.1) pcopy.dstsSrcs
    return if dstsSrcs = [] then none
      else some { instr with op := .parCopy { pcopy with dstsSrcs } }
  | _ => do return if ← pass.isInstrLive instr then some instr else none

def mapInstr (annotate : Bool) (pass : DeadCodePass) (instr : Instr) :
    Except Fault (Option Instr) := do
  match ← pass.liveInstr instr with
  | some live => return some live
  | none => return if annotate then some (.new (.annotate "killed by dce")) else none

/-- One round of marking, from the last instruction to the first. -/
def markAll (f : Function) (pass : DeadCodePass) : Except Fault DeadCodePass :=
  f.blocks.blocks.reverse.foldlM (fun pass bb => bb.instrs.reverse.foldlM markInstr pass) pass

/-- Mark until nothing new is live. A round that marks something marks a use or a phi, so the fuel
lasts when it starts above their number. -/
def markLoop (f : Function) : Nat → DeadCodePass → Except Fault DeadCodePass
  | 0, _ => .error (.panic "out of fuel")
  | fuel + 1, pass => do
    let pass ← markAll f { pass with newLive := false, anyDead := false }
    if pass.newLive then markLoop f fuel pass else return pass

def mapBlock (annotate : Bool) (pass : DeadCodePass) (bb : BasicBlock) :
    Except Fault BasicBlock := do
  let instrs ← bb.instrs.mapM (pass.mapInstr annotate)
  return { bb with instrs := instrs.reduceOption }

end DeadCodePass

/-- The phis that an instruction defines. -/
def Instr.definedPhis (instr : Instr) : List Phi :=
  match instr.op with
  | .phiDsts dsts => dsts.map Prod.fst
  | _ => []

open DeadCodePass in
/-- `Function::opt_dce`. -/
def Function.optDce (annotate : Bool) (f : Function) : Except Fault Function := do
  let instrs := f.blocks.blocks.flatMap BasicBlock.instrs
  let pass ← markLoop f
    ((instrs.flatMap Instr.ssaUses).length + (instrs.flatMap Instr.definedPhis).length + 1) {}
  if pass.anyDead then
    let blocks ← f.blocks.blocks.mapM (pass.mapBlock annotate)
    return { f with blocks := { f.blocks with blocks } }
  else return f

end CoralReef
