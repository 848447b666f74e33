import CoralReef.Codegen.Ir.Instr
import CoralReef.Codegen.UnionFind

/-!
# Phi webs

`PhiWebs::new` of `codegen/assign_regs/types.rs`: the classes of SSA values that register
assignment tries to give one register, joined phi by phi along the edges of the CFG.
-/

namespace CoralReef.PhiWebs

/-- The map from the phis of a block to their destinations; a later entry replaces an earlier
one. -/
def dstMap (dsts : List (Phi × Dst)) : Except Fault (List (Phi × SSARef)) := do
  let entries ← dsts.mapM fun entry => do
    let ssaRef ← expect entry.2.asSsa "Expected ssa form"
    return (entry.1, ssaRef)
  return entries.reverse

/-- The body of the loop over the sources of one predecessor. -/
def unionSrc (dsts : List (Phi × SSARef)) (uf : UnionFind SSAValue) (entry : Phi × Src) :
    Except Fault (UnionFind SSAValue) := do
  let a ← expect entry.2.asSsa "Expected ssa form"
  let b ← expect (dsts.lookup entry.1) "no entry found for key"
  match a, b with
  | [a], [b] => uf.union a b
  | _, _ => .error (.panic "comps() == 1")

/-- The body of the loop over the predecessors of one block. -/
def unionPred (f : Function) (dsts : List (Phi × SSARef)) (uf : UnionFind SSAValue) (pred : Nat) :
    Except Fault (UnionFind SSAValue) := do
  let srcs ← expect (f.phiSrcs pred) "Missing phi_srcs"
  srcs.foldlM (unionSrc dsts) uf

/-- The body of the loop over the blocks. -/
def unionBlock (f : Function) (uf : UnionFind SSAValue) (b : Nat) :
    Except Fault (UnionFind SSAValue) :=
  match f.phiDsts b with
  | none => return uf
  | some phiDsts => do
    let dsts ← dstMap phiDsts
    (f.blocks.predecessors b).foldlM (unionPred f dsts) uf

/-- The union-find that `PhiWebs::new` builds. -/
def new (f : Function) : Except Fault (UnionFind SSAValue) :=
  (List.range f.blocks.len).foldlM (unionBlock f) {}

end CoralReef.PhiWebs
