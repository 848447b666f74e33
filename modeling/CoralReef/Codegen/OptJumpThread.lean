import CoralReef.Codegen.Ir.Control
import CoralReef.Misc.Shortcuts

/-!
# Jump threading

`codegen/opt_jump_thread.rs`: branches to blocks that only branch on are redirected, in one pass
from the last block to the first; then the graph is made again from the instructions, and branches
to the next block are dropped.
-/

/-!
## What jump threading is for

Where a jump comes to when blocks that do nothing are skipped, and what the pass has to keep: the
runs of a function, and a graph that has the transfers its instructions make.
-/

namespace CoralReef

open Relation StateTransition

/-- The branch at the end of a block, if there is one. -/
def endOf (instrs : List Instr) : List Instr := (instrs.getLast?.filter Instr.isBranch).toList

/-- The instructions before the branch at the end of a block. -/
def frontOf (instrs : List Instr) : List Instr :=
  if (endOf instrs).isEmpty then instrs else instrs.dropLast

namespace Function

variable (f : Function)

/-- One of the blocks from `i` on has the label, and does nothing but go on to another. -/
def Passed (i : Nat) (target : Label) : Prop :=
  ∃ j block, i ≤ j ∧ f.blocks.blocks[j]? = some block ∧ block.label = target ∧
    ((∃ instr, block.instrs = [instr] ∧ instr.isBranchAlwaysTaken = true) ∨
      block.instrs = [] ∧ j + 1 < f.blocks.len)

/-- A jump to a label comes to `how` when the blocks from `i` on that do nothing are skipped. Each
block is skipped for one further down, so jumps back are not followed. -/
inductive Lands : Nat → Label → Leave → Prop where
  | stay {i : Nat} {target : Label} (nothing : ¬ f.Passed i target) : Lands i target (.jump target)
  | branch {i j : Nat} {block : BasicBlock} {instr : Instr} {label target : Label} {cond : Src}
      {how : Leave} (below : i ≤ j) (here : f.blocks.blocks[j]? = some block)
      (isLabel : block.label = label) (only : block.instrs = [instr])
      (always : instr.isBranchAlwaysTaken = true) (isBra : instr.op = .bra target cond)
      (rest : Lands (j + 1) target how) : Lands i label how
  | exit {i j : Nat} {block : BasicBlock} {instr : Instr} {label : Label} (below : i ≤ j)
      (here : f.blocks.blocks[j]? = some block) (isLabel : block.label = label)
      (only : block.instrs = [instr]) (always : instr.isBranchAlwaysTaken = true)
      (isExit : instr.op = .exit) : Lands i label .exit
  | empty {i j : Nat} {block next : BasicBlock} {label : Label} {how : Leave} (below : i ≤ j)
      (here : f.blocks.blocks[j]? = some block) (isLabel : block.label = label)
      (only : block.instrs = []) (isNext : f.blocks.blocks[j + 1]? = some next)
      (rest : Lands (j + 1) next.label how) : Lands i label how

/-- The branch at the end of block `b` jumps to a block further down that does nothing, and can be
made to go where that leads: a conditional one cannot be made an exit. -/
inductive Redirected (b : Nat) : Op → Leave → Prop where
  | jump {target target' : Label} {cond : Src} (passed : f.Passed (b + 1) target)
      (lands : f.Lands (b + 1) target (.jump target')) :
      Redirected b (.bra target cond) (.jump target')
  | exit {target : Label} {cond : Src} (passed : f.Passed (b + 1) target)
      (lands : f.Lands (b + 1) target .exit) (always : cond.isTrue = true) :
      Redirected b (.bra target cond) .exit

/-- The pass finds a branch to redirect, so it makes the graph again. -/
def Rebuilt : Prop :=
  ∃ b instr how, (f.instrs b).getLast? = some instr ∧ f.Redirected b instr.op how

/-- The end of block `b` leads to block `s`: the next one if the end is not a branch that is always
taken, or the target of the branch, redirected if it can be. -/
inductive EndLeads (b : Nat) : Nat → Prop where
  | fall (falls : ∀ instr ∈ endOf (f.instrs b), instr.isBranchAlwaysTaken = false) :
      EndLeads b (b + 1)
  | jump {instr : Instr} {target : Label} {s : Nat} (last : instr ∈ endOf (f.instrs b))
      (leads : f.Redirected b instr.op (.jump target) ∨
        (∀ how, ¬ f.Redirected b instr.op how) ∧ instr.op.leave = .jump target)
      (here : f.labelToIdx target = some s) : EndLeads b s

/-- A branch before the end leads to `s`. -/
def EarlyLeads (b s : Nat) : Prop := s ∈ f.transfers b (branchExits (frontOf (f.instrs b)))

/-- The branches before the end of block `b` lead only where the end leads as well, and the end can
be reached or leads nowhere else. -/
structure Covered (b : Nat) : Prop where
  early : ∀ s, s < f.blocks.len → f.EarlyLeads b s → f.EndLeads b s
  reached : ∀ s, s < f.blocks.len → f.EndLeads b s →
    f.EarlyLeads b s ∨ passes (frontOf (f.instrs b)) = true

end Function

/-- Both functions run alike from every machine: a run of `f'` passes configurations of the run of
`f` only, and those it skips leave the machine as it is. -/
def SameRuns (f f' : Function) : Prop :=
  ∀ (V : Type) (interp : Interp V) (branching : Branching V) (machine : Machine V),
    (∀ c, Reaches (f'.next interp branching) (.at 0 machine) c →
      Reaches (f.next interp branching) (.at 0 machine) c) ∧
    ∀ c, Reaches (f.next interp branching) (.at 0 machine) c →
      ∃ d, Reaches (f'.next interp branching) (.at 0 machine) d ∧ d.machine = c.machine ∧
        (c.isStopped = true → d = c)

/-- What the pass has to keep. -/
structure Function.KeepsControl (f f' : Function) : Prop where
  runs : SameRuns f f'
  rebuilt : f.Rebuilt → f'.EdgesExact
  kept : ¬ f.Rebuilt → f' = f

namespace JumpThread

/-- `clone_branch`. -/
def cloneBranch (op : Op) : Except Fault Op :=
  match op with
  | .bra _ cond => do
    assertThat cond.isTrue "b.cond.is_true()"
    return op
  | .exit => .ok op
  | _ => .error (.panic "clone_branch: expected Bra or Exit, got unexpected op")

/-- What the loop over the blocks carries. -/
structure Threading where
  blocks : List BasicBlock
  replacements : Label → Option Op := fun _ => none
  progress : Bool := false

/-- What an instruction at the end of a block is replaced with, if it is a branch and can be. -/
def redirect (replacements : Label → Option Op) (instr : Instr) : Except Fault (Option Instr) :=
  match instr.op with
  | .bra target cond =>
    match replacements target with
    | some replacement =>
      if cond.isTrue then do
        let op ← cloneBranch replacement
        return some { instr with op }
      else
        match replacement with
        | .bra target _ => .ok (some { instr with op := .bra target cond })
        | _ => .ok none
    | none => .ok none
  | _ => .ok none

def redirectLast (replacements : Label → Option Op) (instrs : List Instr) :
    Except Fault (Option Instr) :=
  match instrs.getLast? with
  | some instr => redirect replacements instr
  | none => .ok none

def replaceLast (instrs : List Instr) : Option Instr → List Instr
  | some instr => instrs.dropLast ++ [instr]
  | none => instrs

/-- What a branch to a block with these instructions can be replaced with, if the block is trivial
or empty. -/
def replacement (blocks : List BasicBlock) (replacements : Label → Option Op) (i : Nat) :
    List Instr → Except Fault (Option Op)
  | [instr] =>
    if instr.isBranchAlwaysTaken then do return some (← cloneBranch instr.op) else .ok none
  | [] =>
    match blocks[i + 1]? with
    | some next =>
      match replacements next.label with
      | some op => do return some (← cloneBranch op)
      | none => .ok (some (.bra next.label { reference := .boolTrue }))
    | none => .ok none
  | _ => .ok none

/-- Enter what a branch to a label can be replaced with. -/
def insertReplacement (replacements : Label → Option Op) (label : Label) :
    Option Op → Label → Option Op
  | some op => Function.update replacements label (some op)
  | none => replacements

/-- One block of the loop of `jump_thread`. -/
def threadBlock (state : Threading) (i : Nat) : Except Fault Threading := do
  let block ← expect state.blocks[i]? "index out of bounds"
  let redirected ← redirectLast state.replacements block.instrs
  let instrs := replaceLast block.instrs redirected
  let replaced ← replacement state.blocks state.replacements i instrs
  return {
    blocks := state.blocks.set i { block with instrs }
    replacements := insertReplacement state.replacements block.label replaced
    progress := state.progress || redirected.isSome }

/-- The edges that `rewrite_cfg` adds for a block: the last instruction decides. -/
def blockEdges (f : Function) (i : Nat) (block : BasicBlock) : Except Fault (List (Nat × Nat)) := do
  let fall := if block.fallsThrough then [(i, i + 1)] else []
  match block.branch with
  | some instr =>
    match instr.op with
    | .bra target _ => return fall ++ (f.labelToIdx target).toList.map fun s => (i, s)
    | .exit => return fall
    | _ => .error (.panic "CFG branch must be Bra or Exit")
  | none => return fall

/-- `rewrite_cfg`. -/
def rewriteCfg (f : Function) : Except Fault Function := do
  let edges ← f.blocks.blocks.zipIdx.mapM fun (block, i) => blockEdges f i block
  return { f with blocks := { f.blocks with edges := edges.flatten } }

/-- `jump_thread`. -/
def jumpThread (f : Function) : Except Fault (Function × Bool) := do
  let state ← (List.range f.blocks.len).reverse.foldlM threadBlock { blocks := f.blocks.blocks }
  let f := { f with blocks := { f.blocks with blocks := state.blocks } }
  if state.progress then return (← rewriteCfg f, true) else return (f, false)

/-- Drop the branch at the end of a block if it leads to the next one. -/
def dropFall (nextLabel : Label) (block : BasicBlock) : BasicBlock :=
  match block.branch with
  | some instr =>
    match instr.op with
    | .bra target _ =>
      if target = nextLabel then { block with instrs := block.instrs.dropLast } else block
    | _ => block
  | none => block

/-- `opt_fall_through`. -/
def optFallThrough (f : Function) : Function :=
  { f with blocks := { f.blocks with
    blocks := f.blocks.blocks.zipIdx.map fun (block, i) =>
      match f.blocks.blocks[i + 1]? with
      | some next => dropFall next.label block
      | none => block } }

end JumpThread

/-- `Function::opt_jump_thread`. -/
def Function.optJumpThread (f : Function) : Except Fault Function := do
  let (f, progress) ← JumpThread.jumpThread f
  if progress then return JumpThread.optFallThrough f else return f

end CoralReef
