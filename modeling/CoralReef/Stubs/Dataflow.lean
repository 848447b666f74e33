import CoralReef.Stubs.Cfg
import Mathlib.Order.Notation

/-!
# Dataflow solvers

`coral-reef-stubs/src/dataflow.rs`. A slice of states is a list with a state for every block, and
indexing past its end panics. The runners with callbacks and the two functions over an analysis
sweep alike: each joins the states next to a block and passes them through the block. The fuel is
the number of sweeps they may take.
-/

namespace CoralReef

namespace Dataflow

variable {T A B : Type}

/-- The states that neighbours read, those joined from them, and whether a sweep changed any of
the former. -/
structure Run (A B : Type) where
  moved : List A
  joined : List B
  changed : Bool := false

/-- The states of a list of blocks, joined one after the other. -/
def joinAll (join : B → A → B) (moved : List A) (output : B) (nodes : List Nat) :
    Except Fault B :=
  nodes.foldlM (fun output node => do
    return join output (← expect moved[node]? "index out of bounds")) output

/-- The body of the loop over the blocks. -/
def visit (cfg : CFG T) (neighbours : Nat → List Nat) (empty : B) (join : B → A → B)
    (transfer : Nat → T → A → B → A × Bool) (run : Run A B) (node : Nat) :
    Except Fault (Run A B) := do
  let block ← expect cfg.blocks[node]? "node in CFG"
  let output ← joinAll join run.moved empty (neighbours node)
  assertThat (node < run.joined.length) "index out of bounds"
  let state ← expect run.moved[node]? "index out of bounds"
  let (state, changed) := transfer node block state output
  return {
    moved := run.moved.set node state
    joined := run.joined.set node output
    changed := run.changed || changed }

/-- The loop that sweeps until nothing changes. -/
def sweeps (cfg : CFG T) (neighbours : Nat → List Nat) (empty : B) (join : B → A → B)
    (transfer : Nat → T → A → B → A × Bool) (order : List Nat) :
    Nat → Run A B → Except Fault (Run A B)
  | 0, _ => .error (.panic "out of fuel")
  | fuel + 1, run => do
    let run ← order.foldlM (visit cfg neighbours empty join transfer) { run with changed := false }
    if run.changed then sweeps cfg neighbours empty join transfer order fuel run else return run

end Dataflow

/-- `transfer` takes the block, its number and its two states, and tells whether the output
changed. -/
structure ForwardDataflow (T S : Type) where
  cfg : CFG T
  blockIn : List S
  blockOut : List S
  transfer : Nat → T → S → S → S × Bool
  join : S → S → S

/-- `ForwardDataflow::solve` in a given order. -/
def ForwardDataflow.solveIn {T S : Type} (default : S) (order : List Nat) (fuel : Nat)
    (df : ForwardDataflow T S) : Except Fault (ForwardDataflow T S) := do
  let run ← Dataflow.sweeps df.cfg df.cfg.predecessors default df.join df.transfer order fuel
    { moved := df.blockOut, joined := df.blockIn }
  return { df with blockIn := run.joined, blockOut := run.moved }

/-- `ForwardDataflow::solve`. -/
def ForwardDataflow.solve {T S : Type} (default : S) (fuel : Nat) (df : ForwardDataflow T S) :
    Except Fault (ForwardDataflow T S) := df.solveIn default df.cfg.reversePostOrder fuel

/-- The input states and the output states may differ in type. -/
structure BackwardDataflowBi (T SIn SOut : Type) where
  cfg : CFG T
  blockIn : List SIn
  blockOut : List SOut
  transfer : Nat → T → SIn → SOut → SIn × Bool
  join : SOut → SIn → SOut

/-- `BackwardDataflowBi::solve` in a given order. -/
def BackwardDataflowBi.solveIn {T SIn SOut : Type} (default : SOut) (order : List Nat) (fuel : Nat)
    (df : BackwardDataflowBi T SIn SOut) : Except Fault (BackwardDataflowBi T SIn SOut) := do
  let run ← Dataflow.sweeps df.cfg df.cfg.successors default df.join df.transfer order fuel
    { moved := df.blockIn, joined := df.blockOut }
  return { df with blockIn := run.moved, blockOut := run.joined }

/-- `BackwardDataflowBi::solve`. -/
def BackwardDataflowBi.solve {T SIn SOut : Type} (default : SOut) (fuel : Nat)
    (df : BackwardDataflowBi T SIn SOut) : Except Fault (BackwardDataflowBi T SIn SOut) :=
  df.solveIn default df.cfg.reversePostOrder.reverse fuel

/-- `BackwardDataflow` is the runner with one type of states. -/
abbrev BackwardDataflow (T S : Type) := BackwardDataflowBi T S S

/-- `BackwardDataflow::solve`, whose text is that of `BackwardDataflowBi::solve`. -/
def BackwardDataflow.solve {T S : Type} (default : S) (fuel : Nat) (df : BackwardDataflow T S) :
    Except Fault (BackwardDataflow T S) := BackwardDataflowBi.solve default fuel df

namespace Dataflow

variable {T S : Type} [Max S] [Bot S] [DecidableEq S]

/-- How an analysis moves the state of a block: it is written where it differs. -/
def replace (transfer : T → S → S) (_ : Nat) (block : T) (state joined : S) : S × Bool :=
  let result := transfer block joined
  if result = state then (state, false) else (result, true)

/-- `solve_forward` in a given order: the input and the output of every block. -/
def solveForwardIn (transfer : T → S → S) (cfg : CFG T) (order : List Nat) (fuel : Nat) :
    Except Fault (List (S × S)) :=
  if cfg.len = 0 then return []
  else do
    let run ← sweeps cfg cfg.predecessors ⊥ (· ⊔ ·) (replace transfer) order fuel
      { moved := List.replicate cfg.len ⊥, joined := List.replicate cfg.len ⊥ }
    return run.joined.zip run.moved

def solveForward (transfer : T → S → S) (cfg : CFG T) (fuel : Nat) :
    Except Fault (List (S × S)) := solveForwardIn transfer cfg cfg.reversePostOrder fuel

/-- `solve_backward` in a given order. -/
def solveBackwardIn (transfer : T → S → S) (cfg : CFG T) (order : List Nat) (fuel : Nat) :
    Except Fault (List (S × S)) :=
  if cfg.len = 0 then return []
  else do
    let run ← sweeps cfg cfg.successors ⊥ (· ⊔ ·) (replace transfer) order fuel
      { moved := List.replicate cfg.len ⊥, joined := List.replicate cfg.len ⊥ }
    return run.moved.zip run.joined

def solveBackward (transfer : T → S → S) (cfg : CFG T) (fuel : Nat) :
    Except Fault (List (S × S)) := solveBackwardIn transfer cfg cfg.reversePostOrder.reverse fuel

end Dataflow

end CoralReef
