import CoralReef.Codegen.Ir.Semantics

/-!
# Control flow along the instructions

A block is run from its first instruction on. A branch that is taken leaves it for the block of its
label, and behind the last instruction the next block follows. The edges of the graph play no part,
so that a graph can be compared with the transfers the instructions make.
-/

namespace CoralReef

variable {V : Type}

/-- The values of conditions and guards that are not constants. -/
structure Branching (V : Type) where
  cond : Src → List V → Bool
  guard : Pred → List V → Bool

/-- How a block is left. -/
inductive Leave where
  | jump (target : Label)
  | exit
  | fall
  deriving DecidableEq, Repr

/-- Where a branch that is taken leads. -/
def Op.leave : Op → Leave
  | .bra target _ => .jump target
  | .jump _ target => .jump target
  | _ => .exit

namespace Branching

variable (branching : Branching V)

def holds (pred : Pred) (reads : List V) : Bool :=
  if pred.isTrue then true else if pred.isFalse then false else branching.guard pred reads

def isSet (cond : Src) (reads : List V) : Bool := (cond.asBool).getD (branching.cond cond reads)

/-- Whether a branch is taken. -/
def taken (machine : Machine V) (instr : Instr) : Bool :=
  branching.holds instr.pred (instr.pred.iterSsa.map machine.vals) &&
    match instr.op with
    | .bra _ cond => branching.isSet cond (cond.iterSsa.map machine.vals)
    | _ => true

/-- Run the instructions of a block until it is left. -/
def runBlock (interp : Interp V) : List Instr → Machine V → Leave × Machine V
  | [], machine => (.fall, machine)
  | instr :: rest, machine =>
    if instr.isBranch then
      if branching.taken machine instr then (instr.op.leave, machine)
      else runBlock interp rest machine
    else runBlock interp rest (interp.step machine instr)

theorem taken_of_always {machine : Machine V} {instr : Instr}
    (always : instr.isBranchAlwaysTaken = true) : branching.taken machine instr = true := by
  unfold Instr.isBranchAlwaysTaken at always
  split at always
  next guarded =>
    rw [taken, holds, if_pos guarded, Bool.true_and]
    split
    next target cond isBra =>
      rw [isBra] at always
      have isSet : cond.asBool = some true := by simpa [Src.isTrue] using always
      rw [Branching.isSet, isSet]
      rfl
    next => rfl
  next => cases always

theorem runBlock_append (interp : Interp V) (last : List Instr) : ∀ (front : List Instr)
    (machine : Machine V), branching.runBlock interp (front ++ last) machine =
      match branching.runBlock interp front machine with
      | (.fall, machine) => branching.runBlock interp last machine
      | left => left := by
  intro front
  induction front with
  | nil => exact fun _ => rfl
  | cons instr front ih =>
    intro machine
    rw [List.cons_append, runBlock, runBlock]
    split
    · split
      · cases instr.op <;> rfl
      · exact ih machine
    · exact ih _

end Branching

/-- Where a run is: at the start of a block, or stopped. -/
inductive Conf (V : Type) where
  | «at» (b : Nat) (machine : Machine V)
  | stopped (how : Leave) (machine : Machine V)

def Conf.machine : Conf V → Machine V
  | .at _ machine | .stopped _ machine => machine

def Conf.isStopped : Conf V → Bool
  | .at _ _ => false
  | .stopped _ _ => true

namespace Function

variable (f : Function)

/-- The block of a label: the map from labels keeps the last one. -/
def labelToIdx (label : Label) : Option Nat :=
  ((f.blocks.blocks.map BasicBlock.label).zipIdx.reverse.find? fun entry => entry.1 = label).map
    Prod.snd

/-- What follows when a block is left. -/
def enter (b : Nat) (machine : Machine V) : Leave → Conf V
  | .jump target => match f.labelToIdx target with
    | some s => .at s machine
    | none => .stopped (.jump target) machine
  | .exit => .stopped .exit machine
  | .fall => if b + 1 < f.blocks.len then .at (b + 1) machine else .stopped .fall machine

/-- Run one block. -/
def next (interp : Interp V) (branching : Branching V) : Conf V → Option (Conf V)
  | .at b machine =>
    let (how, machine) := branching.runBlock interp (f.instrs b) machine
    some (f.enter b machine how)
  | .stopped _ _ => none

end Function

/-- The ways to leave a block by one of its branches, whatever conditions hold. -/
def branchExits : List Instr → List Leave
  | [] => []
  | instr :: rest =>
    if instr.isBranchAlwaysTaken then [instr.op.leave]
    else if instr.isBranch then instr.op.leave :: branchExits rest
    else branchExits rest

/-- The end of a block can be reached. -/
def passes (instrs : List Instr) : Bool := instrs.all fun instr => !instr.isBranchAlwaysTaken

/-- All ways to leave a block. -/
def exits (instrs : List Instr) : List Leave :=
  branchExits instrs ++ if passes instrs then [.fall] else []

/-- The blocks that a block can transfer control to. -/
def Function.transfers (f : Function) (b : Nat) (ways : List Leave) : List Nat :=
  ways.filterMap fun
    | .jump target => f.labelToIdx target
    | .exit => none
    | .fall => some (b + 1)

/-- The edges of the graph are the transfers that the instructions can make. -/
def Function.EdgesExact (f : Function) : Prop :=
  ∀ b s, s < f.blocks.len → ((b, s) ∈ f.blocks.edges ↔ s ∈ f.transfers b (exits (f.instrs b)))

theorem isBranch_of_always {instr : Instr} (always : instr.isBranchAlwaysTaken = true) :
    instr.isBranch = true := by
  unfold Instr.isBranchAlwaysTaken at always
  unfold Instr.isBranch
  split at always
  · split at always
    next isBra => rw [isBra]; rfl
    next => exact always
  · cases always

end CoralReef
