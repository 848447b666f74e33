import CoralReef.Codegen.Ir.Alu
import CoralReef.Codegen.Ir.Prmt
import CoralReef.Codegen.Ir.Proofs.Step
import CoralReef.Misc.SsaFacts

/-!
# Functions of ALU ops

The functions that the ALU passes see before registers are assigned: the ops that a pass reasons
about have their values, every other op is any function of what it reads. A word is kept for every
name; a predicate is kept as the word with its truth in every bit.
-/

namespace CoralReef

inductive AluOp where
  | lop3 (op : OpLop3)
  | plop3 (op : OpPLop3)
  | prmt (op : OpPrmt)
  | base (op : Op)

namespace AluOp

/-- `srcs_as_slice`. -/
def srcs : AluOp → List Src
  | .lop3 op => List.ofFn op.srcs
  | .plop3 op => List.ofFn op.srcs
  | .prmt op => List.ofFn op.srcs
  | .base op => op.srcs

/-- `dsts_as_slice`. -/
def dsts : AluOp → List Dst
  | .lop3 op => [op.dst]
  | .plop3 op => List.ofFn op.dsts
  | .prmt op => [op.dst]
  | .base op => op.dsts

end AluOp

structure AluInstr where
  pred : Pred := {}
  op : AluOp

namespace AluInstr

/-- The values `for_each_ssa_use` visits. -/
def ssaUses (instr : AluInstr) : List SSAValue :=
  instr.pred.iterSsa ++ instr.op.srcs.flatMap Src.iterSsa

/-- The values `for_each_ssa_def` visits. -/
def ssaDefs (instr : AluInstr) : List SSAValue := instr.op.dsts.flatMap Dst.iterSsa

end AluInstr

structure AluBlock where
  label : Label
  uniform : Bool := false
  instrs : List AluInstr := []

structure AluFunction where
  blocks : CFG AluBlock := {}

/-- What the machine does apart from the ALU: constant buffers, registers that are named all the
same, permutes of the other modes, and all other ops. -/
structure AluInterp (E : Type) where
  bound : Nat → Nat → BitVec 32
  bindless : BitVec 32 → BitVec 32 → Nat → BitVec 32
  bindlessReg : RegRef → Nat → BitVec 32
  reg : RegRef → BitVec 32
  permute : PrmtMode → (Fin 3 → BitVec 32) → BitVec 32
  base : E → Instr → List (BitVec 32) → E × (Nat → BitVec 32)

structure AluState (E : Type) where
  vals : SSAValue → BitVec 32
  rest : E

namespace AluInterp

variable {E : Type} (interp : AluInterp E)

/-- The word an operand of one component names. -/
def word (vals : SSAValue → BitVec 32) : SrcRef → BitVec 32
  | .zero | .boolFalse => 0
  | .boolTrue => BitVec.allOnes 32
  | .imm32 u => BitVec.ofNat 32 u
  | .cbuf ⟨.binding idx, offset⟩ => interp.bound idx offset
  | .cbuf ⟨.bindlessSSA lo hi, offset⟩ => interp.bindless (vals lo) (vals hi) offset
  | .cbuf ⟨.bindlessUGPR r, offset⟩ => interp.bindlessReg r offset
  | .ssa vec => (vec.head?.map vals).getD 0
  | .reg r => interp.reg r

/-- A predicate operand. -/
def truth (vals : SSAValue → BitVec 32) (src : Src) : Bool :=
  (interp.word vals src.reference).getLsbD 0 != decide (src.modifier = .bNot)

/-- Whether an instruction with this guard is executed. -/
def guard (vals : SSAValue → BitVec 32) (pred : Pred) : Bool :=
  (match pred.predicate with
    | .none => true
    | .ssa x => (vals x).getLsbD 0
    | .reg r => (interp.reg r).getLsbD 0) != pred.inverted

/-- The value of a permute. -/
def prmtValue (vals : SSAValue → BitVec 32) (op : OpPrmt) : BitVec 32 :=
  let words (i : Fin 3) := interp.word vals (op.srcs i).reference
  if op.mode = .index then PrmtSel.fold ⟨(words 2).setWidth 16⟩ ![words 0, words 1]
  else interp.permute op.mode words

/-- The value of a logic op. -/
def lop3Value (vals : SSAValue → BitVec 32) (op : OpLop3) : BitVec 32 :=
  let words (i : Fin 3) := interp.word vals (op.srcs i).reference
  op.op.eval (words 0) (words 1) (words 2)

/-- The two results of a logic op on predicates. -/
def plop3Value (vals : SSAValue → BitVec 32) (op : OpPLop3) (i : Fin 2) : BitVec 32 :=
  BitVec.fill 32 ((op.ops i).result fun j => interp.truth vals (op.srcs j))

/-- Write one word to a destination of one component. -/
def write (vals : SSAValue → BitVec 32) (dst : Dst) (value : BitVec 32) : SSAValue → BitVec 32 :=
  assign vals (dst.iterSsa.map fun x => (x, value))

/-- The effect of an op. -/
def exec (state : AluState E) : AluOp → AluState E
  | .lop3 op => { state with vals := write state.vals op.dst (interp.lop3Value state.vals op) }
  | .plop3 op =>
    { state with
      vals := write (write state.vals (op.dsts 0) (interp.plop3Value state.vals op 0)) (op.dsts 1)
        (interp.plop3Value state.vals op 1) }
  | .prmt op => { state with vals := write state.vals op.dst (interp.prmtValue state.vals op) }
  | .base op =>
    let instr := Instr.new op
    let (rest, results) := interp.base state.rest instr.skeleton (instr.ssaUses.map state.vals)
    { vals := assign state.vals (instr.ssaDefs.zipIdx.map fun entry => (entry.1, results entry.2))
      rest }

/-- The effect of an instruction: none when its guard is off. -/
def step (state : AluState E) (instr : AluInstr) : AluState E :=
  if interp.guard state.vals instr.pred then interp.exec state instr.op else state

/-- The word of an operand depends on the names in it. -/
theorem word_congr {vals vals' : SSAValue → BitVec 32}
    {r : SrcRef} (same : ∀ z ∈ r.iterSsa, vals z = vals' z) :
    interp.word vals r = interp.word vals' r := by
  cases r with
  | cbuf cb =>
    rcases cb with ⟨buf, offset⟩
    cases buf with
    | bindlessSSA lo hi =>
      rw [word, word, same lo (by simp [SrcRef.iterSsa]), same hi (by simp [SrcRef.iterSsa])]
    | binding idx => rfl
    | bindlessUGPR reg => rfl
  | ssa vec =>
    cases vec with
    | nil => rfl
    | cons x vec => exact same x List.mem_cons_self
  | zero => rfl
  | boolTrue => rfl
  | boolFalse => rfl
  | imm32 u => rfl
  | reg reg => rfl

theorem write_of_notMem {vals : SSAValue → BitVec 32} {dst : Dst} {value : BitVec 32}
    {x : SSAValue} (fresh : x ∉ dst.iterSsa) : write vals dst value x = vals x :=
  assign_other (by simpa [Function.comp_def] using fresh)

/-- An instruction changes the names it defines and no others. -/
theorem step_frame (state : AluState E) {instr : AluInstr} {x : SSAValue}
    (fresh : x ∉ instr.ssaDefs) : (interp.step state instr).vals x = state.vals x := by
  unfold step
  split
  · rcases instr with ⟨pred, op⟩
    cases op with
    | lop3 op => exact write_of_notMem (by simpa [AluInstr.ssaDefs, AluOp.dsts] using fresh)
    | prmt op => exact write_of_notMem (by simpa [AluInstr.ssaDefs, AluOp.dsts] using fresh)
    | plop3 op =>
      have fresh : x ∉ (op.dsts 0).iterSsa ∧ x ∉ (op.dsts 1).iterSsa := by
        simpa [AluInstr.ssaDefs, AluOp.dsts] using fresh
      exact (write_of_notMem fresh.2).trans (write_of_notMem fresh.1)
    | base op =>
      have named : (((Instr.new op).ssaDefs.zipIdx).map fun entry => entry.1) =
        (Instr.new op).ssaDefs := List.zipIdx_map_fst _ _
      refine assign_other ?_
      rw [List.map_map, Function.comp_def, named]
      exact fresh
  · rfl

end AluInterp

end CoralReef
