import CoralReef.Misc.Fault
import CoralReef.Misc.StraightCode

/-!
# Values and registers

`PtxVal` of `codegen/nv/ptx_emit/types.rs`, and the allocation of registers of `emitter.rs`.
-/

namespace CoralReef.Ptx

inductive PtxVal where
  | r32 (id : Nat)
  | rd64 (id : Nat)
  | pred (id : Nat)
  | vec (vals : List PtxVal)

/-- The registers of a kernel, by their names: `%r`, `%rd` and `%p`. -/
inductive Reg where
  | r (id : Nat)
  | rd (id : Nat)
  | p (id : Nat)
  deriving DecidableEq, Repr

namespace PtxVal

/-- `fmt_operand`. -/
def fmtOperand : PtxVal → Except Fault Reg
  | r32 id => .ok (.r id)
  | rd64 id => .ok (.rd id)
  | pred id => .ok (.p id)
  | vec _ => .error (.panic "cannot use vector as scalar operand")

def component : PtxVal → Nat → Except Fault PtxVal
  | vec vals, idx => expect vals[idx]? "index out of bounds"
  | val, 0 => .ok val
  | _, idx => .error (.panic s!"scalar has no component {idx}")

def is64bit : PtxVal → Bool
  | rd64 _ => true
  | _ => false

end PtxVal

/-- The fields of `PtxEmitter` that code without branches uses. -/
structure PtxEmitter (I : Type) where
  r32Next : Nat := 0
  rd64Next : Nat := 0
  predNext : Nat := 0
  body : List I := []

/-- The registers that are allocated. -/
def PtxEmitter.Allocated {I : Type} (s : PtxEmitter I) : Reg → Prop
  | .r id => id < s.r32Next
  | .rd id => id < s.rd64Next
  | .p id => id < s.predNext

abbrev PtxM (I : Type) := StateT (PtxEmitter I) (Except Fault)

section emit

variable {I : Type}

def allocR32 : PtxM I PtxVal := fun s => .ok (.r32 s.r32Next, { s with r32Next := s.r32Next + 1 })

def allocRd64 : PtxM I PtxVal := fun s =>
  .ok (.rd64 s.rd64Next, { s with rd64Next := s.rd64Next + 1 })

def allocPred : PtxM I PtxVal := fun s =>
  .ok (.pred s.predNext, { s with predNext := s.predNext + 1 })

/-- `writeln_ptx!` of an instruction. -/
def writeln (i : I) : PtxM I Unit := fun s => .ok ((), { s with body := s.body ++ [i] })

/-- An operand of an instruction. -/
def operand (val : PtxVal) : PtxM I Reg := StateT.lift val.fmtOperand

end emit

/-!
## Code that fills new registers
-/

open CoralReef.Straight

variable {I V : Type}

/-- What `PtxEmitter` has emitted and allocated. -/
def emitter (I : Type) : Emitter (PtxEmitter I) I Reg where
  code := PtxEmitter.body
  allocated := PtxEmitter.Allocated

section

variable (m : Machine I Reg V)

/-- The registers after what was emitted. -/
abbrev PtxEmitter.env (start : Reg → V) (s : PtxEmitter I) : Reg → V :=
  Straight.env m (emitter I) start s

/-- A scalar in an allocated register. -/
def HoldsVal (start : Reg → V) (s : PtxEmitter I) (val : PtxVal) (x : V) : Prop :=
  ∃ r, val.fmtOperand = .ok r ∧ Holds m (emitter I) start s r x

/-- The emission returns, with code added that establishes `post`. -/
abbrev EmitsVal {α : Type} (p : PtxM I α) (s : PtxEmitter I)
    (post : α → PtxEmitter I → Prop) : Prop := Straight.Emits m (emitter I) p s post

end

variable {m : Machine I Reg V} {start : Reg → V} {s t : PtxEmitter I}

theorem HoldsVal.mono {val : PtxVal} {x : V} (holds : HoldsVal m start s val x)
    (more : Extends m (emitter I) s t) : HoldsVal m start t val x := by
  rcases holds with ⟨r, isReg, held⟩
  exact ⟨r, isReg, held.mono more⟩

theorem operand_bind {β : Type} {val : PtxVal} {r : Reg} {q : Reg → PtxM I β}
    {post : β → PtxEmitter I → Prop} (isReg : val.fmtOperand = .ok r)
    (rest : EmitsVal m (q r) s post) : EmitsVal m (operand val >>= q) s post :=
  .lift_bind isReg rest

/-- An instruction that writes one new register of 32 bits. -/
theorem allocR32_writeln (start : Reg → V) {instr : Reg → I} (writes : ∀ r, m.writes (instr r) = [r]) :
    EmitsVal m (do
      let dst ← allocR32
      writeln (instr (← operand dst))
      return dst) s fun val t => HoldsVal m start t val
        (m.exec (instr (.r s.r32Next)) (s.env m start) (.r s.r32Next)) := by
  refine ⟨.r32 s.r32Next, { s with
    r32Next := s.r32Next + 1, body := s.body ++ [instr (.r s.r32Next)] }, rfl, ?_, ?_⟩
  · refine .of_code [instr (.r s.r32Next)] ?_ rfl ?_
    · intro r old
      cases r with
      | r id => exact Nat.lt_succ_of_lt old
      | rd id => exact old
      | p id => exact old
    · intro i member r written old
      rw [List.mem_singleton.mp member, writes] at written
      rw [List.mem_singleton.mp written] at old
      exact Nat.lt_irrefl _ old
  · refine ⟨.r s.r32Next, rfl, Nat.lt_succ_self _, ?_⟩
    show m.run (s.body ++ [_]) start _ = _
    rw [m.run_append]
    rfl

end CoralReef.Ptx
