import CoralReef.Codegen.Ir.Proofs.GprLimit
import CoralReef.Codegen.Ir.SrcDst
import Mathlib.Data.Finset.Erase
import Mathlib.Data.Finset.Insert
import Mathlib.Logic.Function.Basic

/-!
# Register allocators

`RegAllocator` of `codegen/assign_regs/reg_allocator.rs`: which value of a block has which register
of a file. Which register a value is given is decided elsewhere; whatever it is, it is one of the
registers that `assign_regs` counted.
-/

namespace CoralReef

open GprLimit

/-- The pinned registers, which keep values where they are, are left out. -/
structure RegAllocator where
  file : RegFile
  regCount : Nat
  used : Finset Nat
  regSsa : Nat → Option SSAValue
  ssaReg : SSAValue → Option Nat

namespace RegAllocator

/-- `RegAllocator::new`. -/
def new (file : RegFile) (regCount : Nat) : RegAllocator where
  file
  regCount
  used := ∅
  regSsa _ := none
  ssaReg _ := none

/-- `reg_is_used`. -/
def regIsUsed (ra : RegAllocator) (reg : Nat) : Bool := reg ∈ ra.used

/-- `assign_reg`. -/
def assignReg (ra : RegAllocator) (ssa : SSAValue) (reg : Nat) : Except Fault RegAllocator := do
  assertThat (ssa.file = ra.file) "ssa.file() == self.file"
  assertThat (reg < ra.regCount) "reg < self.reg_count"
  assertThat (!ra.regIsUsed reg) "!self.reg_is_used(reg)"
  assertThat (ra.ssaReg ssa).isNone "SSA value already assigned"
  return { ra with
    used := insert reg ra.used
    regSsa := Function.update ra.regSsa reg (some ssa)
    ssaReg := Function.update ra.ssaReg ssa (some reg) }

/-- `free_ssa`. -/
def freeSsa (ra : RegAllocator) (ssa : SSAValue) : Except Fault (Nat × RegAllocator) := do
  assertThat (ssa.file = ra.file) "ssa.file() == self.file"
  let reg ← expect (ra.ssaReg ssa) "SSA must be allocated to free"
  assertThat (ra.regIsUsed reg) "self.reg_is_used(reg)"
  assertThat (ra.regSsa reg = some ssa) "self.reg_ssa[reg_usize] == Some(ssa)"
  return (reg, { ra with
    used := ra.used.erase reg
    ssaReg := Function.update ra.ssaReg ssa none })

/-- The allocators of a block, after any number of registers given and taken back. -/
inductive Reached (file : RegFile) (regCount : Nat) : RegAllocator → Prop where
  | new : Reached file regCount (RegAllocator.new file regCount)
  | assign {ra ra' : RegAllocator} {ssa : SSAValue} {reg : Nat} (before : Reached file regCount ra)
      (assigned : ra.assignReg ssa reg = .ok ra') : Reached file regCount ra'
  | free {ra ra' : RegAllocator} {ssa : SSAValue} {reg : Nat} (before : Reached file regCount ra)
      (freed : ra.freeSsa ssa = .ok (reg, ra')) : Reached file regCount ra'

/-- The registers of the values are among those of the file. -/
structure Bounded (file : RegFile) (regCount : Nat) (ra : RegAllocator) : Prop where
  file_eq : ra.file = file
  count_eq : ra.regCount = regCount
  below : ∀ ssa reg, ra.ssaReg ssa = some reg → reg < regCount

variable {file : RegFile} {regCount reg : Nat} {ra ra' : RegAllocator} {ssa : SSAValue}

theorem bounded_new : Bounded file regCount (new file regCount) where
  file_eq := rfl
  count_eq := rfl
  below _ _ none := nomatch none

theorem Bounded.assign (bounded : Bounded file regCount ra)
    (assigned : ra.assignReg ssa reg = .ok ra') : Bounded file regCount ra' := by
  unfold assignReg at assigned
  obtain ⟨_, -, assigned⟩ := bind_eq_ok.mp assigned
  obtain ⟨_, inside, assigned⟩ := bind_eq_ok.mp assigned
  obtain ⟨_, -, assigned⟩ := bind_eq_ok.mp assigned
  obtain ⟨_, -, assigned⟩ := bind_eq_ok.mp assigned
  cases assigned
  refine ⟨bounded.file_eq, bounded.count_eq, ?_⟩
  intro other reg' has
  by_cases same : other = ssa
  · subst same
    have given : Function.update ra.ssaReg other (some reg) other = some reg' := has
    rw [Function.update_self] at given
    cases given
    have counted : reg < ra.regCount := of_decide_eq_true (assertThat_eq_ok.mp inside)
    rwa [bounded.count_eq] at counted
  · have kept : Function.update ra.ssaReg ssa (some reg) other = some reg' := has
    rw [Function.update_of_ne same] at kept
    exact bounded.below other reg' kept

theorem Bounded.free (bounded : Bounded file regCount ra)
    (freed : ra.freeSsa ssa = .ok (reg, ra')) : Bounded file regCount ra' := by
  unfold freeSsa at freed
  obtain ⟨_, -, freed⟩ := bind_eq_ok.mp freed
  obtain ⟨_, -, freed⟩ := bind_eq_ok.mp freed
  obtain ⟨_, -, freed⟩ := bind_eq_ok.mp freed
  obtain ⟨_, -, freed⟩ := bind_eq_ok.mp freed
  cases freed
  refine ⟨bounded.file_eq, bounded.count_eq, ?_⟩
  intro other reg' has
  by_cases same : other = ssa
  · subst same
    have gone : Function.update ra.ssaReg other none other = some reg' := has
    rw [Function.update_self] at gone
    cases gone
  · have kept : Function.update ra.ssaReg ssa none other = some reg' := has
    rw [Function.update_of_ne same] at kept
    exact bounded.below other reg' kept

theorem Reached.bounded (reached : Reached file regCount ra) : Bounded file regCount ra := by
  induction reached with
  | new => exact bounded_new
  | assign before assigned ih => exact ih.assign assigned
  | free before freed ih => exact ih.free freed

/-- Any register of the file can be the first that is given to a value. -/
theorem assignReg_new (inside : reg < regCount) (idx : Nat) :
    ∃ ra, (new file regCount).assignReg ⟨file, idx⟩ reg = .ok ra ∧
      ra.ssaReg ⟨file, idx⟩ = some reg := by
  have counted : decide (reg < (new file regCount).regCount) = true := decide_eq_true inside
  have sameFile : decide (file = (new file regCount).file) = true := decide_eq_true rfl
  unfold assignReg
  rw [sameFile, counted]
  exact ⟨_, rfl, Function.update_self ..⟩

end RegAllocator

/-- The GPRs that `assign_regs` writes into operands: those that a value has at some time, and the
temporaries of parallel copies, which follow. The registers of a `RegOut` are left out: the front
end makes none. -/
inductive AssignedGpr (gprs : AllocatorGprs) : Nat → Prop where
  | value {ra : RegAllocator} {ssa : SSAValue} {reg : Nat}
      (reached : ra.Reached .gpr gprs.gprLimit) (has : ra.ssaReg ssa = some reg) :
      AssignedGpr gprs reg
  | tmp {i : Nat} (inside : i < gprs.tmpGprs) : AssignedGpr gprs (gprs.gprLimit + i)

theorem assignedGpr_of_lt {gprs : AllocatorGprs} {reg : Nat} (inside : reg < gprs.gprLimit) :
    AssignedGpr gprs reg := by
  obtain ⟨ra, assigned, has⟩ := RegAllocator.assignReg_new inside 0
  exact .value (.assign .new assigned) has

/-- The limits that `assign_regs` comes to for a compute shader that the scheduler before it has
returned. `maxLive` counts values, which have numbers of 29 bits. -/
structure AssignLimits where
  debug : Bool
  target : GpuTarget
  localSize : LocalSize
  maxLive : Nat
  tmpGprs : Nat
  maxGprs : Int
  gprs : AllocatorGprs
  live : maxLive < 2 ^ 29
  tmp : tmpGprs ≤ 2
  scheduler : schedulerGprs debug (shaderModelFor target) localSize = .ok maxGprs
  scheduled : ∃ cliff maxGprTarget gprTarget, ScheduleTypes cliff maxGprs maxGprTarget gprTarget
  allocator : allocatorGprs debug (shaderModelFor target) localSize maxLive tmpGprs = .ok gprs

namespace AssignLimits

variable (limits : AssignLimits)

/-- The registers of a thread fit a `u8`, and the allocator and the temporaries share them. -/
theorem gprs_split : limits.gprs.gprLimit + limits.gprs.tmpGprs = limits.gprs.totalGprs ∧
    limits.gprs.totalGprs ≤ 255 := by
  have usual := usual_shaderModelFor limits.target
  have many := usual.many
  obtain ⟨cliff, maxGprTarget, gprTarget, returned⟩ := limits.scheduled
  obtain ⟨limit, limited, enough⟩ := schedulerGprs_enough usual limits.scheduler returned.pos
  have small := gprLimitFromLocalSize_le limited
  have live : limits.maxLive < 2 ^ 31 := lt_trans limits.live (by decide)
  have isLimits := limits.allocator
  rw [allocatorGprs_ok usual limited enough live limits.tmp] at isLimits
  have split := allocatorLimits_split (by omega) limits.tmp (Except.ok.inj isLimits).symm
  exact ⟨split.1, by omega⟩

/-- Every register in an operand is one of the registers of a thread. -/
theorem lt_totalGprs {reg : Nat} (assigned : AssignedGpr limits.gprs reg) :
    reg < limits.gprs.totalGprs := by
  have split := limits.gprs_split.1
  cases assigned with
  | value reached has =>
    have below := reached.bounded.below _ _ has
    omega
  | tmp inside => omega

end AssignLimits

end CoralReef
