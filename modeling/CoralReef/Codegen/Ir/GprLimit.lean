import CoralReef.Misc.FixedWidth

/-!
# Register limits

How the size of a workgroup limits the registers of a thread: `ir/shader_model.rs`, the sizes that
`naga_translate/mod.rs` narrows, and the reservations of the pre-pass scheduler and of
`assign_regs`. A spill forced for tests is left out.
-/

namespace CoralReef.GprLimit

open FixedWidth

/-- What the limits ask the `ShaderModel` of a target. `regCount` and `hwReservedGprCount` are
those of the GPRs. -/
structure RegisterModel where
  regCount : Nat
  hwReservedGprCount : Nat
  waveSize : Nat
  totalRegFile : Nat
  isAmd : Bool
  deriving DecidableEq, Repr

inductive AmdArch where
  | gcn5 | rdna2 | rdna3 | rdna4
  deriving DecidableEq, Repr

/-- The targets with a register limit. The number of NVIDIA's is the SM. -/
inductive GpuTarget where
  | nvidia (sm : Nat)
  | amd (arch : AmdArch)
  deriving DecidableEq, Repr

def AmdArch.gfxMajor : AmdArch → Nat
  | .gcn5 => 9
  | .rdna2 => 10
  | .rdna3 => 11
  | .rdna4 => 12

def AmdArch.defaultWaveSize : AmdArch → Nat
  | .gcn5 => 64
  | .rdna2 | .rdna3 | .rdna4 => 32

/-- `shader_model_for`. -/
def shaderModelFor : GpuTarget → RegisterModel
  | .nvidia sm =>
    let (regCount, hwReservedGprCount) :=
      if 70 ≤ sm then (255 - 2, 2)
      else if 50 ≤ sm then (255, 0)
      else if 32 ≤ sm then (255, 0)
      else (63, 0)
    { regCount, hwReservedGprCount, waveSize := 32, totalRegFile := 65536, isAmd := false }
  | .amd arch => {
      regCount := 256
      hwReservedGprCount := 0
      waveSize := arch.defaultWaveSize
      totalRegFile := if (arch.gfxMajor * 10 + 3) / 10 ≤ 9 then 256 * 4 else 1024 * 2
      isAmd := true }

/-- The size of a workgroup: three numbers. -/
structure LocalSize where
  x : Nat
  y : Nat
  z : Nat
  deriving DecidableEq, Repr

/-- `translate_compute`: each number of the entry point `as u16`. -/
def LocalSize.narrowed (size : LocalSize) : LocalSize where
  x := narrow 16 size.x
  y := narrow 16 size.y
  z := narrow 16 size.z

/-- `prev_multiple_of`. -/
def prevMultipleOf (x y : Nat) : Except Fault Nat := do
  return (← div x y) * y

/-- `gpr_limit_from_local_size_sm`. -/
def gprLimitFromLocalSizeSm (debug : Bool) (localSize : LocalSize) (totalRegs waveSize : Nat) :
    Except Fault Nat := do
  let threads ← mul 16 debug (← mul 16 debug localSize.x localSize.y) localSize.z
  let threads ← nextMultipleOf 16 debug threads (← mul 16 debug 4 (narrow 16 waveSize))
  let out ← div totalRegs threads
  let out ← prevMultipleOf out 8
  return min out 255

/-- `gpr_limit_from_local_size`. -/
def gprLimitFromLocalSize (debug : Bool) (localSize : LocalSize) : Except Fault Nat :=
  gprLimitFromLocalSizeSm debug localSize 65536 32

/-- `SCHED_SW_RESERVED_GPRS`. -/
def swReservedGprs : Int := 1

/-- `Shader::opt_instr_sched_prepass`: the GPRs that the scheduler is given. -/
def schedulerGprs (debug : Bool) (sm : RegisterModel) (localSize : LocalSize) :
    Except Fault Int := do
  let limit ← sub 32 debug (← gprLimitFromLocalSize debug localSize) sm.hwReservedGprCount
  assertThat (limit < 2 ^ 31) "GPR limit must fit in i32"
  return min (sm.regCount : Int) limit - swReservedGprs

/-- The calls of `get_schedule_types` that return, by the target that its loop has come to. A target
that is taken and the last limit have to fit a `u8`. `cliff` is
`next_occupancy_cliff_with_reserved`. -/
inductive ScheduleTypes (cliff : Int → Int) (maxGprs maxGprTarget : Int) : Int → Prop where
  | enough {gprTarget : Int} (below : gprTarget < maxGprs) (fits : 0 ≤ gprTarget ∧ gprTarget < 2 ^ 8)
      (reached : maxGprTarget ≤ gprTarget) : ScheduleTypes cliff maxGprs maxGprTarget gprTarget
  | next {gprTarget : Int} (below : gprTarget < maxGprs) (fits : 0 ≤ gprTarget ∧ gprTarget < 2 ^ 8)
      (short : gprTarget < maxGprTarget)
      (rest : ScheduleTypes cliff maxGprs maxGprTarget (cliff (gprTarget + 1))) :
      ScheduleTypes cliff maxGprs maxGprTarget gprTarget
  | last {gprTarget : Int} (past : maxGprs ≤ gprTarget)
      (fits : 0 ≤ maxGprs - swReservedGprs ∧ maxGprs - swReservedGprs < 2 ^ 8) :
      ScheduleTypes cliff maxGprs maxGprTarget gprTarget

/-- The limits of `Shader::assign_regs`: the registers of a thread, those of them that values may
take, and the temporaries of parallel copies. -/
structure AllocatorGprs where
  totalGprs : Nat
  gprLimit : Nat
  tmpGprs : Nat
  deriving DecidableEq, Repr

/-- `Shader::assign_regs`, from the values live at once and the temporaries of parallel copies. -/
def allocatorGprs (debug : Bool) (sm : RegisterModel) (localSize : LocalSize)
    (maxLive tmpGprs : Nat) : Except Fault AllocatorGprs := do
  let gprLimit := max maxLive 16
  let totalGprs ← add 32 debug gprLimit tmpGprs
  let limit ← sub 32 debug (← gprLimitFromLocalSize debug localSize) sm.hwReservedGprCount
  let maxGprCount := min sm.regCount limit
  if maxGprCount < totalGprs then
    let tmpGprs := max tmpGprs 2
    return { totalGprs := maxGprCount, gprLimit := ← sub 32 debug maxGprCount tmpGprs, tmpGprs }
  else
    let next ← nextMultipleOf 32 debug (← add 32 debug totalGprs sm.hwReservedGprCount) 8
    let nextMultipleGprs ← sub 32 debug next sm.hwReservedGprCount
    let freeGprs ← sub 32 debug (min nextMultipleGprs maxGprCount) totalGprs
    return { totalGprs := ← add 32 debug totalGprs freeGprs,
             gprLimit := ← add 32 debug gprLimit freeGprs, tmpGprs }

end CoralReef.GprLimit
