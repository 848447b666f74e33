import CoralReef.Codegen.Ir.GprLimit
import Mathlib.Tactic.Ring

/-!
# Register limits

The product of the sizes is taken in 16 bits, so a large workgroup overflows it, and past 8192
threads nothing is left of the registers. On a target of 64-lane waves the threads are rounded to
128 although four waves are 256, and some sizes are given more registers than the file has.
-/

namespace CoralReef.GprLimit

open FixedWidth

/-- The threads of a workgroup. -/
def LocalSize.threads (size : LocalSize) : Nat := size.x * size.y * size.z

/-- The register file in registers of one thread. The AMD models count registers of a wave. -/
def RegisterModel.threadRegs (sm : RegisterModel) : Nat :=
  if sm.isAmd then sm.totalRegFile * sm.waveSize else sm.totalRegFile

/-- Both builds compute the same. -/
def Computes {α : Type} (run : Bool → Except Fault α) (a : α) : Prop := ∀ debug, run debug = .ok a

/-- Nothing wraps or is cut off, the reservations leave registers, and the registers of all threads
fit the register file. -/
structure LimitsRight (target : GpuTarget) (size : LocalSize) : Prop where
  narrowed : size.narrowed = size
  limit : ∃ limit, Computes (fun debug => gprLimitFromLocalSize debug size.narrowed) limit ∧
    limit * roundUp size.threads (4 * (shaderModelFor target).waveSize) ≤
      (shaderModelFor target).threadRegs
  scheduler : ∃ gprs,
    Computes (fun debug => schedulerGprs debug (shaderModelFor target) size.narrowed) gprs ∧
      0 < gprs
  allocator : ∀ maxLive tmpGprs, maxLive < 2 ^ 31 → 1 ≤ tmpGprs → tmpGprs ≤ 2 → ∃ gprs,
    Computes (fun debug =>
      allocatorGprs debug (shaderModelFor target) size.narrowed maxLive tmpGprs) gprs ∧
      0 < gprs.gprLimit

/-- The sizes with a right limit, by the number of groups of 128 threads. -/
def Launchable (target : GpuTarget) (size : LocalSize) : Prop :=
  1 ≤ size.threads ∧ size.threads ≤ 8192 ∧
    ((shaderModelFor target).waveSize = 64 → (size.threads + 127) / 128 ∉ [3, 5, 7, 9, 21])

/-- The limit for a number of groups of 128 threads. -/
def limitOf (groups : Nat) : Nat := min (65536 / (groups * 128) / 8 * 8) 255

theorem limitOf_bounds : ∀ groups : Fin 65, 1 ≤ groups.1 →
    8 ≤ limitOf groups ∧ limitOf groups ≤ 255 ∧ limitOf groups * (groups * 128) ≤ 65536 := by
  decide

theorem limitOf_waves : ∀ groups : Fin 65, 1 ≤ groups.1 →
    (limitOf groups * ((groups.1 + 1) / 2 * 256) ≤ 65536 ↔ groups.1 ∉ [3, 5, 7, 9, 21]) := by
  decide

theorem limitOf_zero {groups : Nat} (many : 64 < groups) : limitOf groups = 0 := by
  have small : 65536 / (groups * 128) < 8 := by
    rw [Nat.div_lt_iff_lt_mul (by omega)]
    omega
  rw [limitOf, Nat.div_eq_of_lt small]
  rfl

/-- The limit of a size that overflows nothing. -/
theorem gprLimit_ok {size : LocalSize} (pair : size.x * size.y < 2 ^ 16)
    (fits : roundUp size.threads 128 < 2 ^ 16) (threads : size.threads < 2 ^ 16)
    (some : 1 ≤ size.threads) (debug : Bool) : gprLimitFromLocalSize debug size =
      .ok (limitOf ((size.threads + 127) / 128)) := by
  have wave : mul 16 debug 4 (narrow 16 32) = .ok 128 := by cases debug <;> decide
  have positive : 0 < roundUp size.threads 128 := by
    unfold roundUp
    omega
  unfold gprLimitFromLocalSize gprLimitFromLocalSizeSm
  rw [mul_ok pair, ok_bind]
  rw [show mul 16 debug (size.x * size.y) size.z = .ok size.threads from mul_ok threads debug]
  rw [ok_bind, wave, ok_bind, nextMultipleOf_ok (by omega) fits, ok_bind, div_ok positive, ok_bind]
  rfl

/-- What a debug build that returns a limit says of the size. -/
theorem gprLimit_debug {size : LocalSize} {limit : Nat}
    (returned : gprLimitFromLocalSize true size = .ok limit) :
    1 ≤ size.threads ∧ size.threads < 2 ^ 16 ∧ limit = limitOf ((size.threads + 127) / 128) := by
  unfold gprLimitFromLocalSize gprLimitFromLocalSizeSm at returned
  have wave : mul 16 true 4 (narrow 16 32) = .ok 128 := by decide
  rcases bind_eq_ok.mp returned with ⟨pair, first, returned⟩
  rcases mul_debug.mp first with ⟨_, isPair⟩
  rcases bind_eq_ok.mp returned with ⟨threads, second, returned⟩
  rcases mul_debug.mp second with ⟨small, isThreads⟩
  rw [isPair] at small isThreads
  rw [wave, ok_bind] at returned
  rcases bind_eq_ok.mp returned with ⟨rounded, third, returned⟩
  rw [isThreads] at third
  rcases (nextMultipleOf_debug small (by omega)).mp third with ⟨_, isRounded⟩
  rcases bind_eq_ok.mp returned with ⟨out, fourth, returned⟩
  rcases div_returns.mp fourth with ⟨positive, isOut⟩
  have some : 1 ≤ size.threads := by
    rw [isRounded] at positive
    by_contra none
    have zero : size.x * size.y * size.z = 0 := by
      unfold LocalSize.threads at none
      omega
    rw [zero] at positive
    exact absurd positive (by decide)
  refine ⟨some, small, ?_⟩
  rw [isOut, isRounded] at returned
  cases returned
  rfl

/-- What the targets have in common. -/
structure Usual (sm : RegisterModel) : Prop where
  many : 63 ≤ sm.regCount
  bounded : sm.regCount ≤ 256
  reserved : sm.hwReservedGprCount ≤ 2
  waves : sm.waveSize = 32 ∨ sm.waveSize = 64
  file : sm.threadRegs = 65536

theorem usual_shaderModelFor (target : GpuTarget) : Usual (shaderModelFor target) := by
  cases target with
  | nvidia sm =>
    have limits : ∀ regCount hwReservedGprCount, 63 ≤ regCount → regCount ≤ 256 →
        hwReservedGprCount ≤ 2 → Usual ⟨regCount, hwReservedGprCount, 32, 65536, false⟩ :=
      fun _ _ many bounded reserved => ⟨many, bounded, reserved, .inl rfl, rfl⟩
    unfold shaderModelFor
    dsimp only
    split_ifs
    · exact limits 253 2 (by omega) (by omega) (by omega)
    · exact limits 255 0 (by omega) (by omega) (by omega)
    · exact limits 255 0 (by omega) (by omega) (by omega)
    · exact limits 63 0 (by omega) (by omega) (by omega)
  | amd arch =>
    cases arch with
    | gcn5 => exact ⟨by decide, by decide, by decide, .inr rfl, by decide⟩
    | rdna2 | rdna3 | rdna4 => exact ⟨by decide, by decide, by decide, .inl rfl, by decide⟩

section limits

variable {sm : RegisterModel} {size : LocalSize} {limit maxLive tmpGprs : Nat} {debug : Bool}

/-- The scheduler is left with registers. -/
theorem scheduler_ok (usual : Usual sm)
    (isLimit : Computes (fun debug => gprLimitFromLocalSize debug size) limit)
    (enough : 8 ≤ limit) (small : limit ≤ 255) :
    ∃ gprs, Computes (fun debug => schedulerGprs debug sm size) gprs ∧ 0 < gprs := by
  have reserved := usual.reserved
  have many := usual.many
  refine ⟨min (sm.regCount : Int) (limit - sm.hwReservedGprCount : Nat) - swReservedGprs, ?_, ?_⟩
  · intro debug
    have fits : decide (limit - sm.hwReservedGprCount < 2 ^ 31) = true := by
      rw [decide_eq_true_eq]
      omega
    have limited : gprLimitFromLocalSize debug size = .ok limit := isLimit debug
    show schedulerGprs debug sm size = _
    unfold schedulerGprs
    rw [limited, ok_bind, sub_ok (by omega), ok_bind, fits, assertThat_true, ok_bind]
    rfl
  · unfold swReservedGprs
    omega

/-- The limits of the allocator where nothing wraps. -/
def allocatorLimits (maxGprCount hwReservedGprCount maxLive tmpGprs : Nat) : AllocatorGprs :=
  let totalGprs := max maxLive 16 + tmpGprs
  if maxGprCount < totalGprs then ⟨maxGprCount, maxGprCount - max tmpGprs 2, max tmpGprs 2⟩
  else
    let next := roundUp (totalGprs + hwReservedGprCount) 8 - hwReservedGprCount
    let freeGprs := min next maxGprCount - totalGprs
    ⟨totalGprs + freeGprs, max maxLive 16 + freeGprs, tmpGprs⟩

/-- Nothing wraps where the size leaves the temporaries. -/
theorem allocatorGprs_ok (usual : Usual sm)
    (limited : gprLimitFromLocalSize debug size = .ok limit)
    (enough : sm.hwReservedGprCount + 2 ≤ limit) (live : maxLive < 2 ^ 31) (tmp : tmpGprs ≤ 2) :
    allocatorGprs debug sm size maxLive tmpGprs =
      .ok (allocatorLimits (min sm.regCount (limit - sm.hwReservedGprCount))
        sm.hwReservedGprCount maxLive tmpGprs) := by
  have reserved := usual.reserved
  have many := usual.many
  have bounded := usual.bounded
  have total : max maxLive 16 + tmpGprs < 2 ^ 32 := by omega
  unfold allocatorGprs allocatorLimits
  dsimp only
  rw [add_ok total, ok_bind, limited, ok_bind, sub_ok (by omega), ok_bind]
  by_cases spills : min sm.regCount (limit - sm.hwReservedGprCount) < max maxLive 16 + tmpGprs
  · rw [if_pos spills, if_pos spills, sub_ok (by omega), ok_bind]
    rfl
  · let next := roundUp (max maxLive 16 + tmpGprs + sm.hwReservedGprCount) 8
    have above : max maxLive 16 + tmpGprs + sm.hwReservedGprCount ≤ next := by
      show _ ≤ (max maxLive 16 + tmpGprs + sm.hwReservedGprCount + 7) / 8 * 8
      omega
    have below : next < 2 ^ 32 := by
      show (max maxLive 16 + tmpGprs + sm.hwReservedGprCount + 7) / 8 * 8 < 2 ^ 32
      omega
    rw [if_neg spills, if_neg spills, add_ok (by omega), ok_bind,
      nextMultipleOf_ok (by omega) below, ok_bind, sub_ok (by omega), ok_bind, sub_ok (by omega),
      ok_bind, add_ok (by omega), ok_bind, add_ok (by omega), ok_bind]
    rfl

/-- The registers of a thread are those that values may take and the temporaries after them. -/
theorem allocatorLimits_split {maxGprCount hwReservedGprCount : Nat} (enough : 2 ≤ maxGprCount)
    (tmp : tmpGprs ≤ 2) {gprs : AllocatorGprs}
    (isLimits : gprs = allocatorLimits maxGprCount hwReservedGprCount maxLive tmpGprs) :
    gprs.gprLimit + gprs.tmpGprs = gprs.totalGprs ∧ gprs.totalGprs ≤ maxGprCount := by
  subst isLimits
  unfold allocatorLimits
  dsimp only
  split_ifs with spills
  · exact ⟨show maxGprCount - max tmpGprs 2 + max tmpGprs 2 = maxGprCount by omega, le_refl _⟩
  · refine ⟨?_, ?_⟩
    · show max maxLive 16 + _ + tmpGprs = max maxLive 16 + tmpGprs + _
      omega
    · show max maxLive 16 + tmpGprs + _ ≤ maxGprCount
      omega

/-- The allocator is left with registers, whether it spills or not. -/
theorem allocator_ok (usual : Usual sm)
    (isLimit : Computes (fun debug => gprLimitFromLocalSize debug size) limit)
    (enough : 8 ≤ limit) (live : maxLive < 2 ^ 31) (tmp : tmpGprs ≤ 2) :
    ∃ gprs, Computes (fun debug => allocatorGprs debug sm size maxLive tmpGprs) gprs ∧
      0 < gprs.gprLimit := by
  have reserved := usual.reserved
  have many := usual.many
  refine ⟨_, fun debug => allocatorGprs_ok usual (isLimit debug) (by omega) live tmp, ?_⟩
  unfold allocatorLimits
  dsimp only
  split_ifs with spills
  · show 0 < min sm.regCount (limit - sm.hwReservedGprCount) - max tmpGprs 2
    omega
  · show 0 < max maxLive 16 + _
    omega

/-- The limit is a `u8` in every build. -/
theorem gprLimitFromLocalSize_le
    (returned : gprLimitFromLocalSize debug size = .ok limit) : limit ≤ 255 := by
  unfold gprLimitFromLocalSize gprLimitFromLocalSizeSm at returned
  obtain ⟨pair, -, returned⟩ := bind_eq_ok.mp returned
  obtain ⟨threads, -, returned⟩ := bind_eq_ok.mp returned
  obtain ⟨waves, -, returned⟩ := bind_eq_ok.mp returned
  obtain ⟨rounded, -, returned⟩ := bind_eq_ok.mp returned
  obtain ⟨out, -, returned⟩ := bind_eq_ok.mp returned
  obtain ⟨multiple, -, returned⟩ := bind_eq_ok.mp returned
  cases returned
  exact min_le_right _ _

/-- The scheduler returns only where the size leaves two registers. -/
theorem schedulerGprs_enough (usual : Usual sm) {maxGprs : Int}
    (scheduler : schedulerGprs debug sm size = .ok maxGprs)
    (some : 0 < maxGprs) : ∃ limit, gprLimitFromLocalSize debug size = .ok limit ∧
      sm.hwReservedGprCount + 2 ≤ limit := by
  have reserved := usual.reserved
  unfold schedulerGprs at scheduler
  obtain ⟨limit, limited, scheduler⟩ := bind_eq_ok.mp scheduler
  obtain ⟨left, subtracted, scheduler⟩ := bind_eq_ok.mp scheduler
  obtain ⟨_, narrow, scheduler⟩ := bind_eq_ok.mp scheduler
  have small : left < 2 ^ 31 := of_decide_eq_true (assertThat_eq_ok.mp narrow)
  cases scheduler
  unfold swReservedGprs at some
  refine ⟨limit, limited, ?_⟩
  unfold sub at subtracted
  split_ifs at subtracted with enough wraps
  · cases subtracted
    omega
  · -- A limit below the reservation wraps to a number that is no `i32`.
    cases subtracted
    have large : (limit + 2 ^ 32 - sm.hwReservedGprCount) % 2 ^ 32 =
        limit + 2 ^ 32 - sm.hwReservedGprCount := Nat.mod_eq_of_lt (by omega)
    omega

end limits

/-- The scheduler returns only with registers to give. -/
theorem ScheduleTypes.pos {cliff : Int → Int} {maxGprs maxGprTarget gprTarget : Int}
    (returned : ScheduleTypes cliff maxGprs maxGprTarget gprTarget) : 0 < maxGprs := by
  cases returned with
  | enough below fits reached => omega
  | next below fits short rest => omega
  | last past fits =>
    unfold swReservedGprs at fits
    omega

theorem limitsRight_of_launchable {target : GpuTarget} {size : LocalSize}
    (launchable : Launchable target size) : LimitsRight target size := by
  rcases launchable with ⟨some, most, waves⟩
  have usual := usual_shaderModelFor target
  have product : size.x * size.y * size.z = size.threads := rfl
  have zPos : 0 < size.z := by
    by_contra none
    have zero : size.z = 0 := by omega
    rw [zero, Nat.mul_zero] at product
    omega
  have xyPos : 0 < size.x * size.y := by
    by_contra none
    have zero : size.x * size.y = 0 := by omega
    rw [zero, Nat.zero_mul] at product
    omega
  have xy : size.x * size.y ≤ size.threads := Nat.le_mul_of_pos_right _ zPos
  have z : size.z ≤ size.threads := Nat.le_mul_of_pos_left _ xyPos
  have x : size.x ≤ size.x * size.y := Nat.le_mul_of_pos_right _ (Nat.pos_of_mul_pos_left xyPos)
  have y : size.y ≤ size.x * size.y := Nat.le_mul_of_pos_left _ (Nat.pos_of_mul_pos_right xyPos)
  have narrowed : size.narrowed = size := by
    unfold LocalSize.narrowed
    rw [narrow_eq_self.mpr (by omega), narrow_eq_self.mpr (by omega),
      narrow_eq_self.mpr (by omega)]
  have fits : roundUp size.threads 128 < 2 ^ 16 := by
    unfold roundUp
    omega
  have groups : (size.threads + 127) / 128 < 65 := by omega
  have someGroups : 1 ≤ (size.threads + 127) / 128 := by omega
  have isLimit : Computes (fun debug => gprLimitFromLocalSize debug size)
      (limitOf ((size.threads + 127) / 128)) :=
    fun debug => gprLimit_ok (by omega) fits (by omega) some debug
  rcases limitOf_bounds ⟨_, groups⟩ someGroups with ⟨enough, small, within⟩
  refine ⟨narrowed, ⟨_, by rw [narrowed]; exact isLimit, ?_⟩, ?_, ?_⟩
  · rw [usual.file]
    rcases usual.waves with narrow' | wide
    · rw [narrow']
      exact within
    · have allowed := (limitOf_waves ⟨_, groups⟩ someGroups).mpr (waves wide)
      have rounded : roundUp size.threads (4 * 64) = ((size.threads + 127) / 128 + 1) / 2 * 256 := by
        unfold roundUp
        omega
      rw [wide, rounded]
      exact allowed
  · rw [narrowed]
    exact scheduler_ok usual isLimit enough small
  · intro maxLive tmpGprs live _ tmp
    rw [narrowed]
    exact allocator_ok usual isLimit enough live tmp

theorem launchable_of_limitsRight {target : GpuTarget} {size : LocalSize}
    (right : LimitsRight target size) : Launchable target size := by
  have usual := usual_shaderModelFor target
  rcases right.limit with ⟨limit, isLimit, file⟩
  rcases right.scheduler with ⟨gprs, isGprs, positive⟩
  have returned := isLimit true
  rw [right.narrowed] at returned
  rcases gprLimit_debug returned with ⟨some, small, isLimitOf⟩
  have most : size.threads ≤ 8192 := by
    by_contra more
    have none : limit = 0 := isLimitOf.trans (limitOf_zero (by omega))
    have scheduled := isGprs true
    simp only [schedulerGprs, isLimit true, ok_bind] at scheduled
    rcases bind_eq_ok.mp scheduled with ⟨left, first, scheduled⟩
    rcases sub_debug.mp first with ⟨_, isLeft⟩
    rcases bind_eq_ok.mp scheduled with ⟨_, _, scheduled⟩
    cases scheduled
    unfold swReservedGprs at positive
    omega
  refine ⟨some, most, ?_⟩
  intro wide
  have groups : (size.threads + 127) / 128 < 65 := by omega
  have someGroups : 1 ≤ (size.threads + 127) / 128 := by omega
  have rounded : roundUp size.threads (4 * 64) = ((size.threads + 127) / 128 + 1) / 2 * 256 := by
    unfold roundUp
    omega
  rw [usual.file, wide, rounded, isLimitOf] at file
  exact (limitOf_waves ⟨_, groups⟩ someGroups).mp file

/-- The exact condition: between 1 and 8192 threads, and on a target of 64-lane waves not 3, 5, 7,
9 or 21 groups of 128. -/
theorem gprLimit_right_iff (target : GpuTarget) (size : LocalSize) :
    LimitsRight target size ↔ Launchable target size :=
  ⟨launchable_of_limitsRight, limitsRight_of_launchable⟩

/-- A product of 65536 threads is no thread and divides by zero; three groups of 128 threads are
given more registers than GCN5 has; 8320 threads are given none. -/
theorem gprLimit_square_fails : ¬ LimitsRight (.nvidia 70) ⟨256, 256, 1⟩ ∧
    ¬ LimitsRight (.amd .gcn5) ⟨384, 1, 1⟩ ∧ ¬ LimitsRight (.nvidia 70) ⟨8320, 1, 1⟩ ∧
    gprLimitFromLocalSize false ⟨256, 256, 1⟩ = .error (.panic "attempt to divide by zero") := by
  refine ⟨?_, ?_, ?_, by decide⟩
  · intro right
    exact absurd (launchable_of_limitsRight right).2.1 (by decide)
  · intro right
    exact absurd ((launchable_of_limitsRight right).2.2 rfl) (by decide)
  · intro right
    exact absurd (launchable_of_limitsRight right).2.1 (by decide)

end CoralReef.GprLimit
