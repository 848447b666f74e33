import CoralReef.Codegen.Nv.PtxEmit.Proofs.Subgroup

/-!
# Gathers over a full warp

Every gather is one shuffle. The shuffles up, down and across read the lane that naga names; those
by index read within a segment of one lane or of the first four.
-/

namespace CoralReef.Ptx

open CoralReef.Straight WarpInstr
open NagaTranslate (Scalar)

/-- The shuffle of a gather. -/
def gatherInstr (mode : GatherMode Unit) (d a index : Reg) : WarpInstr :=
  match mode with
  | .broadcastFirst => .shfl .idx d none a (.imm 0) 0x1f1f 0xFFFFFFFF
  | .broadcast _ | .shuffle _ => .shfl .idx d none a (.reg index) 0x1f1f 0xFFFFFFFF
  | .shuffleDown _ => .shfl .down d none a (.reg index) 0x1f 0xFFFFFFFF
  | .shuffleUp _ => .shfl .up d none a (.reg index) 0 0xFFFFFFFF
  | .shuffleXor _ => .shfl .bfly d none a (.reg index) 0x1f 0xFFFFFFFF
  | .quadBroadcast _ => .shfl .idx d none a (.reg index) 0x0003 0xFFFFFFFF
  | .quadSwap _ => .shfl .bfly d none a (.imm 1) 0x03 0xFFFFFFFF

/-- The lane that the shuffle of a gather reads. -/
def gatherLane (mode : GatherMode Unit) (index : Lane → BitVec 32) (lane : Lane) : Lane :=
  let i := (index lane).setWidth 5
  match mode with
  | .broadcastFirst => (shflSource .idx 0 0x1f1f lane).1
  | .broadcast _ | .shuffle _ => (shflSource .idx i 0x1f1f lane).1
  | .shuffleDown _ => (shflSource .down i 0x1f lane).1
  | .shuffleUp _ => (shflSource .up i 0 lane).1
  | .shuffleXor _ => (shflSource .bfly i 0x1f lane).1
  | .quadBroadcast _ => (shflSource .idx i 0x0003 lane).1
  | .quadSwap _ => (shflSource .bfly 1 0x03 lane).1

section

variable {floats : FloatOps} {scalar : Scalar} {mode : GatherMode Unit}

theorem emitGather_eq (narrow : scalar.width ≠ 8) (s : PtxEmitter WarpInstr) (id index : Nat) :
    emitSubgroupGather (mode.withIndex (.r32 index)) (.r32 id) scalar s =
      .ok (.r32 s.r32Next, { s with
      r32Next := s.r32Next + 1
      body := s.body ++ [gatherInstr mode (.r s.r32Next) (.r id) (.r index)] }) := by
  have alloc : allocForScalar scalar s =
      .ok (.r32 s.r32Next, { s with r32Next := s.r32Next + 1 }) := by
    unfold allocForScalar
    rw [if_neg narrow]
    rfl
  unfold emitSubgroupGather
  refine (run_bind alloc).trans ?_
  cases mode <;> rfl

theorem run_gatherInstr {d a index : Reg} {env : Reg → Lane → Cell} {i : Lane → BitVec 32}
    (held : ∀ lane, env index lane = .b32 (i lane)) (lane : Lane) :
    (warp floats).run [gatherInstr mode d a index] env d lane = env a (gatherLane mode i lane) := by
  have operand : bval env (.reg index) lane = (i lane).setWidth 5 := by
    show (env index lane).asB32.setWidth 5 = _
    rw [held]
    rfl
  have read : ∀ m b c, (warp floats).run [.shfl m d none a b c 0xFFFFFFFF] env d lane =
      env a (shflSource m (bval env b lane) c lane).1 := by
    intro m b c
    show Function.update env d _ d lane = _
    rw [Function.update_self]
  cases mode with
  | broadcastFirst | quadSwap direction => exact read _ _ _
  | broadcast _ | shuffle _ | shuffleDown _ | shuffleUp _ | shuffleXor _ | quadBroadcast _ =>
    exact (read _ _ _).trans (by rw [operand]; rfl)

theorem valueOf_cellOf (narrow : scalar.width ≤ 4) (notBool : scalar.kind ≠ .bool)
    (v : BitVec (bits scalar)) : valueOf scalar (cellOf scalar v) = v := by
  have wide : bits scalar ≤ 32 := by
    unfold bits
    rw [if_neg notBool]
    omega
  rw [cellOf_narrow (by omega) notBool]
  show (v.setWidth 32).setWidth (bits scalar) = v
  rw [BitVec.setWidth_setWidth_of_le _ wide, BitVec.setWidth_eq]

/-- A gather of at most 32 bits is right when its shuffle reads the lane that naga names. -/
theorem gatherRight_iff (narrow : scalar.width ≤ 4) (positive : 0 < scalar.width)
    (notBool : scalar.kind ≠ .bool) :
    GatherRight floats mode scalar ↔ ∀ (i : Lane → BitVec 32) lane source,
      (mode.withIndex i).source lane = some source → gatherLane mode i lane = source := by
  have notWide : scalar.width ≠ 8 := by omega
  have delivered : ∀ (start : Reg → Lane → Cell) (s : PtxEmitter WarpInstr) (id index : Nat)
      (v : Lane → BitVec (bits scalar)) (i : Lane → BitVec 32),
      HoldsVal (warp floats) start s (.r32 id) (fun lane => cellOf scalar (v lane)) →
      HoldsVal (warp floats) start s (.r32 index) (fun lane => .b32 (i lane)) →
      (Delivers floats start s { s with r32Next := s.r32Next + 1, body := s.body ++
          [gatherInstr mode (.r s.r32Next) (.r id) (.r index)] } (.r32 s.r32Next)
        (fun lane cell => ∀ source, (mode.withIndex i).source lane = some source →
          valueOf scalar cell = v source) ↔
        ∀ lane source, (mode.withIndex i).source lane = some source →
          v (gatherLane mode i lane) = v source) := by
    rintro start s id index v i ⟨r, isReg, held⟩ ⟨r', isIndex, indexHeld⟩
    cases isReg
    cases isIndex
    refine (delivers_iff (t := { s with
      r32Next := s.r32Next + 1
      body := s.body ++ [gatherInstr mode (.r s.r32Next) (.r id) (.r index)] })
      rfl (Nat.le_succ _) rfl (Nat.le_refl _) (Nat.lt_succ_self _) ?_).trans ?_
    · intro instr member r written old
      rcases List.mem_singleton.mp member
      have isDst : r = .r s.r32Next := by cases mode <;> exact List.mem_singleton.mp written
      rw [isDst] at old
      exact Nat.lt_irrefl _ old
    · have legal : ∀ instr ∈ [gatherInstr mode (.r s.r32Next) (.r id) (.r index)],
          WarpInstr.legal instr = true := by
        intro instr member
        rcases List.mem_singleton.mp member
        cases mode <;> rfl
      have read : ∀ lane, (warp floats).run [gatherInstr mode (.r s.r32Next) (.r id) (.r index)]
          (s.env (warp floats) start) (.r s.r32Next) lane =
          cellOf scalar (v (gatherLane mode i lane)) := by
        intro lane
        rw [run_gatherInstr fun lane => congrFun indexHeld.value lane]
        exact congrFun held.value _
      simp only [read, valueOf_cellOf narrow notBool]
      exact ⟨fun both => both.2, fun right => ⟨legal, right⟩⟩
  constructor
  · intro right i lane source isSource
    let v : Lane → BitVec (bits scalar) := fun lane => if lane = source then 0 else 1
    let start : Reg → Lane → Cell := fun r lane =>
      if r = .r 1 then .b32 (i lane) else cellOf scalar (v lane)
    have held : HoldsVal (warp floats) start firstState (.r32 0)
        fun lane => cellOf scalar (v lane) := holds_firstState rfl (show 0 < 2 by omega) rfl
    have indexHeld : HoldsVal (warp floats) start firstState (.r32 1) fun lane => .b32 (i lane) :=
      holds_firstState rfl (show 1 < 2 by omega) rfl
    have same := (delivered start firstState 0 1 v i held indexHeld).mp
      (right (.r32 0) (.r32 1) v i start firstState ⟨notBool, notWide⟩ held
        ⟨by decide, by decide⟩ indexHeld _ _
        (emitGather_eq notWide firstState 0 1)) lane source isSource
    by_contra other
    have isOne : v (gatherLane mode i lane) = 1 := if_neg other
    have isZero : v source = 0 := if_pos rfl
    rw [isOne, isZero] at same
    have wide : 0 < bits scalar := by
      unfold bits
      rw [if_neg notBool]
      omega
    have bit := congrArg (fun x => x.getLsbD 0) same
    simp [wide] at bit
  · intro reads val index v i start s inClass held indexClass indexHeld result t emitted
    rcases exists_r32 notWide notBool inClass with ⟨id, rfl⟩
    have isIndex : ∃ id, index = .r32 id := exists_r32 (by decide) (by decide) indexClass
    rcases isIndex with ⟨id', rfl⟩
    rw [emitGather_eq notWide] at emitted
    cases emitted
    exact (delivered start s id id' v i held indexHeld).mpr fun lane source isSource =>
      congrArg v (reads i lane source isSource)

/-- Within the last lane a shuffle reads the lane at its distance. -/
theorem shflSource_distance : ∀ (b : Fin 32) (lane : Lane),
    (lane.1 + b.1 < 32 → (shflSource .down (BitVec.ofNat 5 b.1) 0x1f lane).1.1 = lane.1 + b.1) ∧
      (shflSource .bfly (BitVec.ofNat 5 b.1) 0x1f lane).1.1 = lane.1 ^^^ b.1 := by
  decide

theorem setWidth_eq_ofNat (x : BitVec 32) : x.setWidth 5 = BitVec.ofNat 5 x.toNat := by
  apply BitVec.eq_of_toNat_eq
  rw [BitVec.toNat_setWidth, BitVec.toNat_ofNat]

theorem laneOf_eq {n : Nat} {lane : Lane} (isLane : laneOf n = some lane) : n = lane.1 := by
  unfold laneOf at isLane
  split at isLane
  · cases isLane
    rfl
  · cases isLane

/-- The gathers that are right: shuffles up, down and across of values in registers of 32 bits. -/
def gatherCovered (mode : GatherMode Unit) (scalar : Scalar) : Bool :=
  match mode with
  | .shuffleDown _ | .shuffleUp _ | .shuffleXor _ => scalar.kind ≠ .bool ∧ scalar.width ≠ 8
  | _ => false

/-- The lanes that the shuffles of covered modes read. -/
theorem gatherLane_eq {i : Lane → BitVec 32} {lane source : Lane}
    (isSource : (mode.withIndex i).source lane = some source)
    (covered : gatherCovered mode scalar) : gatherLane mode i lane = source := by
  have inLane := lane.isLt
  have inSource := source.isLt
  apply Fin.ext
  cases mode with
  | broadcastFirst | broadcast _ | shuffle _ | quadBroadcast _ | quadSwap _ => cases covered
  | shuffleDown _ =>
    have distance : lane.1 + (i lane).toNat = source.1 := laneOf_eq isSource
    show (shflSource .down ((i lane).setWidth 5) 0x1f lane).1.1 = source.1
    rw [setWidth_eq_ofNat, ← distance]
    exact (shflSource_distance ⟨(i lane).toNat, by omega⟩ lane).1 (by dsimp only; omega)
  | shuffleUp _ =>
    have named : (if (i lane).toNat ≤ lane.1 then laneOf (lane.1 - (i lane).toNat) else none) =
      some source := isSource
    split at named
    case isTrue inside =>
      show (shflSource .up ((i lane).setWidth 5) 0 lane).1.1 = source.1
      rw [setWidth_eq_ofNat, shflSource_up_eq (by omega) inside]
      exact laneOf_eq named
    case isFalse => cases named
  | shuffleXor _ =>
    have distance : lane.1 ^^^ (i lane).toNat = source.1 := laneOf_eq isSource
    have small : (i lane).toNat < 2 ^ 5 := by
      have back : (i lane).toNat = lane.1 ^^^ source.1 := by
        rw [← distance, ← Nat.xor_assoc, Nat.xor_self, Nat.zero_xor]
      rw [back]
      exact Nat.xor_lt_two_pow lane.isLt source.isLt
    show (shflSource .bfly ((i lane).setWidth 5) 0x1f lane).1.1 = source.1
    rw [setWidth_eq_ofNat, ← distance]
    exact (shflSource_distance ⟨(i lane).toNat, small⟩ lane).2

/-- A lane for which the shuffle of another mode reads a lane that naga does not name. -/
theorem gatherLane_wrong {mode : GatherMode Unit}
    (notCovered : gatherCovered mode ⟨.uint, 4⟩ = false) :
    ∃ lane source, (mode.withIndex fun _ => (0 : BitVec 32)).source lane = some source ∧
      gatherLane mode (fun _ => 0) lane ≠ source := by
  cases mode with
  | shuffleDown _ | shuffleUp _ | shuffleXor _ => cases notCovered
  | broadcastFirst => exact ⟨1, 0, rfl, by decide⟩
  | broadcast index | shuffle index =>
    cases index
    exact ⟨1, 0, rfl, by decide⟩
  | quadBroadcast index =>
    cases index
    exact ⟨4, 4, rfl, by decide⟩
  | quadSwap direction =>
    cases direction with
    | x => exact ⟨4, 5, rfl, by decide⟩
    | y => exact ⟨4, 6, rfl, by decide⟩
    | diagonal => exact ⟨4, 7, rfl, by decide⟩

/-- Whether PTX admits the shuffle that is emitted first for a gather. -/
def firstGatherLegal (mode : GatherMode Unit) (scalar : Scalar) : Bool :=
  match emitSubgroupGather (mode.withIndex (.r32 1)) (firstVal scalar) scalar firstState with
  | .ok (_, t) => t.body.all WarpInstr.legal
  | .error _ => true

theorem firstGatherLegal_of_right (right : GatherRight floats mode scalar) :
    firstGatherLegal mode scalar := by
  let start : Reg → Lane → Cell := fun r _ => if r = .r 1 then .b32 0 else cellOf scalar 0
  have first : _ ∧ HoldsVal (warp floats) start _ _ fun _ => cellOf scalar 0 :=
    exists_firstVal scalar fun r other => funext fun _ => if_neg other
  have indexHeld : HoldsVal (warp floats) start firstState (.r32 1) fun _ => .b32 0 :=
    holds_firstState rfl (show 1 < 2 by omega) rfl
  unfold firstGatherLegal
  split
  case h_1 result t emitted =>
    have delivers := right (firstVal scalar) (.r32 1) (fun _ => 0) (fun _ => 0) start firstState
      first.1 first.2 ⟨by decide, by decide⟩ indexHeld _ _ emitted
    exact List.all_eq_true.mpr fun i member => delivers.legal i member
  case h_2 => rfl

/-- PTX admits no shuffle of a predicate or of 64 bits. -/
theorem firstGatherLegal_narrow : ∀ scalar ∈ validScalars, firstGatherLegal mode scalar →
    scalar.kind ≠ .bool ∧ 0 < scalar.width ∧ scalar.width ≤ 4 := by
  cases mode with
  | broadcastFirst => decide
  | broadcast index | shuffle index | shuffleDown index | shuffleUp index | shuffleXor index
  | quadBroadcast index =>
    cases index
    decide
  | quadSwap direction => cases direction <;> decide

/-- The exact condition for a gather. -/
theorem gatherRight_iff_covered (valid : validScalar scalar) :
    GatherRight floats mode scalar ↔ gatherCovered mode scalar := by
  have widths : ∀ scalar ∈ validScalars, scalar.width ≠ 8 →
      0 < scalar.width ∧ scalar.width ≤ 4 := by decide
  constructor
  · intro right
    rcases firstGatherLegal_narrow scalar (mem_validScalars valid)
      (firstGatherLegal_of_right right) with ⟨notBool, positive, narrow⟩
    have reads := (gatherRight_iff narrow positive notBool).mp right
    by_contra notCovered
    have wrongMode : gatherCovered mode ⟨.uint, 4⟩ = false := by
      have notWide : scalar.width ≠ 8 := by omega
      cases mode with
      | shuffleDown _ | shuffleUp _ | shuffleXor _ =>
        exact absurd (decide_eq_true ⟨notBool, notWide⟩) notCovered
      | broadcastFirst | broadcast _ | shuffle _ | quadBroadcast _ | quadSwap _ => rfl
    rcases gatherLane_wrong wrongMode with ⟨lane, source, isSource, other⟩
    exact other (reads (fun _ => 0) lane source isSource)
  · intro covered
    have fits : scalar.kind ≠ .bool ∧ scalar.width ≠ 8 := by
      cases mode with
      | shuffleDown _ | shuffleUp _ | shuffleXor _ => exact of_decide_eq_true covered
      | broadcastFirst | broadcast _ | shuffle _ | quadBroadcast _ | quadSwap _ => cases covered
    rcases widths scalar (mem_validScalars valid) fits.2 with ⟨positive, narrow⟩
    exact (gatherRight_iff narrow positive fits.1).mpr fun i lane source isSource =>
      gatherLane_eq isSource covered

end

/-- The exact condition: sums, minima and maxima of integers of 32 bits, scans of 32 bits without
the exclusive ones of floats and of minima and maxima without sign, and shuffles of at most 32 bits
up, down and across. -/
theorem subgroup_right_iff (floats : FloatOps) (scalar : Scalar) (valid : validScalar scalar) :
    (∀ collectiveOp op, CollectiveRight floats collectiveOp op scalar ↔
      collectiveCovered collectiveOp op scalar) ∧
    ∀ mode, GatherRight floats mode scalar ↔ gatherCovered mode scalar :=
  ⟨fun _ _ => collectiveRight_iff_covered valid, fun _ => gatherRight_iff_covered valid⟩

/-- Operations that give the absorbing value where there is one, and otherwise the first operand. -/
def plainFloats : FloatOps where
  op o {w} a b := if (floatFormat w).decode b.toNat = o.absorbing then b else a
  left o {w} a b isLeft := by
    split_ifs with isRight
    · exact isRight
    · exact isLeft
  right o {w} a b isRight := by
    rw [if_pos isRight]
    exact isRight

theorem subgroup_right_u32 : CollectiveRight plainFloats .exclusiveScan .mul ⟨.uint, 4⟩ ∧
    GatherRight plainFloats (.shuffleXor ()) ⟨.uint, 4⟩ :=
  have both := subgroup_right_iff plainFloats ⟨.uint, 4⟩ rfl
  ⟨(both.1 .exclusiveScan .mul).mpr rfl, (both.2 (.shuffleXor ())).mpr rfl⟩

/-- A product over all lanes is the first lane's value in the first lane; the first lane of a
minimum without sign has the greatest value with sign; a sum of floats is no reduction of PTX; and
a broadcast gives each lane its own value. -/
theorem subgroup_product_fails :
    ¬ CollectiveRight plainFloats .reduce .mul ⟨.uint, 4⟩ ∧
    ¬ CollectiveRight plainFloats .exclusiveScan .min ⟨.uint, 4⟩ ∧
    ¬ CollectiveRight plainFloats .reduce .add ⟨.float, 4⟩ ∧
    ¬ GatherRight plainFloats .broadcastFirst ⟨.uint, 4⟩ ∧
    ¬ GatherRight plainFloats (.quadSwap .x) ⟨.uint, 4⟩ ∧
    ¬ GatherRight plainFloats (.shuffleXor ()) ⟨.float, 8⟩ := by
  refine ⟨reduce_mul_u32_wrong, exclusive_u32_wrong (by decide), ?_, ?_, ?_, ?_⟩
  · exact fun right => absurd (firstLegal_of_right right) (by decide)
  · exact fun right => absurd ((gatherRight_iff_covered rfl).mp right) (by decide)
  · exact fun right => absurd ((gatherRight_iff_covered rfl).mp right) (by decide)
  · exact fun right => absurd (firstGatherLegal_of_right right) (by decide)

end CoralReef.Ptx
