import CoralReef.Codegen.Amd.Proofs.Branches

/-!
# The VGPRs that AMD encoding takes for itself

The five registers after the last allocated one. They are distinct and no operand names them, but
the fields of an instruction have 8 bits for a register: past 251 registers the last of the five
are written as v0 and on.
-/

namespace CoralReef.Amd

open List BitFields

/-- The reserved registers are distinct registers of the hardware that no operand names, the words
save the thread ids there, they are read from there, and an instruction with a reserved
destination writes it and no register that an operand names. -/
structure ReservedRight (s : Shader) (userSgprCount : Nat) (words : List Word) : Prop where
  distinct : s.reservedVgprs.Nodup
  below : ∀ r ∈ s.reservedVgprs, r < 256
  free : ∀ r ∈ s.reservedVgprs, r ∉ s.vgprs
  saved : ∀ i < tidSaveVgprs, ∃ word, words[i]? = some word ∧
    vop1Vdst word = s.gprCount + i ∧ vop1Vsrc word = some i
  read : ∀ i < tidSaveVgprs, ∃ src0, amdSysRegSrc (0x21 + i) userSgprCount s.gprCount = .ok src0 ∧
    ∀ dst, ∀ emitted ∈ encodeVop1 Isa.vMovB32 dst src0,
      vop1Vsrc emitted.word = some (s.gprCount + i)
  written : ∀ r ∈ s.reservedVgprs, ∀ opcode src0, ∀ emitted ∈ encodeVop1 opcode (.vgpr r) src0,
    vop1Vdst emitted.word = r ∧
      ∀ v ∈ s.vgprs, ∀ value vgprs, runVMov emitted.word value vgprs v = vgprs v

theorem mem_reservedVgprs {s : Shader} {r : Nat} :
    r ∈ s.reservedVgprs ↔ s.gprCount ≤ r ∧ r < s.gprCount + 5 := by
  have listed : s.reservedVgprs = [s.gprCount + 0, s.gprCount + 1, s.gprCount + 2, s.gprCount + 3,
    s.gprCount + 3 + 1] := rfl
  rw [listed]
  simp only [mem_cons, not_mem_nil, or_false]
  omega

theorem nodup_reservedVgprs (s : Shader) : s.reservedVgprs.Nodup := by
  have shifted : s.reservedVgprs = (List.range 5).map (s.gprCount + ·) := rfl
  rw [shifted]
  exact nodup_range.map fun a b same => Nat.add_left_cancel same

/-- The destination of a VOP1 instruction, as far as it fits. -/
theorem vop1Vdst_encodeVop1 {opcode src0 : Nat} {dst : RegRef} {emitted : Emitted}
    (made : emitted ∈ encodeVop1 opcode dst src0) : vop1Vdst emitted.word = dst.index % 256 := by
  rcases mem_singleton.mp made
  unfold vop1Vdst
  simp (disch := decide) only [getField_setField_disjoint, getField_setField_same, Nat.reducePow]

/-- The source register of a VOP1 instruction, as far as it fits. -/
theorem vop1Vsrc_encodeVop1 {opcode reg : Nat} {dst : RegRef} {emitted : Emitted}
    (made : emitted ∈ encodeVop1 opcode dst (256 + reg)) (fits : reg < 256) :
    vop1Vsrc emitted.word = some reg := by
  rcases mem_singleton.mp made
  have field : ∀ word : Word, getField (setField word 0 9 (256 + reg)) 0 9 = 256 + reg := by
    intro word
    rw [getField_setField_same (by decide), Nat.mod_eq_of_lt (by omega)]
  unfold vop1Vsrc
  dsimp only
  rw [field, if_pos (by omega), Nat.add_sub_cancel_left]

/-- Emitting instructions keeps the words before them. -/
theorem encodeInstrs_keeps {e : AmdOpEncoder} {instrs : List Instr} {encoded encoded' : List Word}
    (returned : instrs.foldlM (encodeInstr e) encoded = .ok encoded') : encoded <+: encoded' := by
  induction instrs generalizing encoded with
  | nil =>
    cases returned
    exact prefix_rfl
  | cons instr instrs ih =>
    rw [foldlM_cons] at returned
    rcases bind_eq_ok.mp returned with ⟨next, step, rest⟩
    rcases encodeInstr_ok step with ⟨words, _, rfl⟩
    exact (prefix_append encoded words).trans (ih rest)

theorem encodeBlocks_keeps {e : AmdOpEncoder} {blocks : List Block} {encoded encoded' : List Word}
    (returned : blocks.foldlM (encodeBlock e) encoded = .ok encoded') : encoded <+: encoded' := by
  induction blocks generalizing encoded with
  | nil =>
    cases returned
    exact prefix_rfl
  | cons b blocks ih =>
    rw [foldlM_cons] at returned
    rcases bind_eq_ok.mp returned with ⟨next, step, rest⟩
    exact (encodeInstrs_keeps step).trans (ih rest)

/-- Moving the thread ids does not end the program. -/
theorem endsWithEndpgm_tidSavePrologue (tidSaveBase : Nat) :
    endsWithEndpgm (tidSavePrologue tidSaveBase) = false := by
  have listed : (tidSavePrologue tidSaveBase).getLast? =
      some (setField (setField (setField (setField (0 : Word) 25 7 0b0111111) 17 8
        (tidSaveBase + 2)) 9 8 Isa.vMovB32) 0 9 (256 + 2)) := rfl
  unfold endsWithEndpgm
  rw [listed, decide_eq_false_iff_not]
  intro same
  have format := congrArg (fun word => getField word 25 7) (Option.some.inj same)
  simp (disch := decide) only [getField_setField_disjoint, getField_setField_same] at format
  exact absurd format (by decide)

/-- The words of a shader begin with the prologue. -/
theorem finish_prologue {tidSaveBase : Nat} {encoded : List Word}
    (keeps : tidSavePrologue tidSaveBase <+: encoded) {i : Nat} (inside : i < tidSaveVgprs) :
    (finish encoded)[i]? = (tidSavePrologue tidSaveBase)[i]? := by
  rcases keeps with ⟨rest, rfl⟩
  have three := length_tidSavePrologue tidSaveBase
  have inPrologue : i < (tidSavePrologue tidSaveBase).length := by
    rw [three]
    exact inside
  cases rest with
  | nil =>
    rw [append_nil, finish, if_pos (by rw [endsWithEndpgm_tidSavePrologue]; rfl),
      append_assoc, List.getElem?_append_left inPrologue]
  | cons word rest =>
    rw [finish_keeps, List.getElem?_append_left inPrologue]
    rw [length_append, length_cons]
    omega

/-- The words of a shader have the moves of the thread ids in front. -/
theorem encodeRdna2Shader_saves {gfxVersion : Nat} {s : Shader} {words : List Word}
    (accepted : encodeRdna2Shader gfxVersion s = .ok words) {i : Nat} (inside : i < tidSaveVgprs) :
    ∃ emitted ∈ encodeVop1 Isa.vMovB32 (.vgpr (s.gprCount + i)) (256 + i),
      words[i]? = some emitted.word := by
  unfold encodeRdna2Shader at accepted
  split at accepted
  · cases accepted
  · rcases bind_eq_ok.mp accepted with ⟨encoded, emitted, made⟩
    cases made
    refine ⟨_, mem_singleton_self _, ?_⟩
    rw [finish_prologue (encodeBlocks_keeps emitted) inside]
    match i, inside with
    | 0, _ | 1, _ | 2, _ => rfl

variable {gfxVersion : Nat} {words : List Word}

/-- No operand names a VGPR from the count on. -/
theorem AllocatedShader.lt_gprCount (s : AllocatedShader) (v : Nat) (used : v ∈ s.toShader.vgprs) :
    v < s.gprCount := by
  rw [s.counted]
  exact s.limits.lt_totalGprs (s.assigned v used)

/-- With at most 251 registers allocated, the reserved ones are as claimed. -/
theorem reservedRight_of_fits (s : AllocatedShader)
    (accepted : encodeRdna2Shader gfxVersion s.toShader = .ok words) (userSgprCount : Nat)
    (fits : s.gprCount ≤ 251) : ReservedRight s.toShader userSgprCount words := by
  have below : ∀ r ∈ s.toShader.reservedVgprs, r < 256 := by
    intro r member
    have bounds := mem_reservedVgprs.mp member
    omega
  have free : ∀ r ∈ s.toShader.reservedVgprs, r ∉ s.toShader.vgprs := by
    intro r member used
    have bounds := mem_reservedVgprs.mp member
    have allocated := s.lt_gprCount r used
    omega
  refine ⟨nodup_reservedVgprs _, below, free, ?_, ?_, ?_⟩
  · intro i inside
    have three : i < 3 := inside
    rcases encodeRdna2Shader_saves accepted inside with ⟨emitted, made, here⟩
    refine ⟨emitted.word, here, ?_, vop1Vsrc_encodeVop1 made (by omega)⟩
    rw [vop1Vdst_encodeVop1 made]
    exact Nat.mod_eq_of_lt (show s.gprCount + i < 256 by omega)
  · intro i inside
    have three : i < 3 := inside
    refine ⟨256 + (s.gprCount + i), ?_, ?_⟩
    · match i, inside with
      | 0, _ | 1, _ | 2, _ => rfl
    · intro dst emitted made
      exact vop1Vsrc_encodeVop1 made (by omega)
  · intro r member opcode src0 emitted made
    have isDst : vop1Vdst emitted.word = r :=
      (vop1Vdst_encodeVop1 made).trans (Nat.mod_eq_of_lt (below r member))
    refine ⟨isDst, ?_⟩
    intro v used value vgprs
    have other : v ≠ r := fun same => free r member (same ▸ used)
    unfold runVMov
    rw [isDst, Function.update_of_ne other]

/-- The exact condition: at most 251 registers are allocated. -/
theorem reservedVgprs_right_iff (s : AllocatedShader) (userSgprCount : Nat)
    (accepted : encodeRdna2Shader gfxVersion s.toShader = .ok words) :
    ReservedRight s.toShader userSgprCount words ↔ s.gprCount ≤ 251 := by
  constructor
  · intro right
    have last := right.below (s.gprCount + 4) (mem_reservedVgprs.mpr (by omega))
    omega
  · exact reservedRight_of_fits s accepted userSgprCount

/-- A value in v2, and in another register the sum of two literals, both of which go through scratch
registers. -/
def sumIn (dst : CoralReef.RegRef) (gprCount : Nat) : Shader :=
  let v2 : CoralReef.RegRef := ⟨.gpr, 2, 1, RegRef.two_le, RegRef.single⟩
  ⟨[[⟨⟨0⟩, [{ op := .mov (.reg v2) { reference := .imm32 1 } },
    { op := .fAdd (.reg dst) fun _ => { reference := .imm32 1000 } }, { op := .exit }]⟩]], gprCount⟩

/-- What `assign_regs` comes to on RDNA2 for workgroups of 64, from the values live at once. -/
def limitsOf (maxLive : Nat) (gprs : GprLimit.AllocatorGprs) (live : maxLive < 2 ^ 29)
    (allocator : GprLimit.allocatorGprs true (GprLimit.shaderModelFor (.amd .rdna2)) ⟨64, 1, 1⟩
      maxLive 1 = .ok gprs) : AssignLimits where
  debug := true
  target := .amd .rdna2
  localSize := ⟨64, 1, 1⟩
  maxLive
  tmpGprs := 1
  maxGprs := 254
  gprs
  live
  tmp := by decide
  scheduler := by decide
  scheduled := ⟨fun _ => 2048, 1, 2048, .last (by decide) (by decide)⟩
  allocator

theorem vgprs_sumIn (dst : CoralReef.RegRef) (gprCount : Nat) :
    (sumIn dst gprCount).vgprs = 2 :: vgprsOf dst := by
  simp [sumIn, Shader.vgprs, Op.regs, Op.dsts, Op.srcs, vgprsOf, Dst.asReg, SrcRef.asReg]

/-- The registers that `assign_regs` takes for any shader are 24 or more. -/
def fewRegs : AllocatedShader where
  toShader := sumIn ⟨.gpr, 7, 1, RegRef.seven_le, RegRef.single⟩ 24
  limits := limitsOf 2 ⟨24, 23, 1⟩ (by decide) (by decide)
  counted := rfl
  assigned v used := by
    rw [vgprs_sumIn] at used
    have below : ∀ v ∈ 2 :: vgprsOf ⟨.gpr, 7, 1, RegRef.seven_le, RegRef.single⟩, v < 23 := by decide
    exact assignedGpr_of_lt (below v used)

/-- 255 registers are as many as `assign_regs` gives a shader on AMD. -/
def allRegs : AllocatedShader where
  toShader := sumIn ⟨.gpr, 253, 1, by decide, RegRef.single⟩ 255
  limits := limitsOf 250 ⟨255, 254, 1⟩ (by decide) (by decide)
  counted := rfl
  assigned v used := by
    rw [vgprs_sumIn] at used
    have below : ∀ v ∈ 2 :: vgprsOf ⟨.gpr, 253, 1, by decide, RegRef.single⟩, v < 254 := by decide
    exact assignedGpr_of_lt (below v used)

theorem reservedVgprs_right_few : ∃ words,
    encodeRdna2Shader 103 fewRegs.toShader = .ok words ∧
      ReservedRight fewRegs.toShader 6 words :=
  have accepted : encodeRdna2Shader 103 fewRegs.toShader = .ok [0x7E300300, 0x7E320301,
    0x7E340302, 0x7E040281, 0x7E3602FF, 1000, 0x7E3802FF, 1000, 0xD5030007, 0x0002391B,
    0xBF8C0000, 0xBF810000] := by decide
  ⟨_, accepted, (reservedVgprs_right_iff fewRegs 6 accepted).mpr (by decide)⟩

/-- With 255 registers the prologue writes v255, v0 and v1, and the first literal is moved to v2
over the value there. -/
theorem reservedVgprs_all_fails : ∃ words, encodeRdna2Shader 103 allRegs.toShader = .ok words ∧
    (words.take 3).map vop1Vdst = [255, 0, 1] ∧ 2 ∈ allRegs.toShader.vgprs ∧
    (words[4]?.map vop1Vdst = some 2) ∧ ¬ ReservedRight allRegs.toShader 6 words := by
  refine ⟨[0x7FFE0300, 0x7E000301, 0x7E020302, 0x7E040281, 0x7E0402FF, 1000, 0x7E0602FF, 1000,
    0xD50300FD, 0x00000602, 0xBF8C0000, 0xBF810000], by decide, by decide, by decide, by decide, ?_⟩
  intro right
  exact absurd (right.below 259 (by decide)) (by decide)

end CoralReef.Amd
