import CoralReef.Codegen.Amd.Spec
import CoralReef.Codegen.Amd.Proofs.Sizes
import Mathlib.Data.List.Nodup

/-!
# Branches of AMD code go to their targets

The label pass and the emitting pass walk the same blocks, the first by the sizes taken for the
instructions, the second by the words they have. Where those are equal, for each instruction, both
passes are at the same offset at each block.
-/

namespace CoralReef.Amd

open List BitFields

/-! ## Words -/

theorem length_patchForGfx9 (words : List Word) : (patchForGfx9 words).length = words.length := by
  rw [patchForGfx9, length_map, length_map]

/-- The words of an instruction are as many as are taken for it exactly when its operands have the
shapes of `sizeExact`. -/
theorem length_encodeAmdOp_iff {op : Op} {e : AmdOpEncoder} {words : List Word}
    (accepted : encodeAmdOp op e = .ok words) :
    words.length = estimateInstrSize op ↔ sizeExact op := by
  obtain ⟨emitted, encoded, made⟩ := encodeAmdOp_ok.mp accepted
  rw [← length_opEncodeAmd_iff encoded, made]
  split
  · rw [length_patchForGfx9, length_map]
  · rw [length_map]

/-- A scalar program control word is neither a VOP3 nor a VOPC word. -/
theorem patch_sopp (opcode simm16 : Nat) :
    patchForGfx9 ((encodeSopp opcode simm16).map Emitted.word) =
      (encodeSopp opcode simm16).map Emitted.word := by
  rw [encodeSopp, map_singleton, patchForGfx9, map_singleton, map_singleton]
  have notVop3 : patchVop3Word (setField (setField (setField (0 : Word) 23 9 0b101111111) 16 7
      opcode) 0 16 simm16) = setField (setField (setField (0 : Word) 23 9 0b101111111) 16 7
      opcode) 0 16 simm16 := by
    rw [patchVop3Word, if_neg]
    simp (disch := decide) only [getField_setField_disjoint, getField_setField_inside]
    decide
  rw [notVop3, patchVopcWord, if_neg]
  simp (disch := decide) only [getField_setField_disjoint, getField_setField_inside]
  decide

/-- The distance of a branch is read back from its word. -/
theorem branchDestination_sopp (position opcode : Nat) (offset : Int) (low : -2 ^ 15 ≤ offset)
    (high : offset < 2 ^ 15) (word : Emitted)
    (made : encodeSopp opcode (offset % 2 ^ 16).toNat = [word]) :
    branchDestination position word.word = position + 1 + offset := by
  cases made
  rw [branchDestination]
  simp (disch := decide) only [getField_setField_same]
  congr 1
  have unsigned : (((offset % 2 ^ 16).toNat % 2 ^ 16 : Nat) : Int) = offset % (2 ^ 16 : Nat) := by
    omega
  rw [BitVec.toInt_ofNat', unsigned, Int.emod_bmod]
  exact Int.bmod_eq_of_le (by omega) (by omega)

/-! ## Offsets -/

section

variable {e : AmdOpEncoder} {blocks : List Block}

theorem length_tidSavePrologue (tidSaveBase : Nat) : (tidSavePrologue tidSaveBase).length = 3 := rfl

theorem encodeInstr_ok {encoded encoded' : List Word} {instr : Instr}
    (returned : encodeInstr e encoded instr = .ok encoded') :
    ∃ words, encodeAmdOp instr.op { e with ip := encoded.length } = .ok words ∧
      encoded' = encoded ++ words := by
  obtain ⟨words, accepted, made⟩ := bind_eq_ok.mp returned
  cases made
  exact ⟨words, accepted, rfl⟩

/-- Instructions of the sizes taken for them bring the emitting pass as far as the label pass. -/
theorem length_encodeInstrs {instrs : List Instr} {encoded encoded' : List Word}
    (sizes : ∀ instr ∈ instrs, sizeExact instr.op)
    (returned : instrs.foldlM (encodeInstr e) encoded = .ok encoded') :
    encoded'.length =
      encoded.length + (instrs.map fun instr => estimateInstrSize instr.op).sum := by
  refine foldlM_measure ?_ returned
  intro instr member here next step
  obtain ⟨words, accepted, rfl⟩ := encodeInstr_ok step
  rw [length_append, (length_encodeAmdOp_iff accepted).mpr (sizes instr member)]

theorem length_encodeBlocks {encoded encoded' : List Word}
    (sizes : ∀ b ∈ blocks, ∀ instr ∈ b.instrs, sizeExact instr.op)
    (returned : blocks.foldlM (encodeBlock e) encoded = .ok encoded') :
    encoded'.length = encoded.length + (blocks.map estimateBlockSize).sum := by
  refine foldlM_measure ?_ returned
  intro b member here next step
  exact length_encodeInstrs (sizes b member) step

/-! ## Labels -/

theorem labelsOfInstrs_append (done rest : List Instr) (ip : Nat) :
    labelsOfInstrs (done ++ rest) ip = labelsOfInstrs done ip ++
      labelsOfInstrs rest (ip + (done.map fun instr => estimateInstrSize instr.op).sum) := by
  induction done generalizing ip with
  | nil => rfl
  | cons instr done ih =>
    simp only [cons_append, labelsOfInstrs, ih, map_cons, sum_cons,
      append_assoc, Nat.add_assoc]

theorem labelsOfBlocks_append (before after : List Block) (ip : Nat) :
    labelsOfBlocks (before ++ after) ip = labelsOfBlocks before ip ++
      labelsOfBlocks after (ip + (before.map estimateBlockSize).sum) := by
  induction before generalizing ip with
  | nil => rfl
  | cons b before ih =>
    simp only [cons_append, labelsOfBlocks, ih, map_cons, sum_cons,
      append_assoc, Nat.add_assoc]

/-- A label inside a block is that of a `Nop`, at the sum of the sizes before it. -/
theorem mem_labelsOfInstrs {instrs : List Instr} {ip : Nat} {label : Label} {position : Nat} :
    (label, position) ∈ labelsOfInstrs instrs ip ↔
      ∃ done pred rest, instrs = done ++ ⟨pred, .nop (some label)⟩ :: rest ∧
        position = ip + (done.map fun instr => estimateInstrSize instr.op).sum := by
  constructor
  · intro member
    induction instrs generalizing ip with
    | nil => cases member
    | cons instr instrs ih =>
      simp only [labelsOfInstrs, mem_append] at member
      rcases member with here | later
      · split at here
        case h_1 label' isNop =>
          rcases instr with ⟨pred, op⟩
          cases isNop
          cases mem_singleton.mp here
          exact ⟨[], pred, instrs, rfl, rfl⟩
        case h_2 => cases here
      · obtain ⟨done, pred, rest, rfl, rfl⟩ := ih later
        exact ⟨instr :: done, pred, rest, rfl, by
          rw [map_cons, sum_cons, Nat.add_assoc]⟩
  · rintro ⟨done, pred, rest, rfl, rfl⟩
    rw [labelsOfInstrs_append]
    exact mem_append_right _ mem_cons_self

/-- The label pass enters the label of a block at the sum of the sizes before it, and those inside
the block after it. -/
theorem mem_labelsOfBlocks {ip : Nat} {label : Label} {position : Nat} :
    (label, position) ∈ labelsOfBlocks blocks ip ↔
      ∃ before b after, blocks = before ++ b :: after ∧
        ((b.label = label ∧ position = ip + (before.map estimateBlockSize).sum) ∨
          (label, position) ∈
            labelsOfInstrs b.instrs (ip + (before.map estimateBlockSize).sum)) := by
  constructor
  · intro member
    induction blocks generalizing ip with
    | nil => cases member
    | cons b blocks ih =>
      simp only [labelsOfBlocks, cons_append, mem_cons, mem_append] at member
      rcases member with here | inside | later
      · cases here
        exact ⟨[], b, blocks, rfl, .inl ⟨rfl, rfl⟩⟩
      · exact ⟨[], b, blocks, rfl, .inr inside⟩
      · obtain ⟨before, b', after, rfl, here⟩ := ih later
        refine ⟨b :: before, b', after, rfl, ?_⟩
        rw [map_cons, sum_cons, ← Nat.add_assoc]
        exact here
  · rintro ⟨before, b, after, rfl, here⟩
    rw [labelsOfBlocks_append]
    refine mem_append_right _ ?_
    simp only [labelsOfBlocks, cons_append, mem_cons, mem_append]
    rcases here with ⟨rfl, rfl⟩ | inside
    · exact .inl rfl
    · exact .inr (.inl inside)

/-- Where labels are distinct, the map has for each label the one offset it was entered with. -/
theorem labelMap_eq_some {inserted : List (Label × Nat)}
    (distinct : (inserted.map Prod.fst).Nodup) {label : Label} {position : Nat} :
    labelMap inserted label = some position ↔ (label, position) ∈ inserted := by
  rw [labelMap, lookup_eq_some_iff]
  constructor
  · rintro ⟨before, after, split, _⟩
    exact mem_reverse.mp (split ▸ mem_append_right before mem_cons_self)
  · intro member
    obtain ⟨before, after, split⟩ := append_of_mem (mem_reverse.mpr member)
    refine ⟨before, after, split, ?_⟩
    intro entry earlier
    rw [← nodup_reverse, ← map_reverse, split, map_append, map_cons,
      nodup_append] at distinct
    have apart := distinct.2.2 entry.1 (mem_map_of_mem earlier) label mem_cons_self
    simpa using Ne.symm apart

/-! ## Places -/

variable {code : List Word}

/-- Every instruction of blocks that are emitted is emitted somewhere. -/
theorem exists_emittedAt (accepted : emit e blocks = .ok code) {b : Block} (isBlock : b ∈ blocks)
    {instr : Instr} (member : instr ∈ b.instrs) :
    ∃ position words, EmittedAt e blocks instr position words := by
  obtain ⟨before, after, rfl⟩ := append_of_mem isBlock
  obtain ⟨done, rest, split⟩ := append_of_mem member
  obtain ⟨encoded, encoded', emitted, block, _⟩ := foldlM_split accepted
  rw [encodeBlock, split] at block
  obtain ⟨here, next, emittedBlock, step, _⟩ := foldlM_split block
  obtain ⟨words, encodes, _⟩ := encodeInstr_ok step
  exact ⟨_, words, .intro rfl split emitted emittedBlock encodes⟩

section

variable (sizes : ∀ b ∈ blocks, ∀ instr ∈ b.instrs, sizeExact instr.op)

include sizes

theorem block_position {before after : List Block} {b : Block} {encoded : List Word}
    (split : blocks = before ++ b :: after) (emitted : emit e before = .ok encoded) :
    encoded.length = 3 + (before.map estimateBlockSize).sum := by
  rw [emit] at emitted
  rw [length_encodeBlocks _ emitted, length_tidSavePrologue]
  intro b' member
  exact sizes b' (split ▸ mem_append_left _ member)

/-- A label of the map is where it is taken to be. -/
theorem labelAt_of_mem (accepted : emit e blocks = .ok code) {label : Label} {position : Nat}
    (entered : (label, position) ∈ labelsOfBlocks blocks 3) : LabelAt e blocks label position := by
  obtain ⟨before, b, after, split, here⟩ := mem_labelsOfBlocks.mp entered
  have all := accepted
  rw [emit, split] at all
  obtain ⟨encoded, encoded', emitted, block, _⟩ := foldlM_split all
  have start := block_position sizes split emitted
  rw [← start] at here
  rcases here with ⟨rfl, rfl⟩ | inside
  · exact .block split emitted
  · obtain ⟨done, pred, rest, splitBlock, rfl⟩ := mem_labelsOfInstrs.mp inside
    rw [encodeBlock, splitBlock] at block
    obtain ⟨here, next, emittedBlock, step, _⟩ := foldlM_split block
    obtain ⟨words, encodes, _⟩ := encodeInstr_ok step
    have sizes' : ∀ instr ∈ done, sizeExact instr.op := by
      intro instr member
      refine sizes b (split ▸ mem_append_right _ mem_cons_self) instr ?_
      exact splitBlock ▸ mem_append_left _ member
    rw [← length_encodeInstrs sizes' emittedBlock]
    exact .nop (.intro split splitBlock emitted emittedBlock encodes)

/-- A label that stands at a place is entered with it. -/
theorem mem_of_labelAt {label : Label} {position : Nat} (at_ : LabelAt e blocks label position) :
    (label, position) ∈ labelsOfBlocks blocks 3 := by
  cases at_ with
  | block split emitted =>
    exact mem_labelsOfBlocks.mpr
      ⟨_, _, _, split, .inl ⟨rfl, block_position sizes split emitted⟩⟩
  | nop at_ =>
    cases at_ with
    | intro split splitBlock emitted emittedBlock accepted =>
      refine mem_labelsOfBlocks.mpr ⟨_, _, _, split, .inr (mem_labelsOfInstrs.mpr ?_)⟩
      refine ⟨_, _, _, splitBlock, ?_⟩
      rw [← block_position sizes split emitted]
      refine length_encodeInstrs ?_ emittedBlock
      intro instr member
      refine sizes _ (split ▸ mem_append_right _ mem_cons_self) instr ?_
      exact splitBlock ▸ mem_append_left _ member

end

end

/-- The words of a branch lead from their place to the offset of its label. -/
theorem branch_words {target : Label} {cond : Src} {e : AmdOpEncoder} {words : List Word}
    (accepted : encodeAmdOp (.bra target cond) e = .ok words) :
    ∃ word targetIp, words = [word] ∧ e.labels target = some targetIp ∧
      branchDestination e.ip word = targetIp := by
  obtain ⟨emitted, encoded, made⟩ := encodeAmdOp_ok.mp accepted
  obtain ⟨targetIp, opcode, label, low, high, rfl⟩ := encodeBra_ok encoded
  rw [patch_sopp, ite_self] at made
  refine ⟨_, targetIp, made, label, ?_⟩
  rw [branchDestination_sopp e.ip opcode _ low high _ rfl]
  omega

/-- In an accepted function whose labels are distinct, instructions have the sizes taken for them,
labels are where their blocks begin and branches lead there, exactly when every instruction has
operands of the shapes of `sizeExact`. -/
theorem encodeRdna2Shader_branchesRight_iff {gfxVersion : Nat} {s : Shader} {blocks : List Block}
    {rest : List (List Block)} {code : List Word} (first : s.functions = blocks :: rest)
    (distinct : ((labelsOfBlocks blocks 3).map Prod.fst).Nodup)
    (accepted : encodeRdna2Shader gfxVersion s = .ok code) :
    BranchesRight (shaderEncoder gfxVersion s blocks) blocks ↔
      ∀ b ∈ blocks, ∀ instr ∈ b.instrs, sizeExact instr.op := by
  rw [encodeRdna2Shader, first] at accepted
  obtain ⟨encoded, emitted, _⟩ := bind_eq_ok.mp accepted
  constructor
  · intro right b isBlock instr member
    obtain ⟨position, words, at_⟩ := exists_emittedAt emitted isBlock member
    have size := right.sizes instr position words at_
    cases at_ with
    | intro _ _ _ _ encodes => exact (length_encodeAmdOp_iff encodes).mp size
  · intro sizes
    refine ⟨?_, ?_, ?_⟩
    · intro instr position words at_
      cases at_ with
      | intro split splitBlock _ _ encodes =>
        refine (length_encodeAmdOp_iff encodes).mpr ?_
        refine sizes _ (split ▸ List.mem_append_right _ List.mem_cons_self) instr ?_
        exact splitBlock ▸ List.mem_append_right _ List.mem_cons_self
    · intro label position at_
      exact (labelMap_eq_some distinct).mpr (mem_of_labelAt sizes at_)
    · intro pred target cond position words at_
      cases at_ with
      | intro _ _ _ _ encodes =>
        obtain ⟨word, targetIp, made, label, leads⟩ := branch_words encodes
        refine ⟨word, targetIp, made, ?_, leads⟩
        exact labelAt_of_mem sizes emitted ((labelMap_eq_some distinct).mp label)

/-- All words but the last stay in their places at the end, and no word is lost. -/
theorem finish_keeps {encoded : List Word} {i : Nat} (inside : i + 1 < encoded.length) :
    (finish encoded)[i]? = encoded[i]? := by
  rw [finish]
  split
  · rw [append_assoc, List.getElem?_append_left (by omega)]
  · dsimp only
    split
    · rw [append_assoc, List.getElem?_append_left (by rw [length_dropLast]; omega),
        List.getElem?_dropLast, if_pos (by omega)]
    · rfl

/-- A branch over the move of a value to a register. -/
def branchOverMove (value : Nat) : List Block :=
  let cond : Src := ⟨.reg ⟨.pred, 0, 1, Nat.zero_le _, RegRef.single⟩, .bNot, .none⟩
  let dst : Dst := .reg ⟨.gpr, 0, 1, Nat.zero_le _, RegRef.single⟩
  [⟨⟨0⟩, [{ op := .bra ⟨2⟩ cond }]⟩, ⟨⟨1⟩, [{ op := .mov dst { reference := .imm32 value } }]⟩,
    ⟨⟨2⟩, [{ op := .exit }]⟩]

theorem encodeRdna2Shader_branchesRight_iff_inline :
    BranchesRight (shaderEncoder 103 ⟨[branchOverMove 1], 1⟩ (branchOverMove 1))
      (branchOverMove 1) :=
  have accepted : encodeRdna2Shader 103 ⟨[branchOverMove 1], 1⟩ = .ok [0x7E020300, 0x7E040301,
    0x7E060302, 0xBF860001, 0x7E000281, 0xBF8C0000, 0xBF810000] := by decide
  (encodeRdna2Shader_branchesRight_iff rfl (by decide) accepted).mpr (by decide)

/-- The literal of a move is not counted: a branch over it leads to the literal. -/
theorem branch_into_literal :
    let blocks := branchOverMove 0x3F800000
    let e := shaderEncoder 103 ⟨[blocks], 1⟩ blocks
    encodeRdna2Shader 103 ⟨[blocks], 1⟩ = .ok [0x7E020300, 0x7E040301, 0x7E060302, 0xBF860001,
      0x7E0002FF, 0x3F800000, 0xBF8C0000, 0xBF810000] ∧
    (∃ instr, EmittedAt e blocks instr 3 [0xBF860001] ∧
      ∃ cond, instr.op = .bra ⟨2⟩ cond ∧ branchDestination 3 0xBF860001 = 5) ∧
    LabelAt e blocks ⟨2⟩ 6 ∧ ¬ BranchesRight e blocks := by
  intro blocks e
  have before : emit e (blocks.take 2) = .ok [0x7E020300, 0x7E040301, 0x7E060302, 0xBF860001,
      0x7E0002FF, 0x3F800000] := by decide
  have label : LabelAt e blocks ⟨2⟩ 6 :=
    .block (rfl : blocks = blocks.take 2 ++ ⟨⟨2⟩, [{ op := .exit }]⟩ :: []) before
  have start : emit e [] = .ok (tidSavePrologue 1) := rfl
  have startBlock : [].foldlM (encodeInstr e) (tidSavePrologue 1) = .ok (tidSavePrologue 1) := rfl
  have branch : EmittedAt e blocks (branchOverMove 0)[0].instrs[0] 3 [0xBF860001] :=
    .intro (rfl : blocks = [] ++ blocks) (rfl : _ = [] ++ [_]) start startBlock
      (by decide)
  refine ⟨by decide, ⟨_, branch, _, rfl, by decide⟩, label, ?_⟩
  intro right
  have entered := right.labels ⟨2⟩ 6 label
  exact absurd entered (by decide)

end CoralReef.Amd
