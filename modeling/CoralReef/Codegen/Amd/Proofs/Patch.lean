import CoralReef.Codegen.Amd.Spec
import CoralReef.Codegen.Amd.Proofs.Sizes

/-!
# The patch for GFX9

Word by word: which words the patch turns into what they should become. The first words of VOP3
instructions and compares are always found; the others are to be left alone, and are, unless their
bits look like such a first word. From that, instruction by instruction, when the whole patch is
right.
-/

namespace CoralReef.Amd

open BitFields Isa

variable {word : Word}

/-! ## Words -/

/-- Both patches of one word. -/
def patchWord (word : Word) : Word := patchVopcWord (patchVop3Word word)

theorem patchForGfx9_eq (words : List Word) : patchForGfx9 words = words.map patchWord := by
  rw [patchForGfx9, List.map_map]
  rfl

/-- The opcode that the patch gives a VOP3 instruction. -/
def vop3Patched (op : Nat) : Nat :=
  if op ≥ 320 then vop3OnlyOpcodeForGfx9 op else if op < 256 then vopcOpcodeForGfx9 op else op

/-- A word whose top bits are those of VOP3 does not have those of a compare, before the patch and
after it. -/
theorem vopc_top {high : Nat} (top : getField word 26 6 = high) :
    getField word 25 7 = getField word 25 1 + 2 * high := by
  rw [← top]
  exact getField_append word 25 1 6

theorem patchWord_vop3 (top : getField word 26 6 = 0b110101) :
    patchWord word =
      setField (setField word 26 6 0b110100) 16 10 (vop3Patched (getField word 16 10)) := by
  have patched : patchVop3Word word =
      setField (setField word 26 6 0b110100) 16 10 (vop3Patched (getField word 16 10)) := by
    rw [patchVop3Word, if_pos top]
    rfl
  have top' : getField (setField (setField word 26 6 0b110100) 16 10
      (vop3Patched (getField word 16 10))) 26 6 = 0b110100 := by
    simp (disch := decide) only [getField_setField_disjoint, getField_setField_same, Nat.reducePow,
      Nat.reduceMod]
  rw [patchWord, patched, patchVopcWord, if_neg]
  rw [vopc_top top']
  omega

theorem patchWord_vopc (top : getField word 25 7 = 0b0111110) :
    patchWord word = setField word 17 8 (vopcOpcodeForGfx9 (getField word 17 8)) := by
  have notVop3 : getField word 26 6 ≠ 0b110101 := by
    intro vop3
    rw [vopc_top vop3] at top
    omega
  rw [patchWord, patchVop3Word, if_neg notVop3, patchVopcWord, if_pos top]

theorem vopcOpcodeForGfx9_eq_self_iff {op : Nat} :
    vopcOpcodeForGfx9 op = op ↔ vopcRemapped op = false := by
  simp only [vopcOpcodeForGfx9, vopcRemapped]
  split
  · simp [*]
  split
  · simp [*]
  split <;> simp [*]

theorem vopcOpcodeForGfx9_lt {op : Nat} (small : op < 256) : vopcOpcodeForGfx9 op < 256 := by
  simp only [vopcOpcodeForGfx9]
  split
  · omega
  split
  · omega
  split <;> omega

/-- The patch leaves exactly the words that do not look like those it is for. -/
theorem patchWord_eq_self_iff (word : Word) :
    patchWord word = word ↔ looksPatchable word = false := by
  by_cases vop3 : getField word 26 6 = 0b110101
  · rw [patchWord_vop3 vop3]
    simp only [looksPatchable, vop3, true_or, decide_true, Bool.true_eq_false, iff_false]
    intro same
    rw [← same] at vop3
    simp (disch := decide) only [getField_setField_disjoint, getField_setField_same] at vop3
    exact absurd vop3 (by decide)
  by_cases vopc : getField word 25 7 = 0b0111110
  · rw [patchWord_vopc vopc]
    simp only [looksPatchable, vop3, vopc, true_and, false_or]
    rw [Bool.decide_eq_true, ← vopcOpcodeForGfx9_eq_self_iff]
    have below : getField word 17 8 < 256 := getField_lt word 17 8
    have fits : vopcOpcodeForGfx9 (getField word 17 8) < 2 ^ 8 := vopcOpcodeForGfx9_lt below
    rw [setField_eq_self_iff (by decide), Nat.mod_eq_of_lt fits]
  · rw [patchWord, patchVop3Word, if_neg vop3, patchVopcWord, if_neg vopc]
    simp [looksPatchable, vop3, vopc]

/-! ## Emitted words -/

/-- The patch makes of these words what they should become. -/
def PatchedRight (emitted : List Emitted) : Prop := ∀ em ∈ emitted, patchWord em.word = gfx9Word em

theorem patchedRight_iff (emitted : List Emitted) :
    PatchedRight emitted ↔ patchForGfx9 (emitted.map Emitted.word) = emitted.map gfx9Word := by
  rw [patchForGfx9_eq, List.map_map, List.map_inj_left]
  rfl

@[simp] theorem patchedRight_append (first second : List Emitted) :
    PatchedRight (first ++ second) ↔ PatchedRight first ∧ PatchedRight second :=
  List.forall_mem_append

theorem patchedRight_nil : PatchedRight [] := fun _ never => absurd never List.not_mem_nil

/-- A word that should stay, and does not look like one to patch, stays. -/
theorem patchedRight_head (kept : looksPatchable word = false) :
    PatchedRight [⟨.head, word⟩] := by
  intro em member
  rw [List.mem_singleton.mp member]
  exact (patchWord_eq_self_iff word).mpr kept

theorem kept_of_top {top : Nat} (isTop : getField word 25 7 = top)
    (other : top / 2 ≠ 0b110101 ∧ top ≠ 0b0111110) : looksPatchable word = false := by
  have whole : getField word 25 7 = getField word 25 1 + 2 * getField word 26 6 := vopc_top rfl
  have low := getField_lt word 25 1
  simp only [looksPatchable, decide_eq_false_iff_not, not_or, not_and]
  exact ⟨by omega, fun vopc => absurd vopc (by omega)⟩

@[simp] theorem patchedRight_sopp (opcode simm16 : Nat) :
    PatchedRight (encodeSopp opcode simm16) := by
  refine patchedRight_head (kept_of_top ?_ (by decide : 95 / 2 ≠ 0b110101 ∧ _))
  simp (disch := decide) only [getField_setField_disjoint, getField_setField_inside,
    Nat.reduceSub, Nat.reducePow, Nat.reduceDiv, Nat.reduceMod]

@[simp] theorem patchedRight_sop1 (opcode : Nat) (dst src0 : RegRef) :
    PatchedRight (encodeSop1 opcode dst src0) := by
  refine patchedRight_head (kept_of_top ?_ (by decide : 95 / 2 ≠ 0b110101 ∧ _))
  simp (disch := decide) only [getField_setField_disjoint, getField_setField_inside,
    Nat.reduceSub, Nat.reducePow, Nat.reduceDiv, Nat.reduceMod]

@[simp] theorem patchedRight_sop2 (opcode : Nat) (dst src0 src1 : RegRef) :
    PatchedRight (encodeSop2 opcode dst src0 src1) := by
  refine patchedRight_head (kept_of_top (getField_append _ 25 5 2) ?_)
  simp (disch := decide) only [getField_setField_disjoint, getField_setField_same,
    getField_setField_inside]
  omega

@[simp] theorem patchedRight_vop1 (opcode : Nat) (dst : RegRef) (src0 : Nat) :
    PatchedRight (encodeVop1 opcode dst src0) := by
  refine patchedRight_head (kept_of_top ?_ (by decide : 63 / 2 ≠ 0b110101 ∧ _))
  simp (disch := decide) only [getField_setField_disjoint, getField_setField_same, Nat.reducePow,
    Nat.reduceMod]

@[simp] theorem patchedRight_vop2 {opcode : Nat} (low : opcode < 62) (dst : RegRef) (src0 : Nat)
    (vsrc1 : RegRef) : PatchedRight (encodeVop2 opcode dst src0 vsrc1) := by
  refine patchedRight_head (kept_of_top (getField_append _ 25 6 1) ?_)
  simp (disch := decide) only [getField_setField_disjoint, getField_setField_same, getField_zero]
  omega

@[simp] theorem patchedRight_literal (enc : SrcEncoding) : PatchedRight enc.literalWords ↔
    ∀ value, enc.literal = some value → looksPatchable (BitVec.ofNat 32 value) = false := by
  rcases enc with ⟨src0, _ | value⟩
  · simp [SrcEncoding.literalWords, PatchedRight]
  · simp [SrcEncoding.literalWords, PatchedRight, gfx9Word, patchWord_eq_self_iff]

/-- A compare becomes what it should when the patch knows its opcode. -/
theorem patchedRight_vopc {opcode : Nat}
    (known : vopcOpcodeForGfx9 (opcode % 256) % 256 = gfx9Opcode opcode % 256)
    (src0 vsrc1 : Nat) : PatchedRight (encodeVopc opcode src0 vsrc1) := by
  intro em member
  rw [List.mem_singleton.mp member, patchWord_vopc]
  · rw [gfx9Word, setField_inj (by decide)]
    simp (disch := decide) only [getField_setField_disjoint, getField_setField_same]
    exact known
  · simp (disch := decide) only [getField_setField_disjoint, getField_setField_same, Nat.reducePow,
      Nat.reduceMod]

/-- A word in which a bit is not set that both kinds of first word have. -/
theorem kept_of_bit (unset : getField word 28 1 = 0) :
    looksPatchable word = false := by
  have three := getField_lt word 25 3
  have parts := getField_append word 28 1 3
  refine kept_of_top (getField_append word 25 3 4) ?_
  rw [parts, unset]
  omega

theorem patchedRight_pair (head second : Emitted) : PatchedRight [head, second] ↔
    patchWord head.word = gfx9Word head ∧ patchWord second.word = gfx9Word second := by
  simp [PatchedRight]

/-- The patch gives a VOP3 instruction the opcode that GFX9 has for its operation. -/
def vop3Known (op opcode : Nat) : Prop :=
  vop3Patched (opcode % 1024) % 1024 = gfx9Opcode op % 1024

instance (op opcode : Nat) : Decidable (vop3Known op opcode) :=
  inferInstanceAs (Decidable (_ = _))

/-- The first word of a VOP3 instruction becomes what it should exactly when the patch knows its
opcode; the second one stays. -/
theorem patchedRight_vop3Mod (op opcode : Nat) (dst : RegRef) (src0 src1 src2 : Nat)
    (neg abs : Fin 3 → Bool) :
    PatchedRight (encodeVop3Mod op opcode dst src0 src1 src2 neg abs) ↔
      vop3Known op opcode := by
  rw [encodeVop3Mod, patchedRight_pair, and_iff_left, vop3Known]
  · rw [patchWord_vop3, gfx9Word, setField_inj (by decide)]
    · simp (disch := decide) only [getField_setField_disjoint, getField_setField_same,
        Nat.reducePow]
    · simp (disch := decide) only [getField_setField_disjoint, getField_setField_same,
        Nat.reducePow, Nat.reduceMod]
  · refine (patchWord_eq_self_iff _).mpr (kept_of_bit ?_)
    simp (disch := decide) only [getField_setField_disjoint, getField_zero]

@[simp] theorem patchedRight_vop3 (op opcode : Nat) (dst : RegRef) (src0 src1 src2 : Nat) :
    PatchedRight (encodeVop3 op opcode dst src0 src1 src2) ↔ vop3Known op opcode :=
  patchedRight_vop3Mod op opcode dst src0 src1 src2 _ _

/-- The top bits of the second word of a memory instruction are the destination, those below them
the `NULL` of the address. -/
@[simp] theorem patchedRight_flat (opcode addrVgpr dataVgpr dstVgpr : Nat) (glc : Bool)
    (offset : Int) :
    PatchedRight (encodeFlat opcode addrVgpr dataVgpr dstVgpr glc offset) ↔
      dstVgpr % 256 ≠ 124 ∧ (dstVgpr % 256 < 212 ∨ 215 < dstVgpr % 256) := by
  rw [encodeFlat, patchedRight_pair, and_iff_right]
  · rw [gfx9Word, patchWord_eq_self_iff, looksPatchable]
    have op := getField_append (setField (setField (setField (setField (0 : Word) 0 8 addrVgpr) 8 8
      dataVgpr) 16 7 0x7F) 24 8 dstVgpr) 17 7 1
    have op' := getField_append (setField (setField (setField (setField (0 : Word) 0 8 addrVgpr) 8 8
      dataVgpr) 16 7 0x7F) 24 8 dstVgpr) 17 6 1
    simp (disch := decide) only [getField_setField_disjoint, getField_setField_inside,
      getField_zero] at op op'
    rw [op, op']
    simp (disch := decide) only [getField_setField_inside, vopcRemapped,
      decide_eq_false_iff_not, decide_eq_true_eq]
    omega
  · refine (patchWord_eq_self_iff _).mpr (kept_of_top (getField_append _ 25 1 6) ?_)
    simp (disch := decide) only [getField_setField_disjoint, getField_setField_same]
    omega

/-! ## Operands -/

/-- The literal of a source that is encoded stays exactly when it looks like no word to patch. -/
theorem patchedRight_src {src : Src} {enc : SrcEncoding} (encoded : srcToEncoding src = .ok enc) :
    PatchedRight enc.literalWords ↔ literalKept src := by
  rw [patchedRight_literal]
  rcases src with ⟨reference, modifier, swizzle⟩
  cases reference with
  | imm32 val =>
    simp only [srcToEncoding, Except.ok.injEq] at encoded
    subst encoded
    simp only [imm32ToSrcEncoding, literalKept]
    split
    · simp [*]
    · split <;> simp [*]
  | zero | boolTrue | boolFalse =>
    cases encoded
    simp [literalKept]
  | ssa vec => cases encoded
  | cbuf cb =>
    simp only [srcToEncoding, bind_eq_ok] at encoded
    obtain ⟨index, _, made⟩ := encoded
    cases made
    simp [literalKept]
  | reg reg =>
    simp only [srcToEncoding, bind_eq_ok] at encoded
    obtain ⟨index, _, made⟩ := encoded
    split at made <;> cases made <;> simp [literalKept]

theorem literalKept_of_namesRegister {src : Src} (names : namesRegister src) : literalKept src := by
  rcases src with ⟨reference, modifier, swizzle⟩
  cases reference <;> simp_all [namesRegister, literalKept]

theorem patchedRight_materialize (scratch : Nat) (enc : SrcEncoding) :
    PatchedRight (materializeIfLiteral scratch enc).1 ↔ PatchedRight enc.literalWords := by
  rcases enc with ⟨src0, _ | value⟩
  · exact Iff.rfl
  · simp [materializeIfLiteral]

theorem patchedRight_materializeF64 (scratch : Nat) (enc : SrcEncoding) :
    PatchedRight (materializeF64IfLiteral scratch enc).1 ↔ PatchedRight enc.literalWords := by
  rcases enc with ⟨src0, _ | value⟩
  · exact Iff.rfl
  · simp [materializeF64IfLiteral]

theorem patchedRight_materializeNext
    {materialize : Nat → SrcEncoding → List Emitted × SrcEncoding}
    (keeps : ∀ scratch enc,
      PatchedRight (materialize scratch enc).1 ↔ PatchedRight enc.literalWords)
    (e : AmdOpEncoder) (scratch : Nat) (enc : SrcEncoding) :
    PatchedRight (materializeNext materialize e scratch enc).1.1 ↔
      PatchedRight enc.literalWords := by
  unfold materializeNext
  split
  · exact keeps scratch enc
  · rcases enc with ⟨src0, _ | value⟩ <;> simp_all [SrcEncoding.literalWords]

/-! ## Encoders -/

section

variable {dst : Dst} {src src0 src1 src2 : Src} {e : AmdOpEncoder} {emitted : List Emitted}
variable {opcode : Nat}

theorem patchedRight_encodeVop1FromSrc (accepted : encodeVop1FromSrc opcode dst src = .ok emitted) :
    PatchedRight emitted ↔ literalKept src := by
  simp only [encodeVop1FromSrc, bind_eq_ok] at accepted
  obtain ⟨dstReg, _, srcEnc, encoded, made⟩ := accepted
  cases made
  rw [patchedRight_append, patchedRight_src encoded, and_iff_right (patchedRight_vop1 _ _ _)]

theorem patchedRight_encodeVop3FromSrc
    {materialize : Nat → SrcEncoding → List Emitted × SrcEncoding} (keeps : ∀ scratch enc,
      PatchedRight (materialize scratch enc).1 ↔ PatchedRight enc.literalWords)
    (known : vop3Known opcode opcode)
    (accepted : encodeVop3FromSrc materialize opcode dst src e = .ok emitted) :
    PatchedRight emitted ↔ literalKept src := by
  simp only [encodeVop3FromSrc, bind_eq_ok] at accepted
  obtain ⟨dstReg, _, srcEnc, encoded, made⟩ := accepted
  cases made
  rw [patchedRight_append, keeps, patchedRight_src encoded, patchedRight_vop3,
    and_iff_left known]

theorem patchedRight_encodeF64ViaF32 (accepted : encodeF64ViaF32 opcode dst src e = .ok emitted) :
    PatchedRight emitted ↔ literalKept src := by
  simp only [encodeF64ViaF32, bind_eq_ok] at accepted
  obtain ⟨dstReg, _, srcEnc, encoded, made⟩ := accepted
  cases made
  simp only [patchedRight_append, patchedRight_vop1, and_true, patchedRight_materialize]
  exact patchedRight_src encoded

theorem patchedRight_encodeVop3FromSrcsInner {f64Mode : Bool} (known : vop3Known opcode opcode)
    (accepted : encodeVop3FromSrcsInner opcode dst src0 src1 src2 e f64Mode = .ok emitted) :
    PatchedRight emitted ↔ literalKept src0 && literalKept src1 && literalKept src2 := by
  simp only [encodeVop3FromSrcsInner, bind_eq_ok] at accepted
  obtain ⟨dstReg, _, enc0, encoded0, enc1, encoded1, enc2, encoded2, accepted⟩ := accepted
  have keeps : ∀ scratch enc, PatchedRight ((if f64Mode then materializeF64IfLiteral
      else materializeIfLiteral) scratch enc).1 ↔ PatchedRight enc.literalWords := by
    cases f64Mode
    · exact patchedRight_materialize
    · exact patchedRight_materializeF64
  split at accepted
  · cases accepted
  · split at accepted
    · cases accepted
    · cases accepted
      rw [patchedRight_append, patchedRight_append, patchedRight_append,
        patchedRight_materializeNext keeps, patchedRight_materializeNext keeps,
        patchedRight_materializeNext keeps, patchedRight_vop3Mod, and_iff_left known,
        patchedRight_src encoded0, patchedRight_src encoded1, patchedRight_src encoded2,
        Bool.and_eq_true, Bool.and_eq_true]

/-- The VOP2 opcodes that encoders name have one on GFX9, also in VOP3. -/
def vop2Known (opcode : Nat) : Prop :=
  (vop2ForGfx9.lookup opcode).getD opcode < 62 ∧
    vop3Known (opcode + 256) ((vop2ForGfx9.lookup opcode).getD opcode + 256)

instance (opcode : Nat) : Decidable (vop2Known opcode) := inferInstanceAs (Decidable (_ ∧ _))

theorem patchedRight_encodeVop2FromSrcs (gfx9 : e.gfxMajor < 10) (known : vop2Known opcode)
    (accepted : encodeVop2FromSrcs opcode dst src0 src1 e = .ok emitted) :
    PatchedRight emitted ↔ literalKept src0 && literalKept src1 := by
  have hwOp : vop2OpcodeForGfx opcode e.gfxMajor = (vop2ForGfx9.lookup opcode).getD opcode := by
    rw [vop2OpcodeForGfx, if_neg (by omega)]
  simp only [encodeVop2FromSrcs, bind_eq_ok, hwOp] at accepted
  obtain ⟨dstReg, _, accepted⟩ := accepted
  cases second : srcToVgprIndex src1 with
  | ok src1Idx =>
    simp only [second, bind_eq_ok] at accepted
    obtain ⟨src0Enc, encoded, made⟩ := accepted
    cases made
    rw [patchedRight_append, and_iff_right (patchedRight_vop2 known.1 _ _ _),
      patchedRight_src encoded, literalKept_of_namesRegister (namesRegister_of_ok second),
      Bool.and_true]
  | error fault =>
    cases first : srcToVgprIndex src0 with
    | ok src0Idx =>
      simp only [second, first, bind_eq_ok] at accepted
      obtain ⟨src1Enc, encoded, made⟩ := accepted
      cases made
      rw [patchedRight_append, and_iff_right (patchedRight_vop2 known.1 _ _ _),
        patchedRight_src encoded, literalKept_of_namesRegister (namesRegister_of_ok first),
        Bool.true_and]
    | error fault' =>
      simp only [second, first, bind_eq_ok] at accepted
      obtain ⟨src0Enc, encoded0, src1Enc, encoded1, made⟩ := accepted
      cases made
      rw [patchedRight_append, patchedRight_append, patchedRight_materialize,
        patchedRight_materialize, patchedRight_src encoded0, patchedRight_src encoded1,
        patchedRight_vop3, and_iff_left known.2, Bool.and_eq_true]

theorem patchedRight_encodeVop2Unswapped (gfx9 : e.gfxMajor < 10)
    (known : (vop2ForGfx9.lookup opcode).getD opcode < 62)
    (accepted : encodeVop2Unswapped opcode dst src0 src1 e = .ok emitted) :
    PatchedRight emitted ↔ literalKept src0 && literalKept src1 := by
  have hwOp : e.vop2 opcode = (vop2ForGfx9.lookup opcode).getD opcode := by
    rw [AmdOpEncoder.vop2, vop2OpcodeForGfx, if_neg (by omega)]
  simp only [encodeVop2Unswapped, bind_eq_ok, hwOp] at accepted
  obtain ⟨dstReg, _, src0Enc, encoded0, accepted⟩ := accepted
  cases second : srcToVgprIndex src1 with
  | ok src1Idx =>
    simp only [second] at accepted
    cases accepted
    rw [patchedRight_append, and_iff_right (patchedRight_vop2 known _ _ _),
      patchedRight_src encoded0, literalKept_of_namesRegister (namesRegister_of_ok second),
      Bool.and_true]
  | error fault =>
    simp only [second, bind_eq_ok] at accepted
    obtain ⟨src1Enc, encoded1, made⟩ := accepted
    cases made
    rw [patchedRight_append, patchedRight_append, patchedRight_materialize,
      patchedRight_materialize, patchedRight_src encoded0, patchedRight_src encoded1,
      and_iff_left (patchedRight_vop2 known _ _ _), Bool.and_eq_true, and_comm]

/-- A compare whose second operand is no register is made VOP3 with the opcode of GFX9, and then
patched as if it had that of RDNA2. -/
theorem patchedRight_encodeVopcLegalized (gfx9 : e.gfxMajor < 10)
    (known : vopcOpcodeForGfx9 (opcode % 256) % 256 = gfx9Opcode opcode % 256)
    (accepted : encodeVopcLegalized opcode src0 src1 e = .ok emitted) :
    PatchedRight emitted ↔ (literalKept src0 && literalKept src1) ∧
      (namesRegister src1 ∨ vop3Known opcode (vopcOpcodeForGfx9 opcode)) := by
  simp only [encodeVopcLegalized, bind_eq_ok] at accepted
  obtain ⟨src0Enc, encoded0, accepted⟩ := accepted
  cases second : srcToVgprIndex src1 with
  | ok src1Idx =>
    simp only [second] at accepted
    cases accepted
    have names := namesRegister_of_ok second
    rw [patchedRight_append, and_iff_right (patchedRight_vopc known _ _),
      patchedRight_src encoded0, literalKept_of_namesRegister names, Bool.and_true,
      and_iff_left (.inl names)]
  | error fault =>
    simp only [second, bind_eq_ok, if_pos gfx9] at accepted
    obtain ⟨src1Enc, encoded1, made⟩ := accepted
    cases made
    rw [patchedRight_append, patchedRight_append, patchedRight_materialize,
      patchedRight_materialize, patchedRight_src encoded0, patchedRight_src encoded1,
      patchedRight_vop3, not_namesRegister encoded1 second, Bool.and_eq_true,
      or_iff_right Bool.false_ne_true]

end

/-! ## Instructions -/

/-- The opcodes of integer compares on GFX9 are opcodes of other compares on RDNA2. -/
theorem not_vop3Known_intCmp (cmp : IntCmpOp) (cmpType : IntCmpType) :
    ¬ vop3Known (intCmpToVopc cmp cmpType) (vopcOpcodeForGfx9 (intCmpToVopc cmp cmpType)) := by
  cases cmpType <;> cases cmp <;> decide

theorem vopcKnown_intCmp (cmp : IntCmpOp) (cmpType : IntCmpType) :
    vopcOpcodeForGfx9 (intCmpToVopc cmp cmpType % 256) % 256 =
      gfx9Opcode (intCmpToVopc cmp cmpType) % 256 := by
  cases cmpType <;> cases cmp <;> decide

theorem vop3Known_floatCmp (cmp : FloatCmpOp) :
    vop3Known (floatCmpToVopcF32 cmp) (vopcOpcodeForGfx9 (floatCmpToVopcF32 cmp)) := by
  cases cmp <;> decide

theorem vopcKnown_floatCmp (cmp : FloatCmpOp) :
    vopcOpcodeForGfx9 (floatCmpToVopcF32 cmp % 256) % 256 =
      gfx9Opcode (floatCmpToVopcF32 cmp) % 256 := by
  cases cmp <;> decide

theorem vop3Known_doubleCmp (cmp : FloatCmpOp) :
    vop3Known (floatCmpToVop3F64 cmp) (floatCmpToVop3F64 cmp) := by
  cases cmp <;> decide

section

variable {e : AmdOpEncoder} {emitted : List Emitted}
variable {dst : Dst} {src : Src}

theorem patchedRight_iAdd3 (gfx9 : e.gfxMajor < 10) {op : OpIAdd3}
    (accepted : encodeIAdd3 op e = .ok emitted) :
    PatchedRight emitted ↔ patchExact (.iAdd3 op) := by
  simp only [encodeIAdd3] at accepted
  split at accepted
  · exact patchedRight_encodeVop2FromSrcs gfx9 (by decide) accepted
  split at accepted
  · rw [patchedRight_encodeVop2FromSrcs gfx9 (by decide) accepted, Bool.and_comm]
    exact Iff.rfl
  · exact patchedRight_encodeVop2FromSrcs gfx9 (by decide) accepted

theorem patchedRight_lop2 (gfx9 : e.gfxMajor < 10) {srcs : Fin 2 → Src} {op : LogicOp2}
    (accepted : encodeLop2 dst srcs op e = .ok emitted) :
    PatchedRight emitted ↔ patchExact (.lop2 dst srcs op) := by
  cases op with
  | and | or | xor => exact patchedRight_encodeVop2FromSrcs gfx9 (by decide) accepted
  | passB => exact patchedRight_encodeVop1FromSrc accepted

theorem patchedRight_lop3 (gfx9 : e.gfxMajor < 10) {op : OpLop3}
    (accepted : encodeLop3 op e = .ok emitted) :
    PatchedRight emitted ↔ patchExact (.lop3 op) := by
  simp only [encodeLop3] at accepted
  rw [patchExact]
  split at accepted
  case isTrue table =>
    rw [patchedRight_encodeVop2FromSrcs gfx9 (by decide) accepted]
    simp [table]
  split at accepted
  case isTrue table =>
    rw [patchedRight_encodeVop2FromSrcs gfx9 (by decide) accepted]
    simp [table]
  split at accepted
  case isTrue table =>
    rw [patchedRight_encodeVop2FromSrcs gfx9 (by decide) accepted]
    simp [table]
  case isFalse noAnd noOr noXor =>
    rw [decide_eq_false noAnd, decide_eq_false noOr, decide_eq_false noXor, Bool.or_false,
      Bool.or_false, Bool.or_false]
    split at accepted
    · exact patchedRight_encodeVop3FromSrcsInner (by decide) accepted
    · exact patchedRight_encodeVop3FromSrcsInner (by decide) accepted

theorem patchedRight_transcendental {op : TranscendentalOp}
    (accepted : encodeTranscendental dst op src e = .ok emitted) :
    PatchedRight emitted ↔ literalKept src := by
  cases op with
  | rcp64H | rsq64H =>
    exact patchedRight_encodeVop3FromSrc patchedRight_materializeF64 (by decide) accepted
  | tanh =>
    simp only [encodeTranscendental, bind_eq_ok] at accepted
    obtain ⟨_, _, _, _, made⟩ := accepted
    cases made
  | _ => exact patchedRight_encodeVop1FromSrc accepted

theorem patchedRight_fRnd {dstType srcType : FloatType} {rndMode : FRndMode}
    (accepted : encodeFRnd dst src dstType srcType rndMode e = .ok emitted) :
    PatchedRight emitted ↔ literalKept src := by
  simp only [encodeFRnd] at accepted
  split at accepted
  · refine patchedRight_encodeVop3FromSrc patchedRight_materialize ?_ accepted
    cases rndMode <;> decide
  · exact patchedRight_encodeVop1FromSrc accepted

theorem patchedRight_dSetP {cmpOp : FloatCmpOp} {srcs : Fin 2 → Src}
    (accepted : encodeDSetP cmpOp srcs e = .ok emitted) :
    PatchedRight emitted ↔ literalKept (srcs 0) && literalKept (srcs 1) := by
  simp only [encodeDSetP, bind_eq_ok] at accepted
  obtain ⟨enc0, encoded0, enc1, encoded1, made⟩ := accepted
  cases made
  rw [patchedRight_append, patchedRight_append,
    patchedRight_materializeNext patchedRight_materialize,
    patchedRight_materializeNext patchedRight_materialize, patchedRight_src encoded0,
    patchedRight_src encoded1, patchedRight_vop3, and_iff_left (vop3Known_doubleCmp cmpOp),
    Bool.and_eq_true]

/-- GFX9 counts bits by another opcode, which the patch does not know. -/
theorem not_patchedRight_popC (accepted : encodePopC dst src e = .ok emitted) :
    ¬ PatchedRight emitted := by
  simp only [encodePopC, bind_eq_ok] at accepted
  obtain ⟨dstReg, _, srcEnc, encoded, made⟩ := accepted
  cases made
  rw [patchedRight_append, patchedRight_vop3]
  exact fun right => absurd right.2 (by decide)

theorem patchedRight_bRev (accepted : encodeBRev dst src e = .ok emitted) :
    PatchedRight emitted ↔ literalKept src := by
  simp only [encodeBRev, bind_eq_ok] at accepted
  obtain ⟨dstReg, _, srcEnc, encoded, made⟩ := accepted
  cases made
  rw [literalWords_materializeIfLiteral, List.append_nil, patchedRight_append,
    patchedRight_materialize, patchedRight_src encoded, and_iff_left (patchedRight_vop1 _ _ _)]

theorem patchedRight_flo (gfx9 : e.gfxMajor < 10) {signed returnShiftAmount : Bool}
    (accepted : encodeFlo dst src signed returnShiftAmount e = .ok emitted) :
    PatchedRight emitted ↔ literalKept src := by
  have sub : e.vop2 vSubNcU32 < 62 := by
    rw [AmdOpEncoder.vop2, vop2OpcodeForGfx, if_neg (by omega)]
    decide
  have cndmask : e.vop2 vCndmaskB32 < 62 := by
    rw [AmdOpEncoder.vop2, vop2OpcodeForGfx, if_neg (by omega)]
    decide
  simp only [encodeFlo, bind_eq_ok] at accepted
  obtain ⟨dstReg, _, srcEnc, encoded, accepted⟩ := accepted
  cases returnShiftAmount with
  | true =>
    cases accepted
    rw [literalWords_materializeIfLiteral, List.append_nil, patchedRight_append,
      patchedRight_materialize, patchedRight_src encoded, and_iff_left (patchedRight_vop1 _ _ _)]
  | false =>
    cases accepted
    have compare : PatchedRight (encodeVopc vCmpNeU32 193 e.scratchVgpr1) :=
      patchedRight_vopc (by decide) _ _
    simp only [literalWords_materializeIfLiteral, List.append_nil, patchedRight_append,
      patchedRight_materialize, patchedRight_vop1, patchedRight_vop2 sub,
      patchedRight_vop2 cndmask, compare, and_true]
    exact patchedRight_src encoded

theorem dstToVgprIndex_ok {index : Nat} (found : dstToVgprIndex dst = .ok index) :
    index = dstIndex dst := by
  cases dst with
  | none => cases found
  | ssa vec => cases found
  | reg reg =>
    simp only [dstToVgprIndex, asU16] at found
    split at found <;> cases found
    rfl

theorem patchedRight_ld {addr : Src} {memType : MemType} {offset : Int}
    (accepted : encodeLd dst addr memType offset = .ok emitted) :
    PatchedRight emitted ↔ dstKept dst := by
  simp only [encodeLd, bind_eq_ok] at accepted
  obtain ⟨dstReg, found, addrReg, _, offset', _, made⟩ := accepted
  cases made
  rw [patchedRight_append, encodeFlatLoad, patchedRight_flat, encodeSWaitcnt,
    and_iff_left (patchedRight_sopp _ _), dstToVgprIndex_ok found]
  simp [dstKept]

theorem patchedRight_st {addr data : Src} {memType : MemType} {offset : Int}
    (accepted : encodeSt addr data memType offset = .ok emitted) : PatchedRight emitted := by
  simp only [encodeSt, bind_eq_ok] at accepted
  obtain ⟨addrReg, _, dataReg, _, offset', _, made⟩ := accepted
  cases made
  rw [encodeFlatStore, patchedRight_flat]
  decide

theorem patchedRight_atom {op : OpAtom} (accepted : encodeAtom op = .ok emitted) :
    PatchedRight emitted ↔ dstKept op.dst := by
  simp only [encodeAtom, bind_eq_ok] at accepted
  obtain ⟨dstReg, found, addrReg, _, dataReg, _, offset', _, made⟩ := accepted
  cases made
  rw [encodeFlatAtomic, patchedRight_flat, dstToVgprIndex_ok found]
  simp [dstKept]

theorem patchedRight_ldc {cb : Src} (accepted : encodeLdc dst cb = .ok emitted) :
    PatchedRight emitted := by
  simp only [encodeLdc, bind_eq_ok] at accepted
  obtain ⟨dstReg, _, accepted⟩ := accepted
  split at accepted
  · obtain ⟨sgprEnc, _, made⟩ := bind_eq_ok.mp accepted
    cases made
    exact patchedRight_vop1 _ _ _
  · cases accepted

theorem patchedRight_s2R {idx : Nat} (accepted : encodeS2R dst idx e = .ok emitted) :
    PatchedRight emitted := by
  simp only [encodeS2R, bind_eq_ok] at accepted
  obtain ⟨dstReg, _, srcEnc, _, made⟩ := accepted
  cases made
  exact patchedRight_vop1 _ _ _

theorem patchedRight_pLop3 {op : OpPLop3} (accepted : encodePLop3 op = .ok emitted) :
    PatchedRight emitted := by
  rcases encodePLop3_scalar accepted with ⟨_, _, _, rfl⟩ | ⟨_, _, _, _, rfl⟩
  · exact patchedRight_sop1 _ _ _
  · exact patchedRight_sop2 _ _ _ _

theorem patchedRight_bra {target : Label} {cond : Src}
    (accepted : encodeBra target cond e = .ok emitted) : PatchedRight emitted := by
  obtain ⟨_, _, _, _, _, rfl⟩ := encodeBra_ok accepted
  exact patchedRight_sopp _ _

theorem patchedRight_copy (accepted : encodeCopy dst src = .ok emitted) :
    PatchedRight emitted := by
  rcases src with ⟨reference, modifier, swizzle⟩
  cases reference with
  | cbuf cb => exact (patchedRight_encodeVop1FromSrc accepted).mpr rfl
  | _ =>
    cases accepted
    exact patchedRight_nil

theorem vop2Known_iMnMx (cmpType : IntCmpType) (min : Src) :
    vop2Known (iMnMxOpcode cmpType min) := by
  simp only [iMnMxOpcode]
  generalize decide (min.reference = .boolTrue) = isMin
  cases cmpType <;> cases isMin <;> decide

/-- The words of an instruction for GFX9 are patched into those it should have exactly when it is
one of `patchExact`. -/
theorem patchedRight_opEncodeAmd (gfx9 : e.gfxMajor < 10) {op : Op}
    (accepted : opEncodeAmd op e = .ok emitted) : PatchedRight emitted ↔ patchExact op := by
  cases op with
  | ld => exact patchedRight_ld accepted
  | st => exact iff_of_true (patchedRight_st accepted) rfl
  | atom => exact patchedRight_atom accepted
  | ldc => exact iff_of_true (patchedRight_ldc accepted) rfl
  | memBar scope =>
    cases accepted
    refine iff_of_true ?_ rfl
    cases scope <;> exact patchedRight_sopp _ _
  | exit | nop | bar =>
    cases accepted
    exact iff_of_true (patchedRight_sopp _ _) rfl
  | noCode =>
    cases accepted
    exact iff_of_true patchedRight_nil rfl
  | other => cases accepted
  | s2R | cS2R => exact iff_of_true (patchedRight_s2R accepted) rfl
  | pLop3 => exact iff_of_true (patchedRight_pLop3 accepted) rfl
  | bra => exact iff_of_true (patchedRight_bra accepted) rfl
  | copy => exact iff_of_true (patchedRight_copy accepted) rfl
  | popC => exact iff_of_false (not_patchedRight_popC accepted) Bool.false_ne_true
  | fAdd | fMul => exact patchedRight_encodeVop2FromSrcs gfx9 (by decide) accepted
  | fMnMx =>
    refine patchedRight_encodeVop2FromSrcs gfx9 ?_ accepted
    split <;> decide
  | iMnMx dst cmpType srcs min =>
    exact patchedRight_encodeVop2FromSrcs gfx9 (vop2Known_iMnMx cmpType min) accepted
  | iAdd3 => exact patchedRight_iAdd3 gfx9 accepted
  | lop2 => exact patchedRight_lop2 gfx9 accepted
  | lop3 => exact patchedRight_lop3 gfx9 accepted
  | fFma | dFma | iMad | shf => exact patchedRight_encodeVop3FromSrcsInner (by decide) accepted
  | dAdd | dMul | bMsk =>
    have right := patchedRight_encodeVop3FromSrcsInner (by decide) accepted
    rwa [show literalKept { reference := .zero } = true from rfl, Bool.and_true] at right
  | dMnMx | bfe =>
    have right := patchedRight_encodeVop3FromSrcsInner (by split <;> decide) accepted
    rwa [show literalKept { reference := .zero } = true from rfl, Bool.and_true] at right
  | f64Sqrt | f64Rcp =>
    exact patchedRight_encodeVop3FromSrc patchedRight_materializeF64 (by decide) accepted
  | f64Exp2 | f64Log2 | f64Sin | f64Cos => exact patchedRight_encodeF64ViaF32 accepted
  | transcendental => exact patchedRight_transcendental accepted
  | fRnd => exact patchedRight_fRnd accepted
  | f2F | f2I | i2F | i2I | mov => exact patchedRight_encodeVop1FromSrc accepted
  | bRev => exact patchedRight_bRev accepted
  | flo => exact patchedRight_flo gfx9 accepted
  | shl dst src shift =>
    rw [patchedRight_encodeVop2Unswapped gfx9 (by decide) accepted, Bool.and_comm]
    exact Iff.rfl
  | shr dst src shift wrap signed =>
    rw [patchedRight_encodeVop2Unswapped gfx9 (by split <;> decide) accepted, Bool.and_comm]
    exact Iff.rfl
  | sel => exact patchedRight_encodeVop2Unswapped gfx9 (by decide) accepted
  | dSetP => exact patchedRight_dSetP accepted
  | fSetP dst setOp cmpOp =>
    rw [patchedRight_encodeVopcLegalized gfx9 (vopcKnown_floatCmp cmpOp) accepted,
      and_iff_left (.inr (vop3Known_floatCmp cmpOp))]
    exact Iff.rfl
  | iSetP op =>
    rw [patchedRight_encodeVopcLegalized gfx9 (vopcKnown_intCmp _ _) accepted,
      or_iff_left (not_vop3Known_intCmp op.cmpOp op.cmpType)]
    have kept : namesRegister (op.srcs 1) → literalKept (op.srcs 1) := literalKept_of_namesRegister
    change _ ↔ (literalKept (op.srcs 0) && namesRegister (op.srcs 1)) = true
    cases names : namesRegister (op.srcs 1)
    · simp
    · simp [kept names]

end

/-- For GFX9, patching the words of an accepted instruction gives each first word of a VOP3
instruction or compare the bits it should have there, and leaves every other word as it is, exactly
for the instructions of `patchExact`. -/
theorem encodeAmdOp_patched_iff {op : Op} {e : AmdOpEncoder} {words : List Word}
    (gfx9 : e.gfxMajor < 10) (accepted : encodeAmdOp op e = .ok words) :
    (∃ emitted, opEncodeAmd op e = .ok emitted ∧ words = emitted.map gfx9Word) ↔
      patchExact op := by
  obtain ⟨emitted, encoded, rfl⟩ := encodeAmdOp_ok.mp accepted
  rw [if_pos gfx9, ← patchedRight_opEncodeAmd gfx9 encoded, patchedRight_iff]
  constructor
  · rintro ⟨emitted', encoded', right⟩
    cases encoded.symm.trans encoded'
    exact right
  · exact fun right => ⟨emitted, encoded, right⟩

/-- An encoder for GFX9 with its scratch registers past the first ten. -/
def gfx9Encoder : AmdOpEncoder :=
  { scratchVgpr0 := 13, scratchVgpr1 := 14, gfxMajor := 9, userSgprCount := 6, tidSaveBase := 10 }

/-- Register `i`. -/
def vgprReg (i : Fin 256) : CoralReef.RegRef :=
  ⟨.gpr, i, 1, Nat.le_trans (Nat.le_of_lt i.isLt) (by decide), RegRef.single⟩

theorem encodeAmdOp_patched_iff_moved :
    ∃ emitted, opEncodeAmd (.mov (.reg (vgprReg 0)) { reference := .imm32 0x3F800000 }) gfx9Encoder
      = .ok emitted ∧ [0x7E0002FF, 0x3F800000] = emitted.map gfx9Word :=
  (encodeAmdOp_patched_iff (by decide) (by decide)).mpr (by decide)

/-- The literal -2^43 of single precision looks like a VOP3 instruction, and is patched as one. -/
theorem patch_alters_literal :
    let op := Op.mov (.reg (vgprReg 0)) { reference := .imm32 0xD5000000 }
    opEncodeAmd op gfx9Encoder = .ok [⟨.head, 0x7E0002FF⟩, ⟨.literal, 0xD5000000⟩] ∧
    encodeAmdOp op gfx9Encoder = .ok [0x7E0002FF, 0xD1000000] ∧
    [0x7E0002FF, 0xD1000000] ≠
      [⟨.head, 0x7E0002FF⟩, ⟨.literal, 0xD5000000⟩].map gfx9Word := by
  decide

end CoralReef.Amd
