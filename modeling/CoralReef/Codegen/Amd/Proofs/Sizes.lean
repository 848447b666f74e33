import CoralReef.Codegen.Amd.ShaderModel

/-!
# The sizes of AMD instructions

How many words each encoder emits, as a function of the shapes of its operands, and from that the
instructions that have the size `estimate_instr_size` takes for them.
-/

open List

namespace CoralReef.Amd

variable {src : Src} {materialize : Nat → SrcEncoding → List Emitted × SrcEncoding}
  {emitted : List Emitted} {dst : Dst} {opcode : Nat} {e : AmdOpEncoder}

/-- Whether a source can stand where only a register can: it names one, or it is zero. -/
def namesRegister (src : Src) : Bool :=
  match src.reference with
  | .reg _ | .zero => true
  | _ => false

/-- The shapes for which two operands make one word: one of them names a register, and the other
needs no literal. -/
def oneWordShape (src0 src1 : Src) : Bool :=
  (namesRegister src0 || namesRegister src1) && !srcNeedsMaterialization src0 &&
    !srcNeedsMaterialization src1

/-- The shapes for which an instruction whose second operand has to be a register has the size of
one whose operand `guessed` may need a literal. -/
def unswappedShape (src0 src1 guessed : Src) : Bool :=
  if namesRegister src1 then !srcNeedsMaterialization src0 && !srcNeedsMaterialization guessed
  else (srcNeedsMaterialization src0).toNat + (srcNeedsMaterialization src1).toNat =
    (srcNeedsMaterialization guessed).toNat

/-- The instructions that are as long as they are taken to be. -/
def sizeExact : Op → Bool
  | .fAdd _ srcs | .fMul _ srcs | .fMnMx _ srcs _ | .iMnMx _ _ srcs _ =>
    oneWordShape (srcs 0) (srcs 1)
  | .iAdd3 op => oneWordShape (op.srcs 0) (op.srcs 1)
  | .lop2 _ srcs .passB =>
    !srcNeedsMaterialization (srcs 1) &&
      (srcIsVgpr (srcs 0) || srcIsVgpr (srcs 1) || !srcNeedsMaterialization (srcs 0))
  | .lop2 _ srcs _ => oneWordShape (srcs 0) (srcs 1)
  | .lop3 op =>
    if op.op = .newLut (fun a b _ => a &&& b) ∨ op.op = .newLut (fun a b _ => a ||| b) ∨
        op.op = .newLut (fun a b _ => a ^^^ b) then
      !namesRegister (op.srcs 0) && !namesRegister (op.srcs 1) &&
        (!srcNeedsMaterialization (op.srcs 2) ||
          srcNeedsMaterialization (op.srcs 0) && srcNeedsMaterialization (op.srcs 1))
    else true
  | .fSetP _ _ _ srcs _ => namesRegister (srcs 1) && !srcNeedsMaterialization (srcs 0)
  | .iSetP op => namesRegister (op.srcs 1) && !srcNeedsMaterialization (op.srcs 0)
  | .dAdd _ srcs | .dMul _ srcs | .dMnMx _ srcs _ =>
    !srcNeedsMaterialization (srcs 0) && !srcNeedsMaterialization (srcs 1)
  | .dFma _ srcs =>
    !srcNeedsMaterialization (srcs 0) && !srcNeedsMaterialization (srcs 1) &&
      !srcNeedsMaterialization (srcs 2)
  | .f64Sqrt _ src | .f64Rcp _ src | .f2F _ src _ _ | .f2I _ src | .i2F _ src _ _ | .i2I _ src
  | .mov _ src | .bRev _ src => !srcNeedsMaterialization src
  | .transcendental _ op src =>
    op ≠ .rcp64H && op ≠ .rsq64H && !srcNeedsMaterialization src
  | .fRnd _ src dstType srcType _ =>
    srcType ≠ .f64 && dstType ≠ .f64 && !srcNeedsMaterialization src
  | .shl _ src shift _ | .shr _ src shift _ _ => unswappedShape shift src shift
  | .sel op => unswappedShape (op.srcs 1) (op.srcs 2) (op.srcs 0)
  | .popC _ _ => false
  | .flo _ src _ returnShiftAmount => returnShiftAmount && !srcNeedsMaterialization src
  | .copy _ src => match src.reference with
    | .cbuf _ => false
    | _ => true
  | _ => true

/-! ## Operands -/

theorem namesRegister_of_srcIsVgpr (vgpr : srcIsVgpr src) : namesRegister src := by
  rcases src with ⟨reference, _, _⟩
  cases reference <;> simp_all [srcIsVgpr, namesRegister]

theorem no_literal_of_namesRegister (names : namesRegister src) :
    srcNeedsMaterialization src = false := by
  rcases src with ⟨reference, _, _⟩
  cases reference <;> simp_all [srcNeedsMaterialization, namesRegister]

/-- The encoding of a source has a literal exactly when the estimate says so. -/
theorem literal_isSome {enc : SrcEncoding} (encoded : srcToEncoding src = .ok enc) :
    enc.literal.isSome = srcNeedsMaterialization src := by
  rcases src with ⟨reference, modifier, swizzle⟩
  cases reference with
  | zero | boolTrue | boolFalse =>
    cases encoded
    rfl
  | ssa vec => cases encoded
  | imm32 val =>
    simp only [srcToEncoding, Except.ok.injEq] at encoded
    subst encoded
    simp only [imm32ToSrcEncoding, srcNeedsMaterialization, isInlineConstant]
    split
    · simp [*]
    · split <;> simp [*]
  | cbuf cb =>
    simp only [srcToEncoding, bind_eq_ok] at encoded
    obtain ⟨index, _, made⟩ := encoded
    cases made
    rfl
  | reg reg =>
    simp only [srcToEncoding, bind_eq_ok] at encoded
    obtain ⟨index, _, made⟩ := encoded
    split at made <;> cases made <;> rfl

theorem namesRegister_of_ok {index : Nat} (found : srcToVgprIndex src = .ok index) :
    namesRegister src := by
  rcases src with ⟨reference, modifier, swizzle⟩
  cases reference <;> simp_all [srcToVgprIndex, namesRegister]

/-- A source that can be encoded but has no register number names no register. -/
theorem not_namesRegister {enc : SrcEncoding} {fault : Fault}
    (encoded : srcToEncoding src = .ok enc) (missing : srcToVgprIndex src = .error fault) :
    namesRegister src = false := by
  rcases src with ⟨reference, modifier, swizzle⟩
  cases reference with
  | reg reg =>
    simp only [srcToEncoding, bind_eq_ok] at encoded
    obtain ⟨index, within, _⟩ := encoded
    simp only [srcToVgprIndex] at missing
    simp only [asU16] at within missing
    split at within
    · simp_all
    · cases within
  | zero => cases missing
  | _ => rfl

theorem length_literalWords (enc : SrcEncoding) :
    enc.literalWords.length = enc.literal.isSome.toNat := by
  rcases enc with ⟨src0, _ | value⟩ <;> rfl

theorem length_materializeIfLiteral (scratch : Nat) (enc : SrcEncoding) :
    (materializeIfLiteral scratch enc).1.length = 2 * enc.literal.isSome.toNat := by
  rcases enc with ⟨src0, _ | value⟩ <;> rfl

theorem length_materializeF64IfLiteral (scratch : Nat) (enc : SrcEncoding) :
    (materializeF64IfLiteral scratch enc).1.length = 3 * enc.literal.isSome.toNat := by
  rcases enc with ⟨src0, _ | value⟩ <;> rfl

theorem literalWords_materializeIfLiteral (scratch : Nat) (enc : SrcEncoding) :
    (materializeIfLiteral scratch enc).2.literalWords = [] := by
  rcases enc with ⟨src0, _ | value⟩ <;> rfl

theorem length_materializeNext {size : Nat}
    (sizes : ∀ scratch enc, (materialize scratch enc).1.length = size * enc.literal.isSome.toNat)
    (e : AmdOpEncoder) (scratch : Nat) (enc : SrcEncoding) :
    (materializeNext materialize e scratch enc).1.1.length =
      size * enc.literal.isSome.toNat := by
  unfold materializeNext
  split
  · exact sizes scratch enc
  · simp_all

/-! ## Encoders -/

theorem length_encodeVop1FromSrc (accepted : encodeVop1FromSrc opcode dst src = .ok emitted) :
    emitted.length = 1 + (srcNeedsMaterialization src).toNat := by
  simp only [encodeVop1FromSrc, bind_eq_ok] at accepted
  obtain ⟨dstReg, _, srcEnc, encoded, made⟩ := accepted
  cases made
  rw [length_append, length_literalWords, literal_isSome encoded]
  rfl

theorem length_encodeVop3FromSrc {size : Nat}
    (sizes : ∀ scratch enc, (materialize scratch enc).1.length = size * enc.literal.isSome.toNat)
    (accepted : encodeVop3FromSrc materialize opcode dst src e = .ok emitted) :
    emitted.length = 2 + size * (srcNeedsMaterialization src).toNat := by
  simp only [encodeVop3FromSrc, bind_eq_ok] at accepted
  obtain ⟨dstReg, _, srcEnc, encoded, made⟩ := accepted
  cases made
  rw [length_append, sizes, literal_isSome encoded, Nat.add_comm]
  rfl

theorem length_encodeF64ViaF32 (accepted : encodeF64ViaF32 opcode dst src e = .ok emitted) :
    emitted.length = 3 + 2 * (srcNeedsMaterialization src).toNat := by
  simp only [encodeF64ViaF32, bind_eq_ok] at accepted
  obtain ⟨dstReg, _, srcEnc, encoded, made⟩ := accepted
  cases made
  have literal := literal_isSome encoded
  simp only [length_append, length_materializeIfLiteral, literal]
  simp only [encodeVop1, length_cons, length_nil, srcNeedsMaterialization]
  omega

theorem length_encodeVop2FromSrcs {src0 src1 : Src}
    (accepted : encodeVop2FromSrcs opcode dst src0 src1 e = .ok emitted) :
    emitted.length =
      if namesRegister src1 then 1 + (srcNeedsMaterialization src0).toNat
      else if namesRegister src0 then 1 + (srcNeedsMaterialization src1).toNat
      else 2 + 2 * (srcNeedsMaterialization src0).toNat +
        2 * (srcNeedsMaterialization src1).toNat := by
  simp only [encodeVop2FromSrcs, bind_eq_ok] at accepted
  obtain ⟨dstReg, _, accepted⟩ := accepted
  cases second : srcToVgprIndex src1 with
  | ok src1Idx =>
    simp only [second, bind_eq_ok] at accepted
    obtain ⟨src0Enc, encoded, made⟩ := accepted
    cases made
    rw [if_pos (namesRegister_of_ok second), length_append, length_literalWords,
      literal_isSome encoded]
    rfl
  | error fault =>
    cases first : srcToVgprIndex src0 with
    | ok src0Idx =>
      simp only [second, first, bind_eq_ok] at accepted
      obtain ⟨src1Enc, encoded, made⟩ := accepted
      cases made
      rw [not_namesRegister encoded second, if_neg Bool.false_ne_true,
        if_pos (namesRegister_of_ok first), length_append, length_literalWords,
        literal_isSome encoded]
      rfl
    | error fault' =>
      simp only [second, first, bind_eq_ok] at accepted
      obtain ⟨src0Enc, encoded0, src1Enc, encoded1, made⟩ := accepted
      cases made
      rw [not_namesRegister encoded1 second, if_neg Bool.false_ne_true, not_namesRegister encoded0 first,
        if_neg Bool.false_ne_true]
      simp only [length_append, length_materializeIfLiteral, literal_isSome encoded0,
        literal_isSome encoded1, encodeVop3, encodeVop3Mod, length_cons, length_nil]
      omega

theorem length_encodeVopcLegalized {src0 src1 : Src}
    (accepted : encodeVopcLegalized opcode src0 src1 e = .ok emitted) :
    emitted.length =
      if namesRegister src1 then 1 + (srcNeedsMaterialization src0).toNat
      else 2 + 2 * (srcNeedsMaterialization src0).toNat +
        2 * (srcNeedsMaterialization src1).toNat := by
  simp only [encodeVopcLegalized, bind_eq_ok] at accepted
  obtain ⟨src0Enc, encoded0, accepted⟩ := accepted
  cases second : srcToVgprIndex src1 with
  | ok src1Idx =>
    simp only [second] at accepted
    cases accepted
    rw [if_pos (namesRegister_of_ok second), length_append, length_literalWords,
      literal_isSome encoded0]
    rfl
  | error fault =>
    simp only [second, bind_eq_ok] at accepted
    obtain ⟨src1Enc, encoded1, made⟩ := accepted
    cases made
    rw [not_namesRegister encoded1 second, if_neg Bool.false_ne_true]
    simp only [length_append, length_materializeIfLiteral, literal_isSome encoded0,
      literal_isSome encoded1, encodeVop3, encodeVop3Mod, length_cons, length_nil]
    omega

theorem length_encodeVop2Unswapped {src0 src1 : Src}
    (accepted : encodeVop2Unswapped opcode dst src0 src1 e = .ok emitted) :
    emitted.length =
      if namesRegister src1 then 1 + (srcNeedsMaterialization src0).toNat
      else 1 + 2 * (srcNeedsMaterialization src0).toNat +
        2 * (srcNeedsMaterialization src1).toNat := by
  simp only [encodeVop2Unswapped, bind_eq_ok] at accepted
  obtain ⟨dstReg, _, src0Enc, encoded0, accepted⟩ := accepted
  cases second : srcToVgprIndex src1 with
  | ok src1Idx =>
    simp only [second] at accepted
    cases accepted
    rw [if_pos (namesRegister_of_ok second), length_append, length_literalWords,
      literal_isSome encoded0]
    rfl
  | error fault =>
    simp only [second, bind_eq_ok] at accepted
    obtain ⟨src1Enc, encoded1, made⟩ := accepted
    cases made
    rw [not_namesRegister encoded1 second, if_neg Bool.false_ne_true]
    simp only [length_append, length_materializeIfLiteral, literal_isSome encoded0,
      literal_isSome encoded1, encodeVop2, length_cons, length_nil]
    omega

theorem length_encodeVop3FromSrcsInner {src0 src1 src2 : Src} {f64Mode : Bool}
    (accepted : encodeVop3FromSrcsInner opcode dst src0 src1 src2 e f64Mode = .ok emitted) :
    let literals := (srcNeedsMaterialization src0).toNat + (srcNeedsMaterialization src1).toNat +
      (srcNeedsMaterialization src2).toNat
    literals ≤ (if f64Mode then 1 else 2) ∧
      emitted.length = 2 + (if f64Mode then 3 else 2) * literals := by
  intro literals
  simp only [encodeVop3FromSrcsInner, bind_eq_ok] at accepted
  obtain ⟨dstReg, _, enc0, encoded0, enc1, encoded1, enc2, encoded2, accepted⟩ := accepted
  have count : ([enc0, enc1, enc2].filter fun enc => enc.literal.isSome).length = literals := by
    simp only [literals, ← literal_isSome encoded0, ← literal_isSome encoded1,
      ← literal_isSome encoded2, List.filter]
    cases enc0.literal.isSome <;> cases enc1.literal.isSome <;> cases enc2.literal.isSome <;> rfl
  rw [count] at accepted
  have sizes : ∀ scratch enc, ((if f64Mode then materializeF64IfLiteral
      else materializeIfLiteral) scratch enc).1.length =
        (if f64Mode then 3 else 2) * enc.literal.isSome.toNat := by
    cases f64Mode
    · exact length_materializeIfLiteral
    · exact length_materializeF64IfLiteral
  split at accepted
  · cases accepted
  · split at accepted
    · cases accepted
    · cases accepted
      simp only [length_append, length_materializeNext sizes, literal_isSome encoded0,
        literal_isSome encoded1, literal_isSome encoded2, encodeVop3Mod, length_cons,
        length_nil]
      refine ⟨?_, ?_⟩
      · cases f64Mode <;> simp_all
      · simp only [literals, Nat.mul_add]
        omega

theorem length_encodeDSetP {cmpOp : FloatCmpOp} {srcs : Fin 2 → Src}
    (accepted : encodeDSetP cmpOp srcs e = .ok emitted) :
    emitted.length = 2 + 2 * (srcNeedsMaterialization (srcs 0)).toNat +
      2 * (srcNeedsMaterialization (srcs 1)).toNat := by
  simp only [encodeDSetP, bind_eq_ok] at accepted
  obtain ⟨enc0, encoded0, enc1, encoded1, made⟩ := accepted
  cases made
  simp only [length_append, length_materializeNext length_materializeIfLiteral,
    literal_isSome encoded0, literal_isSome encoded1, encodeVop3, encodeVop3Mod, length_cons,
    length_nil]
  omega

theorem length_encodePopC (accepted : encodePopC dst src e = .ok emitted) :
    emitted.length = 2 + 2 * (srcNeedsMaterialization src).toNat := by
  simp only [encodePopC, bind_eq_ok] at accepted
  obtain ⟨dstReg, _, srcEnc, encoded, made⟩ := accepted
  cases made
  rw [length_append, length_materializeIfLiteral, literal_isSome encoded, Nat.add_comm]
  rfl

theorem length_encodeBRev (accepted : encodeBRev dst src e = .ok emitted) :
    emitted.length = 1 + 2 * (srcNeedsMaterialization src).toNat := by
  simp only [encodeBRev, bind_eq_ok] at accepted
  obtain ⟨dstReg, _, srcEnc, encoded, made⟩ := accepted
  cases made
  simp only [length_append, length_materializeIfLiteral, literal_isSome encoded,
    literalWords_materializeIfLiteral, encodeVop1, length_cons, length_nil]
  omega

theorem length_encodeFlo {signed returnShiftAmount : Bool}
    (accepted : encodeFlo dst src signed returnShiftAmount e = .ok emitted) :
    emitted.length =
      (if returnShiftAmount then 1 else 4) + 2 * (srcNeedsMaterialization src).toNat := by
  simp only [encodeFlo, bind_eq_ok] at accepted
  obtain ⟨dstReg, _, srcEnc, encoded, accepted⟩ := accepted
  cases returnShiftAmount
  all_goals
    cases accepted
    simp only [length_append, length_materializeIfLiteral, literal_isSome encoded,
      literalWords_materializeIfLiteral, encodeVop1, encodeVop2, encodeVopc, length_cons,
      length_nil]
  · simp only [Bool.false_eq_true, if_false]
    omega
  · simp only [if_true]
    omega

/-- Predicate logic is one scalar instruction. -/
theorem encodePLop3_scalar {op : OpPLop3} (accepted : encodePLop3 op = .ok emitted) :
    (∃ opcode dst src0, emitted = encodeSop1 opcode dst src0) ∨
      ∃ opcode dst src0 src1, emitted = encodeSop2 opcode dst src0 src1 := by
  have one : ∀ (src : Src) (opcode : Nat) (dst : RegRef),
      (do let ssrc ← plop3SrcToSsrc src; return encodeSop1 opcode dst (.sgpr ssrc)) = .ok emitted →
        ∃ opcode dst src0, emitted = encodeSop1 opcode dst src0 := by
    intro src opcode dst made
    obtain ⟨ssrc, _, made⟩ := bind_eq_ok.mp made
    cases made
    exact ⟨_, _, _, rfl⟩
  simp only [encodePLop3] at accepted
  obtain ⟨sdst, _, accepted⟩ := bind_eq_ok.mp accepted
  split at accepted
  · exact .inl (one _ _ _ accepted)
  split at accepted
  · exact .inl (one _ _ _ accepted)
  split at accepted
  · exact .inl (one _ _ _ accepted)
  split at accepted
  · exact .inl (one _ _ _ accepted)
  split at accepted
  · cases accepted
    exact .inl ⟨_, _, _, rfl⟩
  split at accepted
  · cases accepted
    exact .inl ⟨_, _, _, rfl⟩
  obtain ⟨ssrc0, _, accepted⟩ := bind_eq_ok.mp accepted
  obtain ⟨ssrc1, _, accepted⟩ := bind_eq_ok.mp accepted
  split at accepted <;> cases accepted <;> exact .inr ⟨_, _, _, _, rfl⟩

theorem length_encodePLop3 {op : OpPLop3} (accepted : encodePLop3 op = .ok emitted) :
    emitted.length = 1 := by
  rcases encodePLop3_scalar accepted with ⟨_, _, _, rfl⟩ | ⟨_, _, _, _, rfl⟩ <;> rfl

/-- A branch is one scalar instruction, whose distance is from the word after it to the label. -/
theorem encodeBra_ok {target : Label} {cond : Src}
    (accepted : encodeBra target cond e = .ok emitted) :
    ∃ targetIp opcode, e.labels target = some targetIp ∧
      -2 ^ 15 ≤ (targetIp : Int) - (e.ip + 1 : Nat) ∧
      (targetIp : Int) - (e.ip + 1 : Nat) < 2 ^ 15 ∧
      emitted = encodeSopp opcode (((targetIp : Int) - (e.ip + 1 : Nat)) % 2 ^ 16).toNat := by
  simp only [encodeBra, bind_eq_ok] at accepted
  obtain ⟨targetIp, found, targetI32, inside, nextI32, inside', offset, within, made⟩ := accepted
  have label : e.labels target = some targetIp := by
    cases labelled : e.labels target <;> simp_all [okOr]
  have targetEq : targetI32 = targetIp := by
    simp only [asI32] at inside
    split at inside <;> cases inside
    rfl
  have nextEq : nextI32 = (e.ip + 1 : Nat) := by
    simp only [asI32] at inside'
    split at inside' <;> cases inside'
    rfl
  subst targetEq nextEq
  simp only [asI16] at within
  split at within
  case isFalse => cases within
  case isTrue bounds =>
    cases within
    refine ⟨targetIp, ?_⟩
    split at made
    · cases made
      exact ⟨_, label, bounds.1, bounds.2, rfl⟩
    · split at made <;> cases made <;> exact ⟨_, label, bounds.1, bounds.2, rfl⟩

theorem length_encodeBra {target : Label} {cond : Src}
    (accepted : encodeBra target cond e = .ok emitted) : emitted.length = 1 := by
  obtain ⟨_, _, _, _, _, rfl⟩ := encodeBra_ok accepted
  rfl

theorem length_encodeS2R {idx : Nat} (accepted : encodeS2R dst idx e = .ok emitted) :
    emitted.length = 1 := by
  simp only [encodeS2R, bind_eq_ok] at accepted
  obtain ⟨dstReg, _, srcEnc, _, made⟩ := accepted
  cases made
  rfl

theorem length_encodeLdc {cb : Src} (accepted : encodeLdc dst cb = .ok emitted) :
    emitted.length = 1 := by
  simp only [encodeLdc, bind_eq_ok] at accepted
  obtain ⟨dstReg, _, accepted⟩ := accepted
  split at accepted
  · obtain ⟨sgprEnc, _, made⟩ := bind_eq_ok.mp accepted
    cases made
    rfl
  · cases accepted

theorem length_encodeLd {addr : Src} {memType : MemType} {offset : Int}
    (accepted : encodeLd dst addr memType offset = .ok emitted) :
    emitted.length = 3 := by
  simp only [encodeLd, bind_eq_ok] at accepted
  obtain ⟨dstReg, _, addrReg, _, offset, _, made⟩ := accepted
  cases made
  rfl

theorem length_encodeSt {addr data : Src} {memType : MemType} {offset : Int}
    (accepted : encodeSt addr data memType offset = .ok emitted) :
    emitted.length = 2 := by
  simp only [encodeSt, bind_eq_ok] at accepted
  obtain ⟨addrReg, _, dataReg, _, offset, _, made⟩ := accepted
  cases made
  rfl

theorem length_encodeAtom {op : OpAtom} (accepted : encodeAtom op = .ok emitted) :
    emitted.length = 2 := by
  simp only [encodeAtom, bind_eq_ok] at accepted
  obtain ⟨dstReg, _, addrReg, _, dataReg, _, offset, _, made⟩ := accepted
  cases made
  rfl

/-! ## The estimate -/

theorem overhead_two (src0 src1 : Src) :
    literalMaterializationOverhead [src0, src1] =
      2 * (srcNeedsMaterialization src0).toNat + 2 * (srcNeedsMaterialization src1).toNat := by
  simp only [literalMaterializationOverhead, List.filter]
  cases srcNeedsMaterialization src0 <;> cases srcNeedsMaterialization src1 <;> rfl

theorem overhead_zero (src0 src1 : Src) :
    literalMaterializationOverhead [src0, src1, { reference := .zero }] =
      literalMaterializationOverhead [src0, src1] := by
  simp only [literalMaterializationOverhead, List.filter]
  cases srcNeedsMaterialization src0 <;> cases srcNeedsMaterialization src1 <;> rfl

theorem overhead_three (src0 src1 src2 : Src) :
    literalMaterializationOverhead [src0, src1, src2] =
      2 * min 2 ((srcNeedsMaterialization src0).toNat + (srcNeedsMaterialization src1).toNat +
        (srcNeedsMaterialization src2).toNat) := by
  simp only [literalMaterializationOverhead, List.filter]
  cases srcNeedsMaterialization src0 <;> cases srcNeedsMaterialization src1 <;>
    cases srcNeedsMaterialization src2 <;> rfl

/-- The estimate is right for every VOP3 instruction of 32-bit sources. -/
theorem length_encodeVop3FromSrcs {src0 src1 src2 : Src}
    (accepted : encodeVop3FromSrcs opcode dst src0 src1 src2 e = .ok emitted) :
    emitted.length = 2 + literalMaterializationOverhead [src0, src1, src2] := by
  have ⟨few, size⟩ := length_encodeVop3FromSrcsInner accepted
  simp only [Bool.false_eq_true, if_false] at few size
  rw [size, overhead_three, Nat.min_eq_right few]

/-- For one of 64-bit sources it is right when none of them needs a literal. -/
theorem vop3F64_exact {src0 src1 src2 : Src}
    (accepted : encodeVop3F64FromSrcs opcode dst src0 src1 src2 e = .ok emitted) :
    emitted.length = 2 + literalMaterializationOverhead [src0, src1, src2] ↔
      !srcNeedsMaterialization src0 && !srcNeedsMaterialization src1 &&
        !srcNeedsMaterialization src2 := by
  have ⟨few, size⟩ := length_encodeVop3FromSrcsInner accepted
  simp only [if_true] at few size
  rw [size, overhead_three]
  revert few
  generalize srcNeedsMaterialization src0 = l0, srcNeedsMaterialization src1 = l1,
    srcNeedsMaterialization src2 = l2
  revert l0 l1 l2
  decide

theorem overhead_one (src : Src) :
    literalMaterializationOverhead [src] = 2 * (srcNeedsMaterialization src).toNat := by
  simp only [literalMaterializationOverhead, List.filter]
  cases srcNeedsMaterialization src <;> rfl

theorem estimateOneSrc_eq (src : Src) :
    estimateOneSrc src = 1 + 2 * (srcNeedsMaterialization src).toNat := by
  rw [estimateOneSrc]
  cases srcNeedsMaterialization src <;> rfl

/-- Two operands of a VOP2 instruction make the size that is taken for them in one shape only, and
so do those of a VOPC instruction. -/
theorem twoSrcs_exact (src0 src1 : Src) :
    ((if namesRegister src1 then 1 + (srcNeedsMaterialization src0).toNat
      else if namesRegister src0 then 1 + (srcNeedsMaterialization src1).toNat
      else 2 + 2 * (srcNeedsMaterialization src0).toNat +
        2 * (srcNeedsMaterialization src1).toNat) = estimateTwoSrcs src0 src1 ↔
      oneWordShape src0 src1) ∧
    ((if namesRegister src1 then 1 + (srcNeedsMaterialization src0).toNat
      else 2 + 2 * (srcNeedsMaterialization src0).toNat +
        2 * (srcNeedsMaterialization src1).toNat) = estimateTwoSrcs src0 src1 ↔
      namesRegister src1 && !srcNeedsMaterialization src0) := by
  have first : srcIsVgpr src0 → namesRegister src0 := namesRegister_of_srcIsVgpr
  have second : srcIsVgpr src1 → namesRegister src1 := namesRegister_of_srcIsVgpr
  have first' : namesRegister src0 → srcNeedsMaterialization src0 = false :=
    no_literal_of_namesRegister
  have second' : namesRegister src1 → srcNeedsMaterialization src1 = false :=
    no_literal_of_namesRegister
  rw [estimateTwoSrcs, overhead_two, oneWordShape]
  revert first second first' second'
  generalize srcIsVgpr src0 = g0, srcIsVgpr src1 = g1, namesRegister src0 = n0,
    namesRegister src1 = n1, srcNeedsMaterialization src0 = l0, srcNeedsMaterialization src1 = l1
  revert g0 g1 n0 n1 l0 l1
  decide

theorem unswapped_exact (src0 src1 guessed : Src) :
    (if namesRegister src1 then 1 + (srcNeedsMaterialization src0).toNat
      else 1 + 2 * (srcNeedsMaterialization src0).toNat +
        2 * (srcNeedsMaterialization src1).toNat) = estimateOneSrc guessed ↔
      unswappedShape src0 src1 guessed := by
  rw [estimateOneSrc_eq, unswappedShape]
  generalize namesRegister src1 = n1, srcNeedsMaterialization src0 = l0,
    srcNeedsMaterialization src1 = l1, srcNeedsMaterialization guessed = l
  revert n1 l0 l1 l
  decide

/-- An instruction that is `words` long, with `size` more for each literal, is taken to be as long as
`words` and two more for each literal: that is right where there is none. -/
theorem literal_exact {literals words size : Nat} (more : size ≠ 2) :
    words + size * literals = words + 2 * literals ↔ literals = 0 := by
  rw [Nat.add_left_cancel_iff]
  constructor
  · intro same
    rcases Nat.eq_zero_or_pos literals with none | some
    · exact none
    · exact absurd (Nat.eq_of_mul_eq_mul_right some same) more
  · rintro rfl
    simp

theorem toNat_eq_zero (b : Bool) : b.toNat = 0 ↔ !b := by cases b <;> simp

theorem iAdd3_vop2 {op : OpIAdd3} (accepted : encodeIAdd3 op e = .ok emitted) :
    emitted.length = estimateTwoSrcs (op.srcs 0) (op.srcs 1) ↔
      oneWordShape (op.srcs 0) (op.srcs 1) := by
  simp only [encodeIAdd3] at accepted
  split at accepted
  · rw [length_encodeVop2FromSrcs accepted]
    exact (twoSrcs_exact (op.srcs 0) (op.srcs 1)).1
  · split at accepted
    · rw [length_encodeVop2FromSrcs accepted]
      have exact' := (twoSrcs_exact (op.srcs 1) (op.srcs 0)).1
      simp only [estimateTwoSrcs, overhead_two, oneWordShape] at exact' ⊢
      rw [Bool.or_comm (srcIsVgpr (op.srcs 0)), Bool.or_comm (namesRegister (op.srcs 0)),
        Bool.and_right_comm, Nat.add_comm (2 * (srcNeedsMaterialization (op.srcs 0)).toNat)]
      exact exact'
    · rw [length_encodeVop2FromSrcs accepted]
      exact (twoSrcs_exact (op.srcs 0) (op.srcs 1)).1

attribute [local simp] sizeExact estimateInstrSize

theorem lop2_exact {srcs : Fin 2 → Src} {op : LogicOp2}
    (accepted : encodeLop2 dst srcs op e = .ok emitted) :
    emitted.length = estimateTwoSrcs (srcs 0) (srcs 1) ↔ sizeExact (.lop2 dst srcs op) := by
  cases op with
  | and | or | xor =>
    rw [length_encodeVop2FromSrcs accepted]
    exact (twoSrcs_exact (srcs 0) (srcs 1)).1
  | passB =>
    rw [length_encodeVop1FromSrc accepted]
    have second : srcIsVgpr (srcs 1) → srcNeedsMaterialization (srcs 1) = false :=
      fun vgpr => no_literal_of_namesRegister (namesRegister_of_srcIsVgpr vgpr)
    rw [estimateTwoSrcs, overhead_two, sizeExact]
    revert second
    generalize srcIsVgpr (srcs 0) = g0, srcIsVgpr (srcs 1) = g1,
      srcNeedsMaterialization (srcs 0) = l0, srcNeedsMaterialization (srcs 1) = l1
    revert g0 g1 l0 l1
    decide

theorem lop3_exact {op : OpLop3} (accepted : encodeLop3 op e = .ok emitted) :
    emitted.length = estimateInstrSize (.lop3 op) ↔ sizeExact (.lop3 op) := by
  have first' : namesRegister (op.srcs 0) → srcNeedsMaterialization (op.srcs 0) = false :=
    no_literal_of_namesRegister
  have second' : namesRegister (op.srcs 1) → srcNeedsMaterialization (op.srcs 1) = false :=
    no_literal_of_namesRegister
  have vop2 : ∀ opcode,
      encodeVop2FromSrcs opcode op.dst (op.srcs 0) (op.srcs 1) e = .ok emitted →
      (emitted.length = estimateInstrSize (.lop3 op) ↔
        !namesRegister (op.srcs 0) && !namesRegister (op.srcs 1) &&
          (!srcNeedsMaterialization (op.srcs 2) ||
            srcNeedsMaterialization (op.srcs 0) && srcNeedsMaterialization (op.srcs 1))) := by
    intro opcode accepted
    rw [length_encodeVop2FromSrcs accepted, estimateInstrSize, overhead_three]
    revert first' second'
    generalize namesRegister (op.srcs 0) = n0, namesRegister (op.srcs 1) = n1,
      srcNeedsMaterialization (op.srcs 0) = l0, srcNeedsMaterialization (op.srcs 1) = l1,
      srcNeedsMaterialization (op.srcs 2) = l2
    revert n0 n1 l0 l1 l2
    decide
  have vop3 : ∀ opcode,
      encodeVop3FromSrcs opcode op.dst (op.srcs 0) (op.srcs 1) (op.srcs 2) e = .ok emitted →
      emitted.length = estimateInstrSize (.lop3 op) := by
    intro opcode accepted
    rw [length_encodeVop3FromSrcs accepted, estimateInstrSize]
  simp only [encodeLop3] at accepted
  rw [sizeExact]
  split at accepted
  · rw [if_pos (by simp [*])]
    exact vop2 _ accepted
  split at accepted
  · rw [if_pos (by simp [*])]
    exact vop2 _ accepted
  split at accepted
  · rw [if_pos (by simp [*])]
    exact vop2 _ accepted
  rw [if_neg (by simp [*])]
  split at accepted <;> simp [vop3 _ accepted]

theorem transcendental_exact {op : TranscendentalOp}
    (accepted : encodeTranscendental dst op src e = .ok emitted) :
    emitted.length = 1 ↔ sizeExact (.transcendental dst op src) := by
  cases op with
  | rcp64H | rsq64H =>
    rw [length_encodeVop3FromSrc length_materializeF64IfLiteral accepted]
    simp
    omega
  | tanh =>
    simp only [encodeTranscendental, bind_eq_ok] at accepted
    obtain ⟨_, _, _, _, made⟩ := accepted
    cases made
  | _ =>
    rw [length_encodeVop1FromSrc accepted]
    simp

theorem fRnd_exact {dstType srcType : FloatType} {rndMode : FRndMode}
    (accepted : encodeFRnd dst src dstType srcType rndMode e = .ok emitted) :
    emitted.length = estimateOneSrc src ↔ sizeExact (.fRnd dst src dstType srcType rndMode) := by
  simp only [encodeFRnd] at accepted
  rw [estimateOneSrc_eq]
  split at accepted
  case isTrue double =>
    rw [length_encodeVop3FromSrc length_materializeIfLiteral accepted]
    rcases double with double | double <;> simp [double]
  case isFalse single =>
    rw [length_encodeVop1FromSrc accepted]
    rw [not_or] at single
    cases literal : srcNeedsMaterialization src <;> simp [single, literal]

/-- The size of an instruction is the one taken for it exactly when its operands have the shapes
of `sizeExact`. -/
theorem length_opEncodeAmd_iff {op : Op} (accepted : opEncodeAmd op e = .ok emitted) :
    emitted.length = estimateInstrSize op ↔ sizeExact op := by
  cases op with
  | ld => simp [length_encodeLd accepted]
  | st => simp [length_encodeSt accepted]
  | atom => simp [length_encodeAtom accepted]
  | ldc => simp [length_encodeLdc accepted]
  | s2R | cS2R => simp [length_encodeS2R accepted]
  | pLop3 => simp [length_encodePLop3 accepted]
  | bra => simp [length_encodeBra accepted]
  | memBar scope =>
    cases accepted
    cases scope <;> simp [encodeMemBar, encodeSWaitcnt, encodeSopp]
  | exit | nop | bar | noCode =>
    cases accepted
    simp [encodeSEndpgm, encodeSNop, encodeSBarrier, encodeSopp]
  | other => cases accepted
  | fAdd dst srcs | fMul dst srcs | fMnMx dst srcs min | iMnMx dst cmpType srcs min =>
    rw [length_encodeVop2FromSrcs accepted]
    exact (twoSrcs_exact (srcs 0) (srcs 1)).1
  | iAdd3 op => exact iAdd3_vop2 accepted
  | lop2 dst srcs op => exact lop2_exact accepted
  | lop3 op => exact lop3_exact accepted
  | fSetP dst setOp cmpOp srcs accum =>
    rw [length_encodeVopcLegalized accepted]
    exact (twoSrcs_exact (srcs 0) (srcs 1)).2
  | iSetP op =>
    rw [length_encodeVopcLegalized accepted]
    exact (twoSrcs_exact (op.srcs 0) (op.srcs 1)).2
  | dSetP dst setOp cmpOp srcs accum =>
    simp [length_encodeDSetP accepted, overhead_two, Nat.add_assoc]
  | fFma dst srcs | iMad dst srcs | shf dst low high shift =>
    simp [length_encodeVop3FromSrcs accepted]
  | bfe dst base range | bMsk dst base range =>
    rw [length_encodeVop3FromSrcs accepted, overhead_zero]
    simp
  | dAdd dst srcs | dMul dst srcs | dMnMx dst srcs =>
    simpa [overhead_zero, srcNeedsMaterialization] using
      vop3F64_exact accepted
  | dFma dst srcs => exact vop3F64_exact accepted
  | f64Sqrt dst src | f64Rcp dst src =>
    rw [length_encodeVop3FromSrc length_materializeF64IfLiteral accepted, estimateInstrSize,
      overhead_one]
    exact (literal_exact (by decide)).trans (toNat_eq_zero _)
  | f64Exp2 dst src | f64Log2 dst src | f64Sin dst src | f64Cos dst src =>
    rw [length_encodeF64ViaF32 accepted, estimateInstrSize, overhead_one]
    simp
  | transcendental dst op src => exact transcendental_exact accepted
  | fRnd dst src dstType srcType rndMode => exact fRnd_exact accepted
  | shl dst src shift | shr dst src shift =>
    rw [length_encodeVop2Unswapped accepted]
    exact unswapped_exact shift src shift
  | sel op =>
    rw [length_encodeVop2Unswapped accepted]
    exact unswapped_exact (op.srcs 1) (op.srcs 2) (op.srcs 0)
  | popC dst src =>
    rw [length_encodePopC accepted, estimateInstrSize, estimateOneSrc_eq]
    simp
  | bRev dst src =>
    rw [length_encodeBRev accepted, estimateInstrSize]
    cases literal : srcNeedsMaterialization src <;> simp [literal]
  | flo dst src signed returnShiftAmount =>
    rw [length_encodeFlo accepted, estimateInstrSize]
    cases literal : srcNeedsMaterialization src <;> cases returnShiftAmount <;>
      simp [literal]
  | f2F dst src | f2I dst src | i2F dst src | i2I dst src =>
    rw [length_encodeVop1FromSrc accepted, estimateInstrSize, estimateOneSrc_eq]
    cases literal : srcNeedsMaterialization src <;> simp [literal]
  | mov dst src =>
    rw [length_encodeVop1FromSrc accepted, estimateInstrSize]
    simp
  | copy dst src =>
    simp only [opEncodeAmd, encodeCopy] at accepted
    rcases src with ⟨reference, modifier, swizzle⟩
    cases reference with
    | cbuf cb =>
      rw [length_encodeVop1FromSrc accepted]
      simp
    | _ =>
      cases accepted
      simp

theorem encodeAmdOp_ok {op : Op} {words : List Word} :
    encodeAmdOp op e = .ok words ↔ ∃ emitted, opEncodeAmd op e = .ok emitted ∧
      words = if e.gfxMajor < 10 then patchForGfx9 (emitted.map Emitted.word)
        else emitted.map Emitted.word := by
  rw [encodeAmdOp, bind_eq_ok]
  constructor
  · rintro ⟨emitted, encoded, made⟩
    cases made
    exact ⟨emitted, encoded, rfl⟩
  · rintro ⟨emitted, encoded, rfl⟩
    exact ⟨emitted, encoded, rfl⟩

end CoralReef.Amd
