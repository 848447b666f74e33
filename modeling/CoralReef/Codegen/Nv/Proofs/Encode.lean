import CoralReef.Codegen.Nv.EncodeShader

/-!
# What the encoders write

The offset and the condition of an encoded instruction, on every target.
-/

/-!
## The fields of encoded instructions

What the encoders put into the fields that a branch is read from.
-/

namespace CoralReef

open BitFields

section

variable {w : Nat}

/-! ## Signed numbers -/

/-- A number of `width` bits in two's complement. -/
def InRange (width : Nat) (value : Int) : Prop :=
  -2 ^ (width - 1) ≤ value ∧ value < 2 ^ (width - 1)

theorem bmod_eq_self_iff {width : Nat} (positive : 0 < width) {value : Int} :
    Int.bmod value (2 ^ width) = value ↔ InRange width value := by
  have half : (2 : Int) ^ width = 2 * 2 ^ (width - 1) := by
    rw [← Int.pow_succ', Nat.sub_add_cancel positive]
  have lower := Int.le_bmod (x := value) (m := 2 ^ width) (Nat.two_pow_pos width)
  have upper := Int.bmod_lt (x := value) (m := 2 ^ width) (Nat.two_pow_pos width)
  push_cast at lower upper
  rw [InRange]
  constructor
  · intro same
    rw [same] at lower upper
    omega
  · intro ⟨low, high⟩
    apply Int.bmod_eq_of_le
    · push_cast
      omega
    · push_cast
      omega

/-- The low bits of a signed value are those of its two's complement. -/
theorem bmod_truncated {bits width : Nat} (short : width ≤ bits) (value : Int) :
    Int.bmod (((value % 2 ^ bits).toNat % 2 ^ width : Nat) : Int) (2 ^ width) =
      Int.bmod value (2 ^ width) := by
  have nonneg : 0 ≤ value % 2 ^ bits := Int.emod_nonneg _ (Int.ne_of_gt (Int.pow_pos (by decide)))
  have divides : ((2 ^ width : Nat) : Int) ∣ 2 ^ bits := by
    have powers := Int.natCast_dvd_natCast.mpr (Nat.pow_dvd_pow 2 short)
    push_cast at powers ⊢
    exact powers
  rw [Int.natCast_emod, Int.toNat_of_nonneg nonneg, Int.emod_emod_of_dvd _ divides, Int.emod_bmod]

/-- A signed value that was set is read back as far as the field can hold it. -/
theorem signedField_setSigned {bits offset width : Nat} (inside : offset + width ≤ w)
    (short : width ≤ bits) (word : BitVec w) (value : Int) :
    signedField (setSigned bits word offset width value) offset width =
      Int.bmod value (2 ^ width) := by
  rw [signedField, setSigned, getField_setField_same inside, bmod_truncated short]

/-! ## Guards -/

/-- What `set_pred` leaves of a word, and what the guard reads. -/
structure Guarded (word word' : BitVec w) (offset : Nat) (pred : Pred) : Prop where
  others : ∀ offset' width', offset' + width' ≤ w →
    offset' + width' ≤ offset ∨ offset + 4 ≤ offset' →
      getField word' offset' width' = getField word offset' width'
  reads : ∀ regs, readPred regs .pred word' offset (offset + 3) = pred.holdsAsPred regs

theorem readPred_set (regs : PredRegs) (file : RegFile) (word : BitVec w) {offset notBit idx : Nat}
    (inside : offset + 3 ≤ w) (inside' : notBit < w)
    (apart : notBit < offset ∨ offset + 3 ≤ notBit) (small : idx ≤ 7) (inverted : Bool) :
    readPred regs file (setBit (setField word offset 3 idx) notBit inverted) offset notBit =
      (regs.vals file idx ^^ inverted) := by
  rw [readPred, setBit, getField_setField_same inside', getField_setField_disjoint inside (by omega),
    getField_setField_same inside, Nat.mod_eq_of_lt (by omega)]
  cases inverted <;> rfl

theorem setPredReg_ok {checked : Bool} {word word' : BitVec w} {offset : Nat} {reg : RegRef}
    (set : setPredReg checked word offset reg = .ok word') :
    (checked → reg.file = .pred) ∧ reg.baseIdx ≤ 7 ∧
      word' = setField word offset 3 reg.baseIdx := by
  simp only [setPredReg, bind_eq_ok] at set
  rcases set with ⟨_, file, _, small, _, _, done⟩
  cases done
  refine ⟨?_, of_decide_eq_true (assertThat_eq_ok.mp small), rfl⟩
  intro is_checked
  rw [is_checked] at file
  exact of_decide_eq_true (assertThat_eq_ok.mp file)

/-- The register that a guard is encoded with. -/
def guardReg (pred : Pred) : Except Fault RegRef :=
  match pred.predicate with
  | .none => .ok (trueReg .pred)
  | .reg reg => .ok reg
  | .ssa _ => .error (.panic "SSA values must be lowered")

theorem setPred_eq (checked : Bool) (word : BitVec w) (offset : Nat) (pred : Pred) :
    setPred checked word offset pred =
      assertThat (!pred.isFalse) "!pred.is_false()" >>= fun _ =>
        guardReg pred >>= fun reg =>
          setPredReg checked word offset reg >>= fun word =>
            .ok (setBit word (offset + 3) pred.inverted) := by
  rw [setPred, guardReg]
  cases pred.predicate <;> rfl

theorem setPred_ok {checked : Bool} {word word' : BitVec w} {offset : Nat} {pred : Pred}
    (inside : offset + 4 ≤ w) (set : setPred checked word offset pred = .ok word') :
    Guarded word word' offset pred ∧
      (checked → ∀ regs, pred.holdsAsPred regs = pred.holdsIn regs) := by
  simp only [setPred_eq, bind_eq_ok] at set
  rcases set with ⟨_, _, reg, found, between, numbered, done⟩
  rcases setPredReg_ok numbered with ⟨file, small, rfl⟩
  cases done
  constructor
  · constructor
    · intro offset' width' inside' apart
      rw [setBit, getField_setField_disjoint inside' (by omega),
        getField_setField_disjoint inside' (by omega)]
    · intro regs
      rw [readPred_set regs .pred word (by omega) (by omega) (by omega) small, Pred.holdsAsPred]
      cases guard : pred.predicate with
      | none =>
          rw [guardReg, guard] at found
          cases found
          rw [trueReg, regs.pt, Bool.true_xor]
      | reg named =>
          rw [guardReg, guard] at found
          cases found
          rfl
      | ssa value =>
          rw [guardReg, guard] at found
          cases found
  · intro is_checked regs
    rw [Pred.holdsAsPred, Pred.holdsIn]
    cases guard : pred.predicate with
    | none => rfl
    | reg named =>
        rw [guardReg, guard] at found
        cases found
        dsimp only
        rw [file is_checked]
    | ssa value => rfl

end

theorem relOffset_ok {labels : Labels} {ip : Nat} {label : Label} {offset : Int}
    (found : relOffset labels ip label = .ok offset) :
    ∃ t, labels label = some t ∧ offset = (t : Int) - ip - 8 := by
  simp only [relOffset, bind_eq_ok, expect_eq_ok] at found
  rcases found with ⟨_, _, t, labelled, _, _, done⟩
  cases done
  exact ⟨t, labelled, rfl⟩

section

variable {w : Nat} {word word' : BitVec w}

theorem signedField_congr {offset width : Nat}
    (same : getField word' offset width = getField word offset width) :
    signedField word' offset width = signedField word offset width := by
  rw [signedField, signedField, same]

/-- A guard leaves the signed fields apart from it. -/
theorem Guarded.signedField_eq {guard : Nat} {pred : Pred} (guarded : Guarded word word' guard pred)
    {offset width : Nat} (inside : offset + width ≤ w)
    (apart : offset + width ≤ guard ∨ guard + 4 ≤ offset) :
    signedField word' offset width = signedField word offset width :=
  signedField_congr (guarded.others offset width inside apart)

end

/-! ## SM20 -/

namespace Sm20Encoder

variable {others : OtherWords} {labels : Labels} {ip : Nat} {word : BitVec 64}

theorem encodeOp_target {op : CfOp} (encoded : encodeOp others labels ip op = .ok word)
    {label : Label} (leads : op.target = some label) :
    ∃ t, labels label = some t ∧
      signedField word 26 24 = Int.bmod ((t : Int) - ip - 8) (2 ^ 24) := by
  cases op with
  | bra target cond | push kind target =>
      cases leads
      simp only [encodeOp, bind_eq_ok] at encoded
      rcases encoded with ⟨offset, found, done⟩
      cases done
      rcases relOffset_ok found with ⟨t, labelled, rfl⟩
      exact ⟨t, labelled, signedField_setSigned (by decide) (by decide) _ _⟩
  | bssy => cases encoded
  | nop | other => cases leads

theorem encodeOp_bra {target : Label} {cond : Src}
    (encoded : encodeOp others labels ip (.bra target cond) = .ok word) :
    getField word 5 4 = 0xf := by
  simp only [encodeOp, bind_eq_ok] at encoded
  rcases encoded with ⟨offset, _, done⟩
  cases done
  simp only [setSigned, setBit]
  rw [getField_setField_disjoint (by decide) (by decide),
    getField_setField_disjoint (by decide) (by decide),
    getField_setField_disjoint (by decide) (by decide), getField_setField_same (by decide)]
  rfl

end Sm20Encoder

/-! ## SM32 -/

namespace Sm32Encoder

variable {others : OtherWords} {labels : Labels} {ip : Nat} {word : BitVec 64}

theorem setRelOffset_ok {before : BitVec 64} {label : Label}
    (encoded : setRelOffset labels ip before label = .ok word) :
    ∃ t, labels label = some t ∧ word = setSigned 32 before 23 24 ((t : Int) - ip - 8) := by
  simp only [setRelOffset, bind_eq_ok] at encoded
  rcases encoded with ⟨_, _, offset, found, _, _, _, _, done⟩
  cases done
  rcases relOffset_ok found with ⟨t, labelled, rfl⟩
  exact ⟨t, labelled, rfl⟩

theorem encodeOp_target {op : CfOp} (encoded : encodeOp others labels ip op = .ok word)
    {label : Label} (leads : op.target = some label) :
    ∃ t, labels label = some t ∧
      signedField word 23 24 = Int.bmod ((t : Int) - ip - 8) (2 ^ 24) := by
  cases op with
  | bra target cond | push kind target =>
      cases leads
      rcases setRelOffset_ok encoded with ⟨t, labelled, rfl⟩
      exact ⟨t, labelled, signedField_setSigned (by decide) (by decide) _ _⟩
  | bssy => cases encoded
  | nop | other => cases leads

theorem encodeOp_bra {target : Label} {cond : Src}
    (encoded : encodeOp others labels ip (.bra target cond) = .ok word) :
    getField word 2 4 = 0xf := by
  rcases setRelOffset_ok encoded with ⟨t, _, rfl⟩
  rw [setSigned, getField_setField_disjoint (by decide) (by decide),
    getField_setField_same (by decide)]
  rfl

end Sm32Encoder

/-! ## SM50 -/

namespace Sm50Encoder

variable {others : OtherWords} {labels : Labels} {ip : Nat} {word : BitVec 64}

theorem encodeOp_target {op : CfOp} (encoded : encodeOp others labels ip op = .ok word)
    {label : Label} (leads : op.target = some label) :
    ∃ t, labels label = some t ∧
      signedField word 20 24 = Int.bmod ((t : Int) - ip - 8) (2 ^ 24) := by
  have behind : ∀ {before : BitVec 64} {t : Nat},
      signedField (setField (setSigned 32 before 20 24 ((t : Int) - ip - 8)) 0 5 predTrue) 20 24 =
        Int.bmod ((t : Int) - ip - 8) (2 ^ 24) := by
    intro before t
    rw [signedField_congr (getField_setField_disjoint (by decide) (by decide) ..)]
    exact signedField_setSigned (by decide) (by decide) _ _
  cases op with
  | bra target cond | push kind target =>
      cases leads
      simp only [encodeOp, bind_eq_ok] at encoded
      rcases encoded with ⟨offset, found, done⟩
      cases done
      rcases relOffset_ok found with ⟨t, labelled, rfl⟩
      exact ⟨t, labelled, behind⟩
  | bssy => cases encoded
  | nop | other => cases leads

theorem encodeOp_bra {target : Label} {cond : Src}
    (encoded : encodeOp others labels ip (.bra target cond) = .ok word) :
    getField word 0 5 = 0xf := by
  simp only [encodeOp, bind_eq_ok] at encoded
  rcases encoded with ⟨offset, _, done⟩
  cases done
  rw [getField_setField_same (by decide), predTrue]
  rfl

end Sm50Encoder

/-! ## SM70 -/

namespace Sm70Encoder

variable {others : OtherWords} {sm : Nat} {labels : Labels} {ip : Nat} {word : BitVec 128}

theorem getRelOffset_ok {label : Label} {offset : Int}
    (found : getRelOffset labels ip label = .ok offset) :
    ∃ t, labels label = some t ∧ offset = (t : Int) - ip - 4 := by
  simp only [getRelOffset, bind_eq_ok, expect_eq_ok] at found
  rcases found with ⟨_, _, t, labelled, _, _, done⟩
  cases done
  exact ⟨t, labelled, rfl⟩

/-- The register that a predicate source is encoded with, and whether it is inverted. -/
def predSrcReg (src : Src) (file : RegFile) : Except Fault (Bool × RegRef) :=
  match src.reference with
  | .boolTrue => .ok (false, trueReg file)
  | .boolFalse => .ok (true, trueReg file)
  | .reg reg => (assertThat (reg.file = file) "reg.file() == file").map fun _ => (false, reg)
  | _ => .error (.panic "SSA values must be lowered to registers before encoding")

theorem setPredSrcFile_eq (word : BitVec 128) (offset notBit : Nat) (src : Src) (file : RegFile) :
    setPredSrcFile word offset notBit src file =
      predSrcReg src file >>= fun found =>
        setPredReg false word offset found.2 >>= fun word =>
          srcModIsBnot src.modifier >>= fun bnot =>
            .ok (setBit word notBit (found.1 ^^ bnot)) := by
  rw [setPredSrcFile, predSrcReg]
  cases src.reference <;> rfl

theorem srcModIsBnot_ok {modifier : SrcMod} {bnot : Bool}
    (found : srcModIsBnot modifier = .ok bnot) : bnot = decide (modifier = .bNot) := by
  cases modifier <;> cases found <;> rfl

/-- A predicate source is encoded as a register that is read as the source is. -/
theorem setPredSrcFile_ok {before : BitVec 128} {offset notBit : Nat} {src : Src} {file : RegFile}
    (set : setPredSrcFile before offset notBit src file = .ok word) :
    ∃ idx inverted, idx ≤ 7 ∧ word = setBit (setField before offset 3 idx) notBit inverted ∧
      ∀ regs : PredRegs, regs.vals file 7 = true →
        (regs.vals file idx ^^ inverted) = src.holdsIn regs := by
  simp only [setPredSrcFile_eq, bind_eq_ok] at set
  rcases set with ⟨⟨inverted, reg⟩, found, between, numbered, bnot, negated, done⟩
  cases done
  rcases setPredReg_ok numbered with ⟨_, small, rfl⟩
  cases srcModIsBnot_ok negated
  refine ⟨reg.baseIdx, _, small, rfl, ?_⟩
  intro regs always
  rw [predSrcReg] at found
  rw [Src.holdsIn]
  cases reference : src.reference with
  | boolTrue | boolFalse =>
      rw [reference] at found
      cases found
      simp [trueReg, always]
  | reg named =>
      rw [reference] at found
      by_cases same : named.file = file
      · simp only [same, decide_true, assertThat_true, Except.map, Except.ok.injEq,
          Prod.mk.injEq] at found
        rcases found with ⟨rfl, rfl⟩
        simp [same]
      · simp [same, Except.map] at found
  | zero | ssa | imm32 | cbuf =>
      rw [reference] at found
      cases found

/-- A branch leaves the fields apart from its offset. -/
theorem getField_setBraOffset {offset width : Nat} (inside : offset + width ≤ 128)
    (apart : (offset + width ≤ 16 ∨ 24 ≤ offset) ∧ (offset + width ≤ 34 ∨ 82 ≤ offset))
    (value : Int) : getField (setBraOffset sm word value) offset width =
      getField word offset width := by
  rw [setBraOffset]
  split
  · rw [setSigned2, getField_setField_disjoint inside (by omega),
      getField_setField_disjoint inside (by omega)]
  · rw [setSigned, getField_setField_disjoint inside (by omega)]

/-- What a branch reads of its condition. -/
def readsCond (regs : PredRegs) (word : BitVec 128) : Bool :=
  readPred regs .pred word 87 90 &&
    (getField word 32 1 = 0 || readPred regs .upred word 24 27)

theorem decide_toNat (value : Bool) : decide (value.toNat % 2 = 1) = value := by
  cases value <;> rfl

theorem encodeBraCond_ok {cond : Src} (based : encodeBraCond sm cond = .ok word) :
    getField word 0 12 ≠ 0x945 ∧ ∀ regs, readsCond regs word = cond.holdsIn regs := by
  rw [encodeBraCond] at based
  split at based
  · simp only [bind_eq_ok] at based
    rcases based with ⟨_, _, before, set, done⟩
    cases done
    rcases setPredSrcFile_ok set with ⟨idx, inverted, small, rfl, reads⟩
    constructor
    · simp (disch := omega) only [setBit, setOpcode, getField_setField_disjoint,
        getField_setField_same]
      decide
    · intro regs
      rw [readsCond, ← reads regs regs.upt, readPred, readPred]
      simp (disch := omega) only [setBit, setOpcode, getField_setField_disjoint,
        getField_setField_same, Nat.mod_eq_of_lt, Bool.toNat_true, getField_zero]
      simp [regs.pt, decide_toNat]
  · rcases setPredSrcFile_ok based with ⟨idx, inverted, small, rfl, reads⟩
    constructor
    · simp (disch := omega) only [setBit, setOpcode, getField_setField_disjoint,
        getField_setField_same]
      decide
    · intro regs
      rw [readsCond, ← reads regs regs.pt, readPred, readPred]
      simp (disch := omega) only [setBit, setOpcode, getField_setField_disjoint,
        getField_setField_same, Nat.mod_eq_of_lt]
      simp [decide_toNat]

/-- An offset is read back, from both fields on SM100. -/
theorem offsetField_setBraOffset (value : Int) (branches : getField word 0 12 ≠ 0x945) :
    (NvTarget.sm70 sm).offsetField (setBraOffset sm word value) =
      Int.bmod value (2 ^ if 100 ≤ sm then 56 else 48) := by
  rw [NvTarget.offsetField, getField_setBraOffset (by decide) (by decide), if_neg branches]
  by_cases split : 100 ≤ sm
  · rw [if_pos split, if_pos split, setBraOffset, if_pos split, setSigned2,
      getField_setField_disjoint (by decide) (by decide), getField_setField_same (by decide),
      getField_setField_same (by decide), Nat.mod_mod]
    have joined : ∀ bits, bits % 2 ^ 8 + 2 ^ 8 * (bits / 2 ^ 8 % 2 ^ 48) = bits % 2 ^ 56 :=
      fun bits => Nat.mod_mul.symm
    have whole := congrArg (fun bits : Nat => Int.bmod bits (2 ^ 56))
      (joined (value % 2 ^ 64).toNat)
    exact whole.trans (bmod_truncated (by decide) value)
  · rw [if_neg split, if_neg split, setBraOffset, if_neg split,
      signedField_setSigned (by decide) (by decide)]

/-- A schedule is encoded behind everything else. -/
theorem getField_setInstrDeps {offset width : Nat} (low : offset + width ≤ 105)
    (deps : EncodedDeps) : getField (setInstrDeps sm word deps) offset width =
      getField word offset width := by
  rw [setInstrDeps]
  split
  · simp (disch := omega) only [setBit, getField_setField_disjoint]
  · simp (disch := omega) only [getField_setField_disjoint]

/-- The word of an instruction is that of its op with a guard and a schedule. -/
theorem encodeInstr_ok {instr : CfInstr}
    (encoded : encodeInstr others sm labels ip instr = .ok word) :
    ∃ before, encodeOp others sm labels ip instr.op = .ok before ∧
      (∀ offset width, offset + width ≤ 105 → offset + width ≤ 12 ∨ 16 ≤ offset →
        getField word offset width = getField before offset width) ∧
      ∀ regs, readPred regs .pred word 12 15 = instr.pred.holdsAsPred regs := by
  simp only [encodeInstr, bind_eq_ok] at encoded
  rcases encoded with ⟨before, ops, between, guarded, done⟩
  cases done
  rcases setPred_ok (by decide) guarded with ⟨guard, _⟩
  refine ⟨before, ops, ?_, ?_⟩
  · intro offset width low apart
    rw [getField_setInstrDeps low, guard.others _ _ (by omega) (by omega)]
  · intro regs
    rw [← guard.reads regs, readPred, readPred, getField_setInstrDeps (by decide),
      getField_setInstrDeps (by decide)]

theorem encodeInstr_target {instr : CfInstr}
    (encoded : encodeInstr others sm labels ip instr = .ok word) {label : Label}
    (leads : instr.op.target = some label) :
    ∃ t, labels label = some t ∧ (NvTarget.sm70 sm).offsetField word =
      Int.bmod ((t : Int) - ip - 4) (2 ^ (NvTarget.sm70 sm).offsetBits instr.op) := by
  rcases encodeInstr_ok encoded with ⟨before, ops, kept, _⟩
  have same : (NvTarget.sm70 sm).offsetField word = (NvTarget.sm70 sm).offsetField before := by
    rw [NvTarget.offsetField, NvTarget.offsetField, signedField, signedField, signedField,
      signedField, kept _ _ (by decide) (by decide), kept _ _ (by decide) (by decide),
      kept _ _ (by decide) (by decide), kept _ _ (by decide) (by decide)]
  rw [same]
  cases op : instr.op with
  | bra target cond =>
      rw [op] at ops leads
      cases leads
      simp only [encodeOp, bind_eq_ok] at ops
      rcases ops with ⟨based, conditioned, offset, found, done⟩
      cases done
      rcases getRelOffset_ok found with ⟨t, labelled, rfl⟩
      exact ⟨t, labelled, offsetField_setBraOffset _ (encodeBraCond_ok conditioned).1⟩
  | bssy barOut barIn cond target =>
      rw [op] at ops leads
      cases leads
      simp only [encodeOp, bind_eq_ok] at ops
      rcases ops with ⟨_, _, barred, set, offset, found, conditioned⟩
      rcases getRelOffset_ok found with ⟨t, labelled, rfl⟩
      rcases setPredSrcFile_ok conditioned with ⟨idx, inverted, _, rfl, _⟩
      simp only [setBarDst, bind_eq_ok] at set
      rcases set with ⟨_, _, _, _, _, _, done⟩
      cases done
      refine ⟨t, labelled, ?_⟩
      rw [NvTarget.offsetField, if_pos]
      · have behind : ∀ word : BitVec 128,
            getField (setField word 87 3 idx) 34 30 = getField word 34 30 :=
          fun word => getField_setField_disjoint (by decide) (by decide) word idx
        rw [setBit, signedField_congr (getField_setField_disjoint (by decide) (by decide) ..),
          signedField_congr (behind _), signedField_setSigned (by decide) (by decide)]
        rfl
      · simp (disch := omega) only [setBit, setSigned, setOpcode, getField_setField_disjoint,
          getField_setField_same, Nat.reducePow, Nat.reduceMod]
  | push kind target =>
      rw [op] at ops
      cases ops
  | nop | other =>
      rw [op] at leads
      cases leads

theorem encodeInstr_bra {instr : CfInstr} {target : Label} {cond : Src}
    (branches : instr.op = .bra target cond)
    (encoded : encodeInstr others sm labels ip instr = .ok word) (regs : PredRegs) :
    (NvTarget.sm70 sm).takes regs word = (instr.pred.holdsAsPred regs && cond.holdsIn regs) := by
  rcases encodeInstr_ok encoded with ⟨before, ops, kept, guarded⟩
  rw [branches] at ops
  simp only [encodeOp, bind_eq_ok] at ops
  rcases ops with ⟨based, conditioned, offset, _, done⟩
  cases done
  have cond_kept : ∀ offset width, offset + width ≤ 105 → 24 ≤ offset →
      offset + width ≤ 34 ∨ 82 ≤ offset → getField word offset width = getField based offset width := by
    intro offset width low behind apart
    rw [kept offset width low (by omega), getField_setBraOffset (by omega) (by omega)]
  rw [← (encodeBraCond_ok conditioned).2 regs, ← guarded regs, NvTarget.takes, Bool.and_assoc,
    readsCond]
  simp only [readPred]
  rw [cond_kept 87 3 (by decide) (by decide) (by decide),
    cond_kept 90 1 (by decide) (by decide) (by decide),
    cond_kept 32 1 (by decide) (by decide) (by decide),
    cond_kept 24 3 (by decide) (by decide) (by decide),
    cond_kept 27 1 (by decide) (by decide) (by decide)]

end Sm70Encoder

end CoralReef
