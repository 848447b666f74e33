import CoralReef.Codegen.Ir.AluPass

/-!
# Permutes of permutes

`codegen/opt_prmt.rs`: the sources of a byte permute that are permutes themselves are replaced by
the sources of those. The loops of the source run until a try changes nothing; here they run on
fuel. Debug assertions are checked, as in a debug build.
-/

namespace CoralReef

/-- `PrmtSrcs`: the sources of a new permute, one of which may collect immediate bytes. -/
structure PrmtSrcs where
  srcs : Fin 2 → SrcRef := fun _ => .zero
  numSrcs : Nat := 0
  /-- `imm_src`, where `usize::MAX` is `none`. -/
  immSrc : Option (Fin 2) := none
  numImmBytes : Nat := 0

namespace PrmtSrcs

/-- `PrmtSrcs::try_add_src`. -/
def tryAddSrc (prmtSrcs : PrmtSrcs) (src : SrcRef) : Option (Fin 2 × PrmtSrcs) :=
  match (List.finRange 2).find? fun i => i.val < prmtSrcs.numSrcs ∧ prmtSrcs.srcs i = src with
  | some i => some (i, prmtSrcs)
  | none =>
    if room : prmtSrcs.numSrcs < 2 then
      let i : Fin 2 := ⟨prmtSrcs.numSrcs, room⟩
      some (i, { prmtSrcs with
        numSrcs := prmtSrcs.numSrcs + 1, srcs := Function.update prmtSrcs.srcs i src })
    else none

/-- The first part of `try_add_imm_u8`: the source that the immediate bytes are put into. -/
def withImmSrc (prmtSrcs : PrmtSrcs) : Option (Fin 2 × PrmtSrcs) :=
  match prmtSrcs.immSrc with
  | some i => some (i, prmtSrcs)
  | none =>
    if room : prmtSrcs.numSrcs < 2 then
      let i : Fin 2 := ⟨prmtSrcs.numSrcs, room⟩
      some (i, { prmtSrcs with immSrc := some i, numSrcs := prmtSrcs.numSrcs + 1 })
    else none

/-- The byte `u`, put at place `b` of a word. -/
def immByte (u : BitVec 8) (b : Nat) : BitVec 32 := u.zeroExtend 32 <<< (b * 8)

/-- `PrmtSrcs::try_add_imm_u8`: with the byte of the source it is found in. -/
def tryAddImmU8 (prmtSrcs : PrmtSrcs) (u : BitVec 8) :
    Except Fault (Option ((Fin 2 × Nat) × PrmtSrcs)) :=
  match prmtSrcs.withImmSrc with
  | none => .ok none
  | some (i, prmtSrcs) =>
    let b := prmtSrcs.numImmBytes
    match prmtSrcs.srcs i with
    | .zero =>
      if u = 0 then do
        assertThat (prmtSrcs.numImmBytes ≤ 1) "self.num_imm_bytes <= 1"
        return some ((i, 0), { prmtSrcs with numImmBytes := 1 })
      else
        let imm := SrcRef.imm32 (immByte u b).toNat
        return some ((i, b), { prmtSrcs with
          numImmBytes := b + 1, srcs := Function.update prmtSrcs.srcs i imm })
    | .imm32 imm =>
      let imm := SrcRef.imm32 (BitVec.ofNat 32 imm ||| immByte u b).toNat
      return some ((i, b), { prmtSrcs with
        numImmBytes := b + 1, srcs := Function.update prmtSrcs.srcs i imm })
    | _ => .error (.panic "We said this was the imm src")

end PrmtSrcs

namespace OpPrmt

/-- `*op.sel_mut() = sel.into()`. -/
def withSel (op : OpPrmt) (sel : PrmtSel) : OpPrmt :=
  { op with srcs := Function.update op.srcs 2 { reference := .ofU32 (sel.bits.zeroExtend 32) } }

/-- `op.srcs[i] = reference.into()`. -/
def withSource (op : OpPrmt) (i : Fin 2) (reference : SrcRef) : OpPrmt :=
  { op with srcs := Function.update op.srcs (i.castLE two_le_three) { reference } }

end OpPrmt

structure PrmtEntry where
  sel : PrmtSel
  srcs : Fin 2 → SrcRef

/-- `PrmtPass::ssa_prmt`. -/
abbrev PrmtPass := SSAValue → Option PrmtEntry

namespace PrmtPass

/-- `PrmtPass::add_prmt`. -/
def addPrmt (pass : PrmtPass) (op : OpPrmt) : Except Fault PrmtPass :=
  match op.dst with
  | .ssa vec => do
    assertThat (vec.length = 1) "dst_ssa.comps() == 1"
    let dst ← expect vec.head? "dst_ssa[0]"
    match ← op.getSel with
    | none => return pass
    | some sel => do
      assertThat (op.source 0).isUnmodified "op.srcs[0].is_unmodified()"
      assertThat (op.source 1).isUnmodified "op.srcs[1].is_unmodified()"
      return Function.update pass dst (some { sel, srcs := fun i => (op.source i).reference })
  | _ => .ok pass

/-- `PrmtPass::get_prmt_for_src`. -/
def getPrmtForSrc (pass : PrmtPass) (src : Src) : Except Fault (Option PrmtEntry) := do
  assertThat src.isUnmodified "src.is_unmodified()"
  match src.reference with
  | .ssa vec => do
    assertThat (vec.length = 1) "vec.comps() == 1"
    let ssa ← expect vec.head? "vec[0]"
    return pass ssa
  | _ => return none

/-- The loop over the bytes in `try_opt_prmt_src`, which gives up when the bytes of source
`srcIdx` come from two sources of its permute: the new bytes, and the source they come from. -/
def substBytes (opSel srcSel : PrmtSel) (srcIdx : Fin 2) :
    Option (Fin 2) → List (Fin 4) → Option (List PrmtSelByte × Option (Fin 2))
  | srcPrmtSrc, [] => some ([], srcPrmtSrc)
  | srcPrmtSrc, i :: rest =>
    let opSelByte := opSel.get i
    if opSelByte.src ≠ srcIdx then
      (substBytes opSel srcSel srcIdx srcPrmtSrc rest).map fun found =>
        (opSelByte :: found.1, found.2)
    else
      let srcSelByte := srcSel.get opSelByte.byte
      if srcPrmtSrc ≠ none ∧ srcPrmtSrc ≠ some srcSelByte.src then none
      else
        let newByte := PrmtSelByte.new srcIdx srcSelByte.byte (opSelByte.msb || srcSelByte.msb)
        (substBytes opSel srcSel srcIdx (some srcSelByte.src) rest).map fun found =>
          (newByte :: found.1, found.2)

/-- The operand that replaces a source whose bytes come from source `j` of its permute; with no
such bytes it does not matter. -/
def substitute (entry : PrmtEntry) (srcPrmtSrc : Option (Fin 2)) : SrcRef :=
  match srcPrmtSrc with
  | none => .zero
  | some j => entry.srcs j

/-- `PrmtPass::try_opt_prmt_src`. -/
def tryOptPrmtSrc (pass : PrmtPass) (srcIdx : Fin 2) (op : OpPrmt) :
    Except Fault (Option OpPrmt) := do
  match ← op.getSel with
  | none => return none
  | some opSel =>
    match ← pass.getPrmtForSrc (op.source srcIdx) with
    | none => return none
    | some srcPrmt =>
      match substBytes opSel srcPrmt.sel srcIdx none (List.finRange 4) with
      | none => return none
      | some (newSel, srcPrmtSrc) =>
        return some ((op.withSel (.new newSel)).withSource srcIdx (substitute srcPrmt srcPrmtSrc))

/-- What one byte of a result is: a constant, or a byte of an operand. -/
inductive PrmtByte where
  | imm (u : BitVec 8)
  | src (reference : SrcRef) (byte : Fin 4) (msb : Bool)

/-- What a selector byte takes, looking through the permute it takes it from. -/
def prmtByte (pass : PrmtPass) (op : OpPrmt) (opSelByte : PrmtSelByte) : Except Fault PrmtByte := do
  let src := op.source opSelByte.src
  match ← pass.getPrmtForSrc src with
  | some srcPrmt =>
    let srcSelByte := srcPrmt.sel.get opSelByte.byte
    let srcPrmtSrc := srcPrmt.srcs srcSelByte.src
    match ← srcPrmtSrc.asU32 with
    | some u =>
      let immU8 := srcSelByte.foldU32 u
      return .imm (if opSelByte.msb then signByte immU8 else immU8)
    | none => return .src srcPrmtSrc srcSelByte.byte (opSelByte.msb || srcSelByte.msb)
  | none =>
    match ← src.asU32 .alu with
    | some u => return .imm (opSelByte.foldU32 u)
    | none => return .src src.reference opSelByte.byte opSelByte.msb

/-- Find or make room for a byte among the sources. -/
def addByte (prmtSrcs : PrmtSrcs) : PrmtByte → Except Fault (Option (PrmtSelByte × PrmtSrcs))
  | .imm u => do
    match ← prmtSrcs.tryAddImmU8 u with
    | none => return none
    | some ((i, byteIdx), prmtSrcs) =>
      if inside : byteIdx < 4 then return some (.new i ⟨byteIdx, inside⟩ false, prmtSrcs)
      else .error (.panic "byte_idx < 4")
  | .src reference byte msb =>
    match prmtSrcs.tryAddSrc reference with
    | none => .ok none
    | some (i, prmtSrcs) => .ok (some (.new i byte msb, prmtSrcs))

/-- The loop over the bytes in `try_opt_prmt4`. -/
def optBytes (pass : PrmtPass) (op : OpPrmt) (opSel : PrmtSel) :
    List (Fin 4) → PrmtSrcs → Except Fault (Option (List PrmtSelByte × PrmtSrcs))
  | [], prmtSrcs => .ok (some ([], prmtSrcs))
  | i :: rest, prmtSrcs => do
    match ← addByte prmtSrcs (← pass.prmtByte op (opSel.get i)) with
    | none => return none
    | some (selByte, prmtSrcs) =>
      match ← optBytes pass op opSel rest prmtSrcs with
      | none => return none
      | some (newSel, prmtSrcs) => return some (selByte :: newSel, prmtSrcs)

/-- `PrmtPass::try_opt_prmt4`. -/
def tryOptPrmt4 (pass : PrmtPass) (op : OpPrmt) : Except Fault (Option OpPrmt) := do
  match ← op.getSel with
  | none => return none
  | some opSel =>
    match ← optBytes pass op opSel (List.finRange 4) {} with
    | none => return none
    | some (newSel, prmtSrcs) =>
      let newSel := PrmtSel.new newSel
      if newSel = opSel ∧ prmtSrcs.srcs 0 = (op.source 0).reference ∧
          prmtSrcs.srcs 1 = (op.source 1).reference then
        return none
      else
        return some (((op.withSel newSel).withSource 0 (prmtSrcs.srcs 0)).withSource 1
          (prmtSrcs.srcs 1))

/-- `PrmtPass::opt_prmt`. -/
def optPrmt (fuel : Nat) (pass : PrmtPass) (op : OpPrmt) : Except Fault (OpPrmt × PrmtPass) := do
  let op ← loopWhileSome (pass.tryOptPrmtSrc 0) fuel op
  let op ← loopWhileSome (pass.tryOptPrmtSrc 1) fuel op
  let op ← loopWhileSome pass.tryOptPrmt4 fuel op
  let pass ← pass.addPrmt op
  return (op, pass)

/-- The body of the loop of `PrmtPass::run`. -/
def optInstr (fuel : Nat) (pass : PrmtPass) (instr : AluInstr) :
    Except Fault (AluInstr × PrmtPass) :=
  match instr.op with
  | .prmt op => do
    let (op, pass) ← pass.optPrmt fuel op
    return ({ instr with op := .prmt op }, pass)
  | _ => .ok (instr, pass)

end PrmtPass

/-- `Shader::opt_prmt`, of one function. -/
def AluFunction.optPrmt (fuel : Nat) (f : AluFunction) : Except Fault AluFunction :=
  f.mapInstrs (PrmtPass.optInstr fuel) fun _ => none

end CoralReef
