import CoralReef.Codegen.Ir.Instr

/-!
# Rewriting the SSA operands of an instruction

`for_each_ssa_use_mut` and `for_each_ssa_def_mut`, with the new values given in the order in
which the source visits them, and the laws that connect them to `ssaUses` and `ssaDefs`.
-/

open List

namespace CoralReef

/-- A rewriting of the SSA values that a kind of operand names: `read` lists them and `write`
replaces them by as many others. -/
structure Rewriting {α : Type} (read : α → List SSAValue) (write : α → List SSAValue → α) :
    Prop where
  read_write : ∀ a vals, vals.length = (read a).length → read (write a vals) = vals
  write_write : ∀ a vals vals', vals.length = (read a).length → vals'.length = (read a).length →
    write (write a vals) vals' = write a vals'

namespace Rewriting

variable {α : Type} {read : α → List SSAValue} {write : α → List SSAValue → α}

/-- Give the operands of a list new values, in order. -/
def writeAll (read : α → List SSAValue) (write : α → List SSAValue → α) :
    List α → List SSAValue → List α
  | [], _ => []
  | a :: as, vals =>
    write a (vals.take (read a).length) :: writeAll read write as (vals.drop (read a).length)

@[simp] theorem writeAll_length (as : List α) (vals : List SSAValue) :
    (writeAll read write as vals).length = as.length := by
  induction as generalizing vals with
  | nil => rfl
  | cons a as ih => simp [writeAll, ih]

/-- A list of operands is rewritten operand by operand. -/
theorem all (rewriting : Rewriting read write) :
    Rewriting (fun as : List α => as.flatMap read) (writeAll read write) where
  read_write := by
    intro as
    induction as with
    | nil =>
      intro vals length
      exact (length_eq_zero_iff.mp length).symm
    | cons a as ih =>
      intro vals length
      rw [flatMap_cons, length_append] at length
      rw [writeAll, flatMap_cons, rewriting.read_write, ih, take_append_drop]
      · rw [length_drop]
        omega
      · rw [length_take]
        omega
  write_write := by
    intro as
    induction as with
    | nil => exact fun _ _ _ _ => rfl
    | cons a as ih =>
      intro vals vals' length length'
      rw [flatMap_cons, length_append] at length length'
      have first : (vals.take (read a).length).length = (read a).length := by
        rw [length_take]
        omega
      have first' : (vals'.take (read a).length).length = (read a).length := by
        rw [length_take]
        omega
      have rest : (vals.drop (read a).length).length = (as.flatMap read).length := by
        rw [length_drop]
        omega
      have rest' : (vals'.drop (read a).length).length = (as.flatMap read).length := by
        rw [length_drop]
        omega
      have kept := rewriting.read_write a _ first
      simp only [writeAll]
      rw [kept, first, rewriting.write_write a _ _ first first', ih _ _ rest rest']

end Rewriting

theorem Src.rewriting : Rewriting Src.iterSsa Src.setSsa where
  read_write := by
    intro src vals length
    obtain ⟨reference, modifier, swizzle⟩ := src
    cases reference with
    | ssa vec => rfl
    | cbuf cb =>
      obtain ⟨buf, offset⟩ := cb
      cases buf with
      | bindlessSSA lo hi =>
        obtain ⟨lo', hi', rfl⟩ := length_eq_two.mp length
        rfl
      | binding | bindlessUGPR => exact (length_eq_zero_iff.mp length).symm
    | zero | boolTrue | boolFalse | imm32 | reg => exact (length_eq_zero_iff.mp length).symm
  write_write := by
    intro src vals vals' length length'
    obtain ⟨reference, modifier, swizzle⟩ := src
    cases reference with
    | ssa vec => rfl
    | cbuf cb =>
      obtain ⟨buf, offset⟩ := cb
      cases buf with
      | bindlessSSA lo hi =>
        obtain ⟨lo', hi', rfl⟩ := length_eq_two.mp length
        obtain ⟨lo', hi', rfl⟩ := length_eq_two.mp length'
        rfl
      | binding | bindlessUGPR => rfl
    | zero | boolTrue | boolFalse | imm32 | reg => rfl

theorem Dst.rewriting : Rewriting Dst.iterSsa Dst.setSsa where
  read_write := by
    intro dst vals length
    cases dst with
    | ssa vec => rfl
    | none | reg => exact (length_eq_zero_iff.mp length).symm
  write_write := by
    intro dst vals vals' _ _
    cases dst <;> rfl

theorem Pred.rewriting : Rewriting Pred.iterSsa Pred.setSsa where
  read_write := by
    intro pred vals length
    obtain ⟨predicate, inverted⟩ := pred
    cases predicate with
    | ssa ssa =>
      obtain ⟨ssa', rfl⟩ := length_eq_one_iff.mp length
      rfl
    | none | reg => exact (length_eq_zero_iff.mp length).symm
  write_write := by
    intro pred vals vals' length length'
    obtain ⟨predicate, inverted⟩ := pred
    cases predicate with
    | ssa ssa =>
      obtain ⟨ssa', rfl⟩ := length_eq_one_iff.mp length
      obtain ⟨ssa'', rfl⟩ := length_eq_one_iff.mp length'
      rfl
    | none | reg => rfl

namespace Op

variable (op : Op)

/-- The op with other sources, as many as it has. -/
def setSrcs : Op → List Src → Op
  | .phiSrcs srcs, new => .phiSrcs ((srcs.map Prod.fst).zip new)
  | .copy dst _, [src] => .copy dst src
  | .swap dst₀ dst₁ _ _, [src₀, src₁] => .swap dst₀ dst₁ src₀ src₁
  | .parCopy pcopy, new =>
    .parCopy { pcopy with dstsSrcs := (pcopy.dstsSrcs.map Prod.fst).zip new }
  | .pin dst _, [src] => .pin dst src
  | .unpin dst _, [src] => .unpin dst src
  | .break_ barOut _ _, [barIn, cond] => .break_ barOut barIn cond
  | .bssy barOut _ _ target, [barIn, cond] => .bssy barOut barIn cond target
  | .regOut _, new => .regOut new
  | .bra target _, [cond] => .bra target cond
  | .other op dsts _, new => .other op dsts new
  | op, _ => op

/-- The op with other destinations, as many as it has. -/
def setDsts : Op → List Dst → Op
  | .undef _, [dst] => .undef dst
  | .phiDsts dsts, new => .phiDsts ((dsts.map Prod.fst).zip new)
  | .copy _ src, [dst] => .copy dst src
  | .swap _ _ src₀ src₁, [dst₀, dst₁] => .swap dst₀ dst₁ src₀ src₁
  | .parCopy pcopy, new =>
    .parCopy { pcopy with dstsSrcs := new.zip (pcopy.dstsSrcs.map Prod.snd) }
  | .pin _ src, [dst] => .pin dst src
  | .unpin _ src, [dst] => .unpin dst src
  | .break_ _ barIn cond, [barOut] => .break_ barOut barIn cond
  | .bssy _ barIn cond target, [barOut] => .bssy barOut barIn cond target
  | .other op _ srcs, new => .other op new srcs
  | op, _ => op

theorem srcs_setSrcs {new : List Src} (length : new.length = op.srcs.length) :
    (op.setSrcs new).srcs = new := by
  cases op with
  | phiSrcs pairs =>
    simp only [srcs, length_map] at length
    exact map_snd_zip (by simp [length])
  | parCopy pcopy =>
    simp only [srcs, length_map] at length
    exact map_snd_zip (by simp [length])
  | copy | pin | unpin | bra =>
    obtain ⟨src, rfl⟩ := length_eq_one_iff.mp length
    rfl
  | swap | break_ | bssy =>
    obtain ⟨src, src', rfl⟩ := length_eq_two.mp length
    rfl
  | regOut | other => rfl
  | undef | phiDsts | jump | exit | annotate => exact (length_eq_zero_iff.mp length).symm

theorem dsts_setSrcs {new : List Src} (length : new.length = op.srcs.length) :
    (op.setSrcs new).dsts = op.dsts := by
  cases op with
  | parCopy pcopy =>
    simp only [srcs, length_map] at length
    exact map_fst_zip (by simp [length])
  | copy | pin | unpin | bra =>
    obtain ⟨src, rfl⟩ := length_eq_one_iff.mp length
    rfl
  | swap | break_ | bssy =>
    obtain ⟨src, src', rfl⟩ := length_eq_two.mp length
    rfl
  | phiSrcs | regOut | other | undef | phiDsts | jump | exit | annotate => rfl

theorem dsts_setDsts {new : List Dst} (length : new.length = op.dsts.length) :
    (op.setDsts new).dsts = new := by
  cases op with
  | phiDsts pairs =>
    simp only [dsts, length_map] at length
    exact map_snd_zip (by simp [length])
  | parCopy pcopy =>
    simp only [dsts, length_map] at length
    exact map_fst_zip (by simp [length])
  | undef | copy | pin | unpin | break_ | bssy =>
    obtain ⟨dst, rfl⟩ := length_eq_one_iff.mp length
    rfl
  | swap =>
    obtain ⟨dst, dst', rfl⟩ := length_eq_two.mp length
    rfl
  | other => rfl
  | phiSrcs | regOut | bra | jump | exit | annotate =>
    exact (length_eq_zero_iff.mp length).symm

theorem srcs_setDsts {new : List Dst} (length : new.length = op.dsts.length) :
    (op.setDsts new).srcs = op.srcs := by
  cases op with
  | parCopy pcopy =>
    simp only [dsts, length_map] at length
    exact map_snd_zip (by simp [length])
  | undef | copy | pin | unpin | break_ | bssy =>
    obtain ⟨dst, rfl⟩ := length_eq_one_iff.mp length
    rfl
  | swap =>
    obtain ⟨dst, dst', rfl⟩ := length_eq_two.mp length
    rfl
  | phiSrcs | phiDsts | other | regOut | bra | jump | exit | annotate => rfl

theorem setSrcs_setSrcs {new new' : List Src} (length : new.length = op.srcs.length)
    (length' : new'.length = op.srcs.length) :
    (op.setSrcs new).setSrcs new' = op.setSrcs new' := by
  cases op with
  | phiSrcs pairs =>
    simp only [srcs, length_map] at length
    simp only [setSrcs]
    rw [map_fst_zip (by simp [length])]
  | parCopy pcopy =>
    simp only [srcs, length_map] at length
    simp only [setSrcs]
    rw [map_fst_zip (by simp [length])]
  | copy | pin | unpin | bra =>
    obtain ⟨src, rfl⟩ := length_eq_one_iff.mp length
    obtain ⟨src', rfl⟩ := length_eq_one_iff.mp length'
    rfl
  | swap | break_ | bssy =>
    obtain ⟨src₀, src₁, rfl⟩ := length_eq_two.mp length
    obtain ⟨src₀', src₁', rfl⟩ := length_eq_two.mp length'
    rfl
  | regOut | other | undef | phiDsts | jump | exit | annotate => rfl

theorem setDsts_setDsts {new new' : List Dst} (length : new.length = op.dsts.length)
    (length' : new'.length = op.dsts.length) :
    (op.setDsts new).setDsts new' = op.setDsts new' := by
  cases op with
  | phiDsts pairs =>
    simp only [dsts, length_map] at length
    simp only [setDsts]
    rw [map_fst_zip (by simp [length])]
  | parCopy pcopy =>
    simp only [dsts, length_map] at length
    simp only [setDsts]
    rw [map_snd_zip (by simp [length])]
  | undef | copy | pin | unpin | break_ | bssy =>
    obtain ⟨dst, rfl⟩ := length_eq_one_iff.mp length
    obtain ⟨dst', rfl⟩ := length_eq_one_iff.mp length'
    rfl
  | swap =>
    obtain ⟨dst₀, dst₁, rfl⟩ := length_eq_two.mp length
    obtain ⟨dst₀', dst₁', rfl⟩ := length_eq_two.mp length'
    rfl
  | other | phiSrcs | regOut | bra | jump | exit | annotate => rfl

theorem setSrcs_setDsts {srcs : List Src} {dsts : List Dst}
    (srcLength : srcs.length = op.srcs.length) (dstLength : dsts.length = op.dsts.length) :
    (op.setDsts dsts).setSrcs srcs = (op.setSrcs srcs).setDsts dsts := by
  cases op with
  | parCopy pcopy =>
    simp only [Op.srcs, length_map] at srcLength
    simp only [Op.dsts, length_map] at dstLength
    simp only [setSrcs, setDsts]
    rw [map_fst_zip (by simp [dstLength]), map_snd_zip (by simp [srcLength])]
  | copy | pin | unpin =>
    obtain ⟨src, rfl⟩ := length_eq_one_iff.mp srcLength
    obtain ⟨dst, rfl⟩ := length_eq_one_iff.mp dstLength
    rfl
  | undef =>
    obtain ⟨dst, rfl⟩ := length_eq_one_iff.mp dstLength
    rfl
  | bra =>
    obtain ⟨src, rfl⟩ := length_eq_one_iff.mp srcLength
    rfl
  | swap =>
    obtain ⟨src₀, src₁, rfl⟩ := length_eq_two.mp srcLength
    obtain ⟨dst₀, dst₁, rfl⟩ := length_eq_two.mp dstLength
    rfl
  | break_ | bssy =>
    obtain ⟨src₀, src₁, rfl⟩ := length_eq_two.mp srcLength
    obtain ⟨dst, rfl⟩ := length_eq_one_iff.mp dstLength
    rfl
  | phiSrcs | phiDsts | other | regOut | jump | exit | annotate => rfl

end Op

namespace Instr

variable (instr : Instr)

/-- `for_each_ssa_use_mut` with the new values in the order of `ssaUses`. -/
def setUses (instr : Instr) (vals : List SSAValue) : Instr :=
  { pred := instr.pred.setSsa (vals.take instr.pred.iterSsa.length)
    op := instr.op.setSrcs (Rewriting.writeAll Src.iterSsa Src.setSsa instr.srcs
      (vals.drop instr.pred.iterSsa.length)) }

/-- `for_each_ssa_def_mut` with the new values in the order of `ssaDefs`. -/
def setDefs (instr : Instr) (vals : List SSAValue) : Instr :=
  { instr with op := instr.op.setDsts (Rewriting.writeAll Dst.iterSsa Dst.setSsa instr.dsts vals) }

/-- A rewriting of the uses keeps the definitions and rewrites nothing else. -/
theorem uses_rewriting : Rewriting ssaUses setUses where
  read_write := by
    intro instr vals length
    rw [ssaUses, length_append] at length
    simp only [ssaUses, setUses, srcs]
    rw [Op.srcs_setSrcs _ (by simp), Pred.rewriting.read_write, Src.rewriting.all.read_write,
      take_append_drop]
    · simp only [srcs] at length
      rw [length_drop]
      omega
    · rw [length_take]
      omega
  write_write := by
    intro instr vals vals' length length'
    rw [ssaUses, length_append] at length length'
    have first : (vals.take instr.pred.iterSsa.length).length = instr.pred.iterSsa.length := by
      rw [length_take]
      omega
    have first' : (vals'.take instr.pred.iterSsa.length).length = instr.pred.iterSsa.length := by
      rw [length_take]
      omega
    have rest : (vals.drop instr.pred.iterSsa.length).length =
        (instr.srcs.flatMap Src.iterSsa).length := by
      rw [length_drop]
      omega
    have rest' : (vals'.drop instr.pred.iterSsa.length).length =
        (instr.srcs.flatMap Src.iterSsa).length := by
      rw [length_drop]
      omega
    have kept := Pred.rewriting.read_write instr.pred _ first
    have length'' : (Rewriting.writeAll Src.iterSsa Src.setSsa instr.srcs
        (vals.drop instr.pred.iterSsa.length)).length = instr.op.srcs.length := by simp [srcs]
    have written := Op.srcs_setSrcs instr.op length''
    have collapsed := Src.rewriting.all.write_write instr.op.srcs _ _ rest rest'
    simp only [setUses, srcs] at written ⊢
    rw [kept, first, Pred.rewriting.write_write _ _ _ first first', written, collapsed,
      Op.setSrcs_setSrcs _ (by simp) (by simp)]

theorem ssaDefs_setUses (vals : List SSAValue) :
    (instr.setUses vals).ssaDefs = instr.ssaDefs := by
  simp only [ssaDefs, dsts, setUses]
  rw [Op.dsts_setSrcs _ (by simp [srcs])]

theorem defs_rewriting : Rewriting ssaDefs setDefs where
  read_write := by
    intro instr vals length
    simp only [ssaDefs, setDefs, dsts] at length ⊢
    rw [Op.dsts_setDsts _ (by simp), Dst.rewriting.all.read_write _ _ length]
  write_write := by
    intro instr vals vals' length length'
    simp only [ssaDefs, dsts] at length length'
    simp only [setDefs, dsts]
    rw [Op.dsts_setDsts _ (by simp), Dst.rewriting.all.write_write _ _ _ length length',
      Op.setDsts_setDsts _ (by simp) (by simp)]

theorem ssaUses_setDefs (vals : List SSAValue) :
    (instr.setDefs vals).ssaUses = instr.ssaUses := by
  simp only [ssaUses, srcs, setDefs]
  rw [Op.srcs_setDsts _ (by simp [dsts])]

theorem setUses_setDefs (uses defs : List SSAValue) :
    (instr.setDefs defs).setUses uses = (instr.setUses uses).setDefs defs := by
  have same : (instr.setDefs defs).srcs = instr.srcs := by
    simp only [srcs, setDefs]
    rw [Op.srcs_setDsts _ (by simp [dsts])]
  have same' : (instr.setUses uses).dsts = instr.dsts := by
    simp only [dsts, setUses]
    rw [Op.dsts_setSrcs _ (by simp [srcs])]
  simp only [setUses, setDefs] at same same' ⊢
  rw [same, same', Op.setSrcs_setDsts _ (by simp [srcs]) (by simp [dsts])]

/-- The instruction with the names of its SSA operands erased. -/
def skeleton (instr : Instr) : Instr :=
  (instr.setUses (instr.ssaUses.map fun _ => ⟨.gpr, 0⟩)).setDefs
    (instr.ssaDefs.map fun _ => ⟨.gpr, 0⟩)

theorem skeleton_setUses {vals : List SSAValue} (length : vals.length = instr.ssaUses.length) :
    (instr.setUses vals).skeleton = instr.skeleton := by
  unfold skeleton
  rw [uses_rewriting.read_write _ _ length, ssaDefs_setUses,
    uses_rewriting.write_write _ _ _ length (by simp [length])]
  congr 2
  simp [length]

theorem skeleton_setDefs {vals : List SSAValue} (length : vals.length = instr.ssaDefs.length) :
    (instr.setDefs vals).skeleton = instr.skeleton := by
  unfold skeleton
  rw [ssaUses_setDefs, defs_rewriting.read_write _ _ length, setUses_setDefs,
    defs_rewriting.write_write _ _ _ (by rw [length, ssaDefs_setUses])
      (by rw [length_map, length, ssaDefs_setUses])]
  congr 1
  simp [length]

end Instr

end CoralReef
