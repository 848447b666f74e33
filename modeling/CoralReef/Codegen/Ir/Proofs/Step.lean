import CoralReef.Codegen.Ir.Semantics
import Mathlib.Data.List.Lattice
import Mathlib.Data.List.Nodup
import Mathlib.Data.List.Pairwise

/-!
# Steps of an execution

What one instruction does, read off its op: the phis it writes and reads, and the instructions
that do neither.
-/

open List

namespace CoralReef

/-- The operand with its names erased. -/
def Dst.erase (dst : Dst) : Dst := dst.setSsa (dst.iterSsa.map fun _ => ⟨.gpr, 0⟩)

/-- The operand with its names erased. -/
def Src.erase (src : Src) : Src := src.setSsa (src.iterSsa.map fun _ => ⟨.gpr, 0⟩)

theorem Dst.erase_iterSsa (dst : Dst) :
    dst.erase.iterSsa = dst.iterSsa.map fun _ => ⟨.gpr, 0⟩ :=
  Dst.rewriting.read_write _ _ (by simp)

theorem Src.erase_iterSsa (src : Src) :
    src.erase.iterSsa = src.iterSsa.map fun _ => ⟨.gpr, 0⟩ :=
  Src.rewriting.read_write _ _ (by simp)

theorem Pred.setSsa_isTrue (pred : Pred) (vals : List SSAValue) :
    (pred.setSsa vals).isTrue = pred.isTrue := by
  unfold setSsa
  split
  next same => simp [isTrue, same]
  next => rfl

theorem Pred.setSsa_isFalse (pred : Pred) (vals : List SSAValue) :
    (pred.setSsa vals).isFalse = pred.isFalse := by
  unfold setSsa
  split
  next same => simp [isFalse, same]
  next => rfl

theorem Rewriting.writeAll_const {α : Type} {read : α → List SSAValue}
    {write : α → List SSAValue → α} (z : SSAValue) (as : List α) :
    writeAll read write as ((as.flatMap read).map fun _ => z) =
      as.map fun a => write a ((read a).map fun _ => z) := by
  induction as with
  | nil => rfl
  | cons a as ih =>
    rw [writeAll, flatMap_cons, map_append, take_left' (by simp),
      drop_left' (by simp), ih, map_cons]

namespace Instr

variable (instr : Instr)

theorem skeleton_ssaDefs :
    instr.skeleton.ssaDefs = instr.ssaDefs.map fun _ => ⟨.gpr, 0⟩ := by
  unfold skeleton
  rw [defs_rewriting.read_write]
  rw [length_map, ssaDefs_setUses]

theorem skeleton_pred :
    instr.skeleton.pred.iterSsa = instr.pred.iterSsa.map fun _ => ⟨.gpr, 0⟩ := by
  have length : ((instr.ssaUses.map fun _ => (⟨.gpr, 0⟩ : SSAValue)).take
      instr.pred.iterSsa.length).length = instr.pred.iterSsa.length := by
    simp [ssaUses]
  show (instr.pred.setSsa _).iterSsa = _
  rw [Pred.rewriting.read_write _ _ length, ssaUses, map_append, take_left' (by simp)]

/-- The op of an instruction without its names. -/
theorem skeleton_op : instr.skeleton.op =
    (instr.op.setSrcs (instr.srcs.map Src.erase)).setDsts (instr.dsts.map Dst.erase) := by
  have dsts : (instr.setUses (instr.ssaUses.map fun _ => ⟨.gpr, 0⟩)).dsts = instr.dsts := by
    simp only [Instr.dsts, setUses]
    rw [Op.dsts_setSrcs _ (by simp [srcs])]
  simp only [skeleton, setDefs]
  rw [dsts]
  simp only [setUses, ssaUses, map_append]
  rw [drop_left' (by simp), Rewriting.writeAll_const]
  simp only [ssaDefs, Rewriting.writeAll_const]
  rfl

theorem skeleton_phiDsts {instr : Instr} {dsts : List (Phi × Dst)} (isPhi : instr.op = .phiDsts dsts) :
    instr.skeleton.op = .phiDsts (dsts.map fun entry => (entry.1, entry.2.erase)) := by
  rw [skeleton_op, isPhi]
  simp only [Op.setSrcs, Op.setDsts, Instr.dsts, isPhi, Op.dsts, map_map]
  congr 1
  exact zip_map' ..

theorem skeleton_phiSrcs {instr : Instr} {srcs : List (Phi × Src)} (isPhi : instr.op = .phiSrcs srcs) :
    instr.skeleton.op = .phiSrcs (srcs.map fun entry => (entry.1, entry.2.erase)) := by
  rw [skeleton_op, isPhi]
  simp only [Op.setSrcs, Op.setDsts, Instr.srcs, isPhi, Op.srcs, map_map]
  congr 1
  exact zip_map' ..

theorem skeleton_parCopy {instr : Instr} {pcopy : OpParCopy} (isCopy : instr.op = .parCopy pcopy) :
    instr.skeleton.op = .parCopy { pcopy with
      dstsSrcs := pcopy.dstsSrcs.map fun entry => (entry.1.erase, entry.2.erase) } := by
  rw [skeleton_op, isCopy]
  simp only [Op.setSrcs, Op.setDsts, Instr.srcs, Instr.dsts, isCopy, Op.srcs, Op.dsts, map_map]
  congr 2
  rw [map_snd_zip (by simp)]
  exact zip_map' ..

/-- The phis an instruction writes can be told without its names. -/
theorem phiDsts_of_skeleton {instr : Instr} {dsts : List (Phi × Dst)}
    (isPhi : instr.skeleton.op = .phiDsts dsts) :
    ∃ dsts', instr.op = .phiDsts dsts' ∧ dsts.map Prod.fst = dsts'.map Prod.fst := by
  cases isOp : instr.op with
  | phiDsts dsts' =>
    rw [skeleton_phiDsts isOp] at isPhi
    cases isPhi
    exact ⟨dsts', rfl, by simp⟩
  | _ =>
    rw [skeleton_op] at isPhi
    simp [Op.setSrcs, Op.setDsts, Instr.srcs, Instr.dsts, isOp, Op.srcs, Op.dsts] at isPhi

theorem skeleton_isHead : instr.skeleton.isHead = instr.isHead := by
  unfold isHead
  rw [skeleton_op]
  cases isOp : instr.op <;>
    simp [Op.setSrcs, Op.setDsts, Instr.srcs, Instr.dsts, isOp, Op.srcs, Op.dsts]

theorem skeleton_dsts : instr.skeleton.dsts = instr.dsts.map Dst.erase := by
  rw [dsts, skeleton_op, Op.dsts_setDsts]
  rw [Op.dsts_setSrcs _ (by simp [srcs]), length_map, dsts]

theorem skeleton_isClean : instr.skeleton.isClean = instr.isClean := by
  have isTrue : instr.skeleton.pred.isTrue = instr.pred.isTrue := Pred.setSsa_isTrue ..
  have isFalse : instr.skeleton.pred.isFalse = instr.pred.isFalse := Pred.setSsa_isFalse ..
  have regs : (instr.skeleton.dsts.all fun dst => dst.asReg.isNone) =
      instr.dsts.all fun dst => dst.asReg.isNone := by
    rw [skeleton_dsts, all_map]
    congr 1
    funext dst
    cases dst <;> rfl
  have defines : instr.skeleton.ssaDefs.isEmpty = instr.ssaDefs.isEmpty := by
    rw [skeleton_ssaDefs, isEmpty_map]
  unfold isClean
  rw [regs, isTrue, isFalse, defines, skeleton_op]
  cases isOp : instr.op <;>
    simp [Op.setSrcs, Op.setDsts, Instr.srcs, Instr.dsts, isOp, Op.srcs, Op.dsts]

theorem skeleton_isEffect : instr.skeleton.isEffect = instr.isEffect := by
  have isFalse : instr.skeleton.pred.isFalse = instr.pred.isFalse := Pred.setSsa_isFalse ..
  unfold isEffect canEliminate
  rw [isFalse, skeleton_op]
  cases isOp : instr.op <;>
    simp [Op.setSrcs, Op.setDsts, Instr.srcs, Instr.dsts, isOp, Op.srcs, Op.dsts, Op.canEliminate]

/-- An instruction that may follow the phi sources of a block. -/
def isTail (instr : Instr) : Bool :=
  match instr.op with
  | .annotate _ => true
  | op => op.isBranch

theorem isTail.ssaDefs {instr : Instr} (tail : instr.isTail = true) : instr.ssaDefs = [] := by
  unfold isTail at tail
  unfold Instr.ssaDefs Instr.dsts
  cases isOp : instr.op <;> simp_all [Op.isBranch, Op.dsts]

theorem isTail.notPhi {instr : Instr} (tail : instr.isTail = true) (srcs : List (Phi × Src)) :
    instr.op ≠ .phiSrcs srcs := by
  intro isPhi
  unfold isTail at tail
  rw [isPhi] at tail
  cases tail

end Instr

variable {V : Type} (interp : Interp V)
variable (vals : SSAValue → V)

@[simp] theorem assign_nil : assign vals [] = vals := rfl

@[simp] theorem assign_cons (write : SSAValue × V) (writes : List (SSAValue × V)) :
    assign vals (write :: writes) = assign (Function.update vals write.1 write.2) writes := rfl

theorem assign_append (first second : List (SSAValue × V)) :
    assign vals (first ++ second) = assign (assign vals first) second :=
  foldl_append

theorem assign_other {vals : SSAValue → V} {writes : List (SSAValue × V)} {x : SSAValue}
    (absent : x ∉ writes.map Prod.fst) : assign vals writes x = vals x := by
  induction writes generalizing vals with
  | nil => rfl
  | cons write writes ih =>
    rw [map_cons, mem_cons, not_or] at absent
    rw [assign_cons, ih absent.2, Function.update_of_ne absent.1]

theorem assign_congr {vals vals' : SSAValue → V} {x : SSAValue} (same : vals x = vals' x)
    (writes : List (SSAValue × V)) : assign vals writes x = assign vals' writes x := by
  induction writes generalizing vals vals' with
  | nil => exact same
  | cons write writes ih =>
    rw [assign_cons, assign_cons]
    apply ih
    by_cases isX : x = write.1
    · rw [isX, Function.update_self, Function.update_self]
    · rw [Function.update_of_ne isX, Function.update_of_ne isX, same]

/-- Writes to different names commute. -/
theorem assign_comm {first second : List (SSAValue × V)}
    (apart : ∀ x ∈ first.map Prod.fst, x ∉ second.map Prod.fst) :
    assign (assign vals first) second = assign (assign vals second) first := by
  funext x
  by_cases inFirst : x ∈ first.map Prod.fst
  · rw [assign_other (apart x inFirst)]
    exact (assign_congr (assign_other (apart x inFirst)) first).symm
  · rw [assign_other inFirst]
    exact assign_congr (assign_other inFirst) second

namespace Interp

variable {instr : Instr} {srcs : List (Phi × Src)}

theorem step_eq (machine : Machine V) (instr : Instr) : interp.step machine instr =
    { vals := assign machine.vals (instr.ssaDefs.zip
        (interp.results machine instr.skeleton (instr.ssaUses.map machine.vals)))
      phis := (interp.phiReads instr.skeleton (instr.ssaUses.map machine.vals)).foldl
        (fun phis entry => Function.update phis entry.1 entry.2) machine.phis
      effects := if instr.skeleton.isEffect then
          machine.effects ++ interp.events instr.skeleton (instr.ssaUses.map machine.vals)
        else machine.effects
      trace := machine.trace ++
        interp.events instr.skeleton (instr.ssaUses.map machine.vals) } := rfl

theorem readSrcs_length (srcs : List Src) : ∀ reads, (interp.readSrcs srcs reads).length =
    srcs.length := by
  induction srcs with
  | nil => exact fun _ => rfl
  | cons src srcs ih =>
    intro reads
    rw [readSrcs, length_cons, ih, length_cons]

theorem readSrcs_append (first second : List Src) : ∀ reads,
    interp.readSrcs (first ++ second) reads = interp.readSrcs first reads ++
      interp.readSrcs second (reads.drop (first.flatMap Src.iterSsa).length) := by
  induction first with
  | nil => exact fun _ => rfl
  | cons src first ih =>
    intro reads
    rw [cons_append, readSrcs, readSrcs, ih, cons_append, flatMap_cons,
      length_append, drop_drop]

/-- Operands read no more than the values of their names. -/
theorem readSrcs_enough (srcs : List Src) (more : List V) : ∀ reads : List V,
    (srcs.flatMap Src.iterSsa).length ≤ reads.length →
      interp.readSrcs srcs (reads ++ more) = interp.readSrcs srcs reads := by
  induction srcs with
  | nil => exact fun _ _ => rfl
  | cons src srcs ih =>
    intro reads enough
    rw [flatMap_cons, length_append] at enough
    rw [readSrcs, readSrcs, take_append_of_le_length (by omega),
      drop_append_of_le_length (by omega), ih]
    rw [length_drop]
    omega

/-- The values of a parallel copy, one for each name of its destinations. -/
theorem zip_iterSsa_length : ∀ (dsts : List Dst) (values : List V), values.length = dsts.length →
    ((dsts.zip values).flatMap fun entry => entry.1.iterSsa.map fun _ => entry.2).length =
      (dsts.flatMap Dst.iterSsa).length := by
  intro dsts
  induction dsts with
  | nil => exact fun _ _ => rfl
  | cons dst dsts ih =>
    intro values length
    cases values with
    | nil => cases length
    | cons value values =>
      rw [zip_cons_cons, flatMap_cons, flatMap_cons, length_append,
        length_append, ih values (Nat.succ.inj length), length_map]

/-- An instruction gives each of its definitions a value. -/
theorem results_length (machine : Machine V) (instr : Instr) (reads : List V) :
    (interp.results machine instr reads).length = instr.ssaDefs.length := by
  unfold results
  cases isOp : instr.op with
  | undef dst => simp [Instr.ssaDefs, Instr.dsts, isOp, Op.dsts]
  | phiDsts dsts =>
    simp only [Instr.ssaDefs, Instr.dsts, isOp, Op.dsts, length_flatMap, length_map,
      map_map]
    rfl
  | parCopy pcopy =>
    simp only [Instr.ssaDefs, Instr.dsts, isOp, Op.dsts]
    apply zip_iterSsa_length
    rw [readSrcs_length, length_map, length_map]
  | _ => simp

/-- The phi destinations get the phis. -/
theorem results_phiDsts {dsts : List (Phi × Dst)} (isPhi : instr.op = .phiDsts dsts)
    (machine : Machine V) (reads : List V) :
    interp.results machine instr.skeleton reads =
      dsts.flatMap fun entry => entry.2.iterSsa.map fun _ => machine.phis entry.1 := by
  unfold results
  rw [Instr.skeleton_phiDsts isPhi]
  simp only [flatMap_map, Dst.erase_iterSsa, map_map]
  rfl

/-- The values written depend on the machine by its effects and by the phis written alone. -/
theorem results_congr {machine machine' : Machine V} {skeleton : Instr}
    (effects : machine'.effects = machine.effects)
    (phis : ∀ dsts, skeleton.op = .phiDsts dsts →
      ∀ entry ∈ dsts, machine'.phis entry.1 = machine.phis entry.1) (reads : List V) :
    interp.results machine' skeleton reads = interp.results machine skeleton reads := by
  unfold results
  cases isOp : skeleton.op with
  | phiDsts dsts =>
    simp only
    rw [flatMap_def, flatMap_def]
    congr 1
    apply map_congr_left
    intro entry member
    rw [phis dsts isOp entry member]
  | _ => simp only [effects]

/-- The phi sources are read as operands. -/
theorem phiReads_phiSrcs (isPhi : instr.op = .phiSrcs srcs) (vals : SSAValue → V) :
    interp.phiReads instr.skeleton (instr.ssaUses.map vals) =
      (srcs.map Prod.fst).zip (interp.readSrcs (srcs.map fun entry => entry.2.erase)
        ((srcs.flatMap fun entry => entry.2.iterSsa).map vals)) := by
  have uses : instr.ssaUses = instr.pred.iterSsa ++ srcs.flatMap fun entry => entry.2.iterSsa := by
    rw [Instr.ssaUses, Instr.srcs, isPhi, Op.srcs, flatMap_map]
  unfold phiReads
  rw [Instr.skeleton_phiSrcs isPhi, Instr.skeleton_pred, uses, map_append]
  dsimp only
  rw [drop_left' (by simp), map_map, map_map]
  rfl

/-- Scalar phi sources are the values of their names. -/
theorem readSrcs_ofSsa (values : List SSAValue) (vals : SSAValue → V) :
    interp.readSrcs (values.map fun v => (Src.ofSsa v).erase) (values.map vals) =
      values.map vals := by
  induction values with
  | nil => rfl
  | cons v values ih =>
    rw [map_cons, map_cons, readSrcs]
    have one : (Src.ofSsa v).erase.iterSsa.length = 1 := rfl
    rw [one, take_one, drop_one, tail_cons, ih]
    rfl

theorem phiReads_eq_nil (notPhi : ∀ srcs, instr.op ≠ .phiSrcs srcs) (reads : List V) :
    interp.phiReads instr.skeleton reads = [] := by
  unfold phiReads
  rw [Instr.skeleton_op]
  cases isOp : instr.op with
  | phiSrcs srcs => exact absurd isOp (notPhi srcs)
  | undef dst | copy dst src | swap | parCopy | pin | unpin | break_ | bssy | regOut | bra =>
    simp [Op.setSrcs, Op.setDsts, Instr.srcs, Instr.dsts, isOp, Op.srcs, Op.dsts]
  | _ => rfl

/-- Operands are read one by one. -/
theorem readSrcs_erase (srcs : List Src) (vals : SSAValue → V) :
    interp.readSrcs (srcs.map Src.erase) ((srcs.flatMap Src.iterSsa).map vals) =
      srcs.map fun src => interp.readSrc src.erase (src.iterSsa.map vals) := by
  induction srcs with
  | nil => rfl
  | cons src srcs ih =>
    rw [map_cons, readSrcs, flatMap_cons, map_append, Src.erase_iterSsa,
      take_left' (by simp), drop_left' (by simp), ih, map_cons]

/-- The phis that an instruction reads, with the values of its operands. -/
theorem phiReads_eq (isPhi : instr.op = .phiSrcs srcs) (vals : SSAValue → V) :
    interp.phiReads instr.skeleton (instr.ssaUses.map vals) =
      srcs.map fun entry =>
        (entry.1, interp.readSrc entry.2.erase (entry.2.iterSsa.map vals)) := by
  have operands : (srcs.map fun entry => entry.2.erase) = (srcs.map Prod.snd).map Src.erase := by
    rw [map_map]
    rfl
  have names : (srcs.flatMap fun entry => entry.2.iterSsa) =
      (srcs.map Prod.snd).flatMap Src.iterSsa := by rw [flatMap_map]
  rw [interp.phiReads_phiSrcs isPhi, operands, names, readSrcs_erase, map_map]
  exact zip_map' ..

/-- What reading phi sources does. -/
theorem step_phiSrcs (isOp : instr.op = .phiSrcs srcs) (machine : Machine V) :
    interp.step machine instr =
      { machine with
        phis := (interp.phiReads instr.skeleton (instr.ssaUses.map machine.vals)).foldl
          (fun phis entry => Function.update phis entry.1 entry.2) machine.phis
        trace := machine.trace ++
          (interp.phiReads instr.skeleton (instr.ssaUses.map machine.vals)).map
            fun entry => .phi entry.1 entry.2 } := by
  have noDefs : instr.ssaDefs = [] := by simp [Instr.ssaDefs, Instr.dsts, isOp, Op.dsts]
  have noEffect : instr.skeleton.isEffect = false := by
    simp [Instr.isEffect, Instr.canEliminate, Instr.skeleton_phiSrcs isOp, Op.canEliminate]
  rw [step_eq, noDefs, noEffect]
  simp only [events, Instr.skeleton_phiSrcs isOp, zip_nil_left, assign_nil]
  rfl

theorem zip_flatMap {α β γ : Type} {first : α → List β} {second : α → List γ} {list : List α}
    (lengths : ∀ a ∈ list, (first a).length = (second a).length) :
    (list.flatMap first).zip (list.flatMap second) =
      list.flatMap fun a => (first a).zip (second a) := by
  induction list with
  | nil => rfl
  | cons head list ih =>
    rw [flatMap_cons, flatMap_cons, flatMap_cons,
      zip_append (lengths head mem_cons_self),
      ih fun a member => lengths a (mem_cons_of_mem head member)]

theorem zip_map_const {α β : Type} (list : List α) (b : β) :
    list.zip (list.map fun _ => b) = list.map fun a => (a, b) := by
  induction list with
  | nil => rfl
  | cons head list ih => rw [map_cons, zip_cons_cons, ih, map_cons]

/-- What writing phi destinations does. -/
theorem step_phiDsts {dsts : List (Phi × Dst)} (isOp : instr.op = .phiDsts dsts)
    (unguarded : instr.pred.iterSsa = []) (machine : Machine V) : interp.step machine instr =
      { machine with
        vals := assign machine.vals (dsts.flatMap fun entry =>
          entry.2.iterSsa.map fun x => (x, machine.phis entry.1)) } := by
  have uses : instr.ssaUses = [] := by
    simp [Instr.ssaUses, unguarded, Instr.srcs, isOp, Op.srcs]
  have defs : instr.ssaDefs = dsts.flatMap fun entry => entry.2.iterSsa := by
    rw [Instr.ssaDefs, Instr.dsts, isOp, Op.dsts, flatMap_map]
  have noEffect : instr.skeleton.isEffect = false := by
    simp [Instr.isEffect, Instr.canEliminate, Instr.skeleton_phiDsts isOp, Op.canEliminate]
  have noEvents : interp.events instr.skeleton [] = [] := by
    simp only [events, Instr.skeleton_phiDsts isOp]
  have noReads : interp.phiReads instr.skeleton [] = [] :=
    interp.phiReads_eq_nil (by simp [isOp]) []
  rw [step_eq, uses, map_nil, noReads, noEffect, noEvents, defs, interp.results_phiDsts isOp,
    zip_flatMap (by simp)]
  simp only [zip_map_const, foldl_nil, Bool.false_eq_true, if_false, append_nil]

/-- What a parallel copy does. -/
theorem step_parCopy {pcopy : OpParCopy} (isOp : instr.op = .parCopy pcopy)
    (unguarded : instr.pred.iterSsa = []) (machine : Machine V) : interp.step machine instr =
      { machine with
        vals := assign machine.vals (pcopy.dstsSrcs.flatMap fun entry =>
          entry.1.iterSsa.map fun x =>
            (x, interp.readSrc entry.2.erase (entry.2.iterSsa.map machine.vals)))
        trace := machine.trace ++ pcopy.dstsSrcs.map fun entry =>
          .copy (entry.1.erase, entry.2.erase)
            (interp.readSrc entry.2.erase (entry.2.iterSsa.map machine.vals)) } := by
  have uses : instr.ssaUses = (pcopy.dstsSrcs.map Prod.snd).flatMap Src.iterSsa := by
    rw [Instr.ssaUses, unguarded, Instr.srcs, isOp, Op.srcs, nil_append]
  have defs : instr.ssaDefs = pcopy.dstsSrcs.flatMap fun entry => entry.1.iterSsa := by
    rw [Instr.ssaDefs, Instr.dsts, isOp, Op.dsts, flatMap_map]
  have noGuard : instr.skeleton.pred.iterSsa.length = 0 := by
    rw [Instr.skeleton_pred, unguarded]
    rfl
  have noEffect : instr.skeleton.isEffect = false := by
    simp [Instr.isEffect, Instr.canEliminate, Instr.skeleton_parCopy isOp, Op.canEliminate]
  have noReads : interp.phiReads instr.skeleton (instr.ssaUses.map machine.vals) = [] :=
    interp.phiReads_eq_nil (by simp [isOp]) _
  have operands : ((pcopy.dstsSrcs.map fun entry => (entry.1.erase, entry.2.erase)).map
      Prod.snd : List Src) = (pcopy.dstsSrcs.map Prod.snd).map Src.erase := by
    rw [map_map, map_map]
    rfl
  have read : interp.readSrcs ((pcopy.dstsSrcs.map Prod.snd).map Src.erase)
      ((instr.ssaUses.map machine.vals).drop 0) = pcopy.dstsSrcs.map fun entry =>
        interp.readSrc entry.2.erase (entry.2.iterSsa.map machine.vals) := by
    rw [drop_zero, uses, readSrcs_erase, map_map]
    rfl
  have results : interp.results machine instr.skeleton (instr.ssaUses.map machine.vals) =
      pcopy.dstsSrcs.flatMap fun entry => entry.1.iterSsa.map fun _ =>
        interp.readSrc entry.2.erase (entry.2.iterSsa.map machine.vals) := by
    unfold Interp.results
    rw [Instr.skeleton_parCopy isOp]
    dsimp only
    rw [noGuard, operands, read, map_map, zip_map', flatMap_map]
    simp only [Function.comp_apply, Dst.erase_iterSsa, map_map]
    rfl
  have events : interp.events instr.skeleton (instr.ssaUses.map machine.vals) =
      pcopy.dstsSrcs.map fun entry => .copy (entry.1.erase, entry.2.erase)
        (interp.readSrc entry.2.erase (entry.2.iterSsa.map machine.vals)) := by
    unfold Interp.events
    rw [Instr.skeleton_parCopy isOp]
    dsimp only
    rw [noGuard, operands, read, zip_map', map_map]
    rfl
  rw [step_eq, noReads, noEffect, events, results, defs, zip_flatMap (by simp)]
  simp only [zip_map_const, foldl_nil, Bool.false_eq_true, if_false]

/-- The events of instructions that change no name. -/
def tailEvents (instrs : List Instr) (vals : SSAValue → V) : List (Event V) :=
  instrs.flatMap fun instr => interp.events instr.skeleton (instr.ssaUses.map vals)

/-- Instructions that may follow the phi sources change neither names nor phis. -/
theorem run_tail (instrs : List Instr) (tail : ∀ instr ∈ instrs, instr.isTail = true) :
    ∀ machine : Machine V, interp.run instrs machine =
      { machine with
        effects := machine.effects ++
          interp.tailEvents (instrs.filter fun instr => instr.skeleton.isEffect) machine.vals
        trace := machine.trace ++ interp.tailEvents instrs machine.vals } := by
  induction instrs with
  | nil =>
    intro machine
    simp [tailEvents]
  | cons instr instrs ih =>
    intro machine
    have isTail := tail instr mem_cons_self
    have step : interp.step machine instr =
        { machine with
          effects := if instr.skeleton.isEffect then
              machine.effects ++ interp.events instr.skeleton (instr.ssaUses.map machine.vals)
            else machine.effects
          trace := machine.trace ++
            interp.events instr.skeleton (instr.ssaUses.map machine.vals) } := by
      rw [step_eq, Instr.isTail.ssaDefs isTail, interp.phiReads_eq_nil (Instr.isTail.notPhi isTail)]
      rfl
    rw [run_cons, step, ih fun other member => tail other (mem_cons_of_mem instr member)]
    dsimp only
    cases effect : instr.skeleton.isEffect with
    | true =>
      rw [filter_cons_of_pos (p := fun instr : Instr => instr.skeleton.isEffect) effect]
      simp [tailEvents]
    | false =>
      rw [filter_cons_of_neg (p := fun instr : Instr => instr.skeleton.isEffect) (by simp [effect])]
      simp [tailEvents]

end Interp

variable {defined : SSAValue → Prop}

/-- Every use in a list of instructions is of a name that is `defined` before the list, or that an
earlier instruction defines. -/
def Scoped : (SSAValue → Prop) → List Instr → Prop
  | _, [] => True
  | defined, instr :: rest =>
    (∀ x ∈ instr.ssaUses, defined x) ∧ Scoped (fun x => defined x ∨ x ∈ instr.ssaDefs) rest

theorem Scoped.mono {defined defined' : SSAValue → Prop} (more : ∀ x, defined x → defined' x)
    {instrs : List Instr} (holds : Scoped defined instrs) : Scoped defined' instrs := by
  induction instrs generalizing defined defined' with
  | nil => trivial
  | cons instr rest ih =>
    exact ⟨fun x used => more x (holds.1 x used),
      ih (fun x => Or.imp_left (more x)) holds.2⟩

theorem scoped_append {first second : List Instr} :
    Scoped defined (first ++ second) ↔ Scoped defined first ∧
      Scoped (fun x => defined x ∨ x ∈ first.flatMap Instr.ssaDefs) second := by
  induction first generalizing defined with
  | nil => simp [Scoped]
  | cons instr first ih =>
    simp only [cons_append, Scoped, ih, flatMap_cons, mem_append, or_assoc,
      and_assoc]

/-- A use in scope, wherever it stands. -/
theorem Scoped.split {instrs pre post : List Instr} {instr : Instr} (holds : Scoped defined instrs)
    (split : instrs = pre ++ instr :: post) {x : SSAValue} (used : x ∈ instr.ssaUses) :
    defined x ∨ x ∈ pre.flatMap Instr.ssaDefs := by
  rw [split, scoped_append] at holds
  exact holds.2.1 x used

theorem scoped_of_split {instrs : List Instr}
    (holds : ∀ pre instr post, instrs = pre ++ instr :: post → ∀ x ∈ instr.ssaUses,
      defined x ∨ x ∈ pre.flatMap Instr.ssaDefs) : Scoped defined instrs := by
  induction instrs generalizing defined with
  | nil => trivial
  | cons head rest ih =>
    refine ⟨fun x used => ?_, ih ?_⟩
    · have := holds [] head rest rfl x used
      simpa using this
    · intro pre instr post split x used
      have := holds (head :: pre) instr post (by rw [split]; rfl) x used
      rwa [flatMap_cons, mem_append, ← or_assoc] at this

namespace Interp

theorem zip_results_fst (machine : Machine V) (instr : Instr) (reads : List V) :
    (instr.ssaDefs.zip (interp.results machine instr.skeleton reads)).map Prod.fst =
      instr.ssaDefs := by
  apply map_fst_zip
  have same : instr.ssaDefs.length = (interp.results machine instr.skeleton reads).length := by
    rw [interp.results_length, Instr.skeleton_ssaDefs, length_map]
  exact Nat.le_of_eq same

/-- Names that an instruction does not define keep their values. -/
theorem run_other {instrs : List Instr} {x : SSAValue} (absent : x ∉ instrs.flatMap Instr.ssaDefs) :
    ∀ machine : Machine V, (interp.run instrs machine).vals x = machine.vals x := by
  induction instrs with
  | nil => exact fun _ => rfl
  | cons instr instrs ih =>
    intro machine
    rw [flatMap_cons, mem_append, not_or] at absent
    rw [run_cons, ih absent.2, step_eq]
    apply assign_other
    rw [zip_results_fst]
    exact absent.1

end Interp

theorem observe_append (known : Phi → Bool) (first second : List (Event V)) :
    observe known (first ++ second) = observe known first ++ observe known second :=
  filter_append ..

/-- The events of phis that are not known are not observed. -/
theorem observe_phi (known : Phi → Bool) (reads : List (Phi × V))
    (hidden : ∀ entry ∈ reads, known entry.1 = false) :
    observe known (reads.map fun entry => Event.phi entry.1 entry.2) = [] := by
  unfold observe
  rw [filter_eq_nil_iff]
  intro event member
  obtain ⟨entry, inReads, rfl⟩ := mem_map.mp member
  simp [hidden entry inReads]

/-!
## Functions and their paths

Lemmas on the blocks of a function, on paths, and on the conditions for SSA form.
-/

theorem CFG.PathTo.congr {α β : Type} {cfg : CFG α} {cfg' : CFG β} (edges : cfg'.edges = cfg.edges)
    {root b : Nat} {before : List Nat} (path : cfg'.PathTo root before b) :
    cfg.PathTo root before b := by
  induction path with
  | root => exact .root
  | step _ edge ih => exact ih.step (edges ▸ edge)

theorem CFG.PathTo.inside {α : Type} {cfg : CFG α} (edges : cfg.EdgesIn) {root b : Nat}
    {before : List Nat} (path : cfg.PathTo root before b) : b = root ∨ b < cfg.len := by
  cases path with
  | root => exact Or.inl rfl
  | step _ edge => exact Or.inr (edges _ edge).2

/-- What two parts of a list without duplicates have in common. -/
theorem apart_of_nodup {α β : Type} {list : List α} {part : α → List β}
    (nodup : (list.flatMap part).Nodup) {a a' : α} (member : a ∈ list) (member' : a' ∈ list)
    (differs : a ≠ a') {b : β} (inPart : b ∈ part a) : b ∉ part a' := by
  intro inPart'
  rw [nodup_flatMap] at nodup
  have : Std.Symm (Function.onFun List.Disjoint part) := ⟨fun _ _ => List.Disjoint.symm⟩
  exact nodup.2.forall member member' differs inPart inPart'

namespace Function

variable {f : Function}

theorem instrs_eq_nil {b : Nat} (outside : f.blocks.len ≤ b) : f.instrs b = [] := by
  unfold instrs
  rw [List.getElem?_eq_none outside]
  rfl

/-- The definitions of a function, block by block. -/
theorem allDefs_eq (f : Function) : f.allDefs = (List.range f.blocks.len).flatMap f.defs := by
  have blocks : (List.range f.blocks.len).map f.instrs = f.blocks.blocks.map BasicBlock.instrs := by
    apply ext_getElem
    · simp [CFG.len]
    · intro b inside inside'
      have here : b < f.blocks.blocks.length := by simpa using inside'
      simp [instrs, here]
  have left : f.blocks.blocks.map (fun bb => bb.instrs.flatMap Instr.ssaDefs) =
      (f.blocks.blocks.map BasicBlock.instrs).map fun instrs => instrs.flatMap Instr.ssaDefs := by
    rw [map_map]
    rfl
  rw [allDefs, flatMap_def, flatMap_def, left, ← blocks, map_map]
  rfl

theorem mem_instrs {b : Nat} {instr : Instr} (member : instr ∈ f.instrs b) :
    ∃ bb ∈ f.blocks.blocks, instr ∈ bb.instrs := by
  unfold Function.instrs at member
  cases at_ : f.blocks.blocks[b]? with
  | none => simp [at_] at member
  | some bb =>
    rw [at_] at member
    exact ⟨bb, mem_of_getElem? at_, member⟩

/-- Where the entry uses no names and defines all names that the others use, every use is reached
by a definition. -/
theorem reachedByDef_of_entry (entry : ∀ instr ∈ f.instrs 0, instr.ssaUses = [])
    (others : ∀ bb ∈ f.blocks.blocks, ∀ instr ∈ bb.instrs, ∀ x ∈ instr.ssaUses, x ∈ f.defs 0) :
    f.ReachedByDef := by
  intro before b pre instr post path split x used
  have member : instr ∈ f.instrs b := by
    rw [split]
    simp
  rcases path.root_mem with rfl | passed
  · rw [entry instr member] at used
    cases used
  · obtain ⟨bb, inBlocks, inside⟩ := mem_instrs member
    exact .inl (mem_flatMap.mpr ⟨0, passed, others bb inBlocks instr inside x used⟩)

/-- Values that are used in the block that defines them, after their definition. -/
theorem reachedByDef_of_blocks (here : ∀ bb ∈ f.blocks.blocks, ∀ k (inside : k < bb.instrs.length),
    ∀ x ∈ bb.instrs[k].ssaUses, x ∈ (bb.instrs.take k).flatMap Instr.ssaDefs) :
    f.ReachedByDef := by
  intro before b pre instr post _ split x used
  unfold Function.instrs at split
  cases at_ : f.blocks.blocks[b]? with
  | none => simp [at_] at split
  | some bb =>
    rw [at_, Option.map_some, Option.getD_some] at split
    have inside : pre.length < bb.instrs.length := by simp [split]
    have isUse := here bb (mem_of_getElem? at_) pre.length inside x
    simp only [split, getElem_append_right (Nat.le_refl _), Nat.sub_self, getElem_cons_zero,
      take_left] at isUse
    exact .inr (isUse used)

/-- A function without phis is well formed when its edges and names are. -/
theorem wellFormed_of_noPhis
    (edges : ∀ edge ∈ f.blocks.edges, edge.1 < f.blocks.len ∧ edge.2 < f.blocks.len)
    (ssas : ∀ bb ∈ f.blocks.blocks, ∀ instr ∈ bb.instrs, ∀ x ∈ instr.ssaUses ++ instr.ssaDefs,
      x.idx ≤ f.ssaAlloc.count) (noPhis : ∀ bb ∈ f.blocks.blocks, ∀ instr ∈ bb.instrs,
      instr.isPhi = false ∧ instr.pred.iterSsa = []) : f.WellFormed := by
  constructor
  · exact edges
  · intro b instr member
    obtain ⟨bb, inBlocks, inside⟩ := mem_instrs member
    exact ssas bb inBlocks instr inside
  · intro b srcs instr member same
    obtain ⟨bb, inBlocks, inside⟩ := mem_instrs member
    have := (noPhis bb inBlocks instr inside).1
    simp [Instr.isPhi, same] at this
  · intro b dsts instr member same
    obtain ⟨bb, inBlocks, inside⟩ := mem_instrs member
    have := (noPhis bb inBlocks instr inside).1
    simp [Instr.isPhi, same] at this
  · intro b instr member _
    obtain ⟨bb, inBlocks, inside⟩ := mem_instrs member
    exact (noPhis bb inBlocks instr inside).2

/-- The uses of each block are in scope after any path to it. -/
theorem reachedByDef_iff : f.ReachedByDef ↔ ∀ before b, f.blocks.PathTo 0 before b →
    Scoped (fun x => x ∈ before.flatMap f.defs) (f.instrs b) := by
  constructor
  · intro reached before b path
    exact scoped_of_split fun pre instr post split x used =>
      reached before b pre instr post path split x used
  · intro holds before b pre instr post path split x used
    exact (holds before b path).split split used

end Function

end CoralReef
