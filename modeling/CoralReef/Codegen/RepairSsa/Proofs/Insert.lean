import CoralReef.Codegen.Ir.Proofs.Step
import CoralReef.Codegen.RepairSsa

/-!
# Inserting phis

Where `insertPhiDsts` and `insertPhiSrcs` put their entries, and what that does to an execution:
the destinations act as if the names were written before the block, the sources as if they were
read after it.
-/

open List

namespace CoralReef

/-- Phi destinations for names. -/
def phiDstsOf (pairs : List (Phi × SSAValue)) : List (Phi × Dst) :=
  pairs.map fun entry => (entry.1, .ofSsa entry.2)

/-- Phi sources for names. -/
def phiSrcsOf (pairs : List (Phi × SSAValue)) : List (Phi × Src) :=
  pairs.map fun entry => (entry.1, .ofSsa entry.2)

theorem modify_middle {α : Type} (pre post : List α) (a : α) (change : α → α) :
    (pre ++ a :: post).modify pre.length change = pre ++ change a :: post := by
  induction pre with
  | nil => rfl
  | cons head pre ih => simpa using ih

theorem insertIdx_middle {α : Type} (pre post : List α) (a : α) :
    (pre ++ post).insertIdx pre.length a = pre ++ a :: post := by
  induction pre with
  | nil => simp
  | cons head pre ih => simpa using ih

namespace BasicBlock

theorem scanPhiDsts_eq_some : ∀ {instrs : List Instr} {ip : Nat} {dsts : List (Phi × Dst)},
    scanPhiDsts instrs = some (ip, dsts) → ∃ pre instr post, instrs = pre ++ instr :: post ∧
      pre.length = ip ∧ (∀ other ∈ pre, ∃ text, other.op = .annotate text) ∧
      instr.op = .phiDsts dsts := by
  intro instrs
  induction instrs with
  | nil =>
    intro ip dsts found
    cases found
  | cons head rest ih =>
    intro ip dsts found
    rw [scanPhiDsts] at found
    split at found
    next text isOp =>
      obtain ⟨⟨ip', dsts'⟩, found', same⟩ := Option.map_eq_some_iff.mp found
      cases same
      obtain ⟨pre, instr, post, split, length, heads, isPhi⟩ := ih found'
      refine ⟨head :: pre, instr, post, by rw [split]; rfl, by simp [length], ?_, isPhi⟩
      intro other member
      rcases mem_cons.mp member with rfl | member
      · exact ⟨text, isOp⟩
      · exact heads other member
    next dsts' isOp =>
      cases found
      exact ⟨[], head, rest, rfl, rfl, by simp, isOp⟩
    next => cases found

theorem isTail_of_isBranch {instr : Instr} (branch : instr.op.isBranch = true) :
    instr.isTail = true := by
  unfold Instr.isTail
  split
  next => rfl
  next => exact branch

theorem scanPhiSrcs_eq_some : ∀ {instrs : List Instr} {ip : Nat} {srcs : List (Phi × Src)},
    scanPhiSrcs instrs = some (ip, srcs) → ∃ pre instr post, instrs = pre ++ instr :: post ∧
      pre.length = ip ∧ (∀ other ∈ pre, other.isTail = true) ∧ instr.op = .phiSrcs srcs := by
  intro instrs
  induction instrs with
  | nil =>
    intro ip srcs found
    cases found
  | cons head rest ih =>
    intro ip srcs found
    have deeper : head.isTail = true →
        (scanPhiSrcs rest).map (fun found => (found.1 + 1, found.2)) = some (ip, srcs) →
        ∃ pre instr post, head :: rest = pre ++ instr :: post ∧ pre.length = ip ∧
          (∀ other ∈ pre, other.isTail = true) ∧ instr.op = .phiSrcs srcs := by
      intro tail found
      obtain ⟨⟨ip', srcs'⟩, found', same⟩ := Option.map_eq_some_iff.mp found
      cases same
      obtain ⟨pre, instr, post, split, length, tails, isPhi⟩ := ih found'
      refine ⟨head :: pre, instr, post, by rw [split]; rfl, by simp [length], ?_, isPhi⟩
      intro other member
      rcases mem_cons.mp member with rfl | member
      · exact tail
      · exact tails other member
    rw [scanPhiSrcs] at found
    split at found
    next text isOp => exact deeper (by simp [Instr.isTail, isOp]) found
    next srcs' isOp =>
      cases found
      exact ⟨[], head, rest, rfl, rfl, by simp, isOp⟩
    next =>
      split at found
      next branch => exact deeper (isTail_of_isBranch branch) found
      next => cases found

/-- Phi destinations go to those the block has, after its first annotations, or to its start. -/
theorem insertPhiDsts_cases (bb : BasicBlock) (new : List (Phi × Dst)) :
    (∃ pre instr dsts post, bb.instrs = pre ++ instr :: post ∧
      (∀ other ∈ pre, ∃ text, other.op = .annotate text) ∧ instr.op = .phiDsts dsts ∧
      (bb.insertPhiDsts new).instrs =
        pre ++ { instr with op := .phiDsts (dsts ++ new) } :: post) ∨
    (bb.insertPhiDsts new).instrs = .new (.phiDsts new) :: bb.instrs := by
  unfold insertPhiDsts phiDstsIp
  cases found : scanPhiDsts bb.instrs with
  | none => exact Or.inr rfl
  | some entry =>
    obtain ⟨ip, dsts⟩ := entry
    obtain ⟨pre, instr, post, split, length, heads, isPhi⟩ := scanPhiDsts_eq_some found
    refine Or.inl ⟨pre, instr, dsts, post, split, heads, isPhi, ?_⟩
    simp only [Option.map_some]
    rw [split, ← length, modify_middle]
    simp only [Instr.pushPhiDsts, isPhi]

/-- Phi sources go to those the block has, before its last branches and annotations, or before
its last branch. -/
theorem insertPhiSrcs_cases (bb : BasicBlock) (new : List (Phi × Src)) :
    (∃ pre instr srcs post, bb.instrs = pre ++ instr :: post ∧
      (∀ other ∈ post, other.isTail = true) ∧ instr.op = .phiSrcs srcs ∧
      (bb.insertPhiSrcs new).instrs =
        pre ++ { instr with op := .phiSrcs (srcs ++ new) } :: post) ∨
    ∃ pre post, bb.instrs = pre ++ post ∧ (∀ other ∈ post, other.isTail = true) ∧
      (bb.insertPhiSrcs new).instrs = pre ++ .new (.phiSrcs new) :: post := by
  unfold insertPhiSrcs phiSrcsIp
  cases found : scanPhiSrcs bb.instrs.reverse with
  | some entry =>
    obtain ⟨ip, srcs⟩ := entry
    obtain ⟨pre, instr, post, split, length, tails, isPhi⟩ := scanPhiSrcs_eq_some found
    have split' : bb.instrs = post.reverse ++ instr :: pre.reverse := by
      rw [← reverse_reverse bb.instrs, split]
      simp
    refine Or.inl ⟨post.reverse, instr, srcs, pre.reverse, split', ?_, isPhi, ?_⟩
    · intro other member
      exact tails other (mem_reverse.mp member)
    · have ip_eq : bb.instrs.length - 1 - ip = post.reverse.length := by
        rw [split']
        simp only [length_append, length_cons, length_reverse]
        omega
      simp only [Option.map_some]
      rw [ip_eq, split', modify_middle]
      simp only [Instr.pushPhiSrcs, isPhi]
  | none =>
    right
    simp only [Option.map_none]
    unfold branchIp branch
    cases last : bb.instrs.getLast?.filter Instr.isBranch with
    | none => exact ⟨bb.instrs, [], by simp, by simp, rfl⟩
    | some instr =>
      rw [Option.filter_eq_some_iff] at last
      obtain ⟨init, split⟩ := getLast?_eq_some_iff.mp last.1
      refine ⟨init, [instr], split, ?_, ?_⟩
      · intro other member
        rw [mem_singleton] at member
        subst member
        have isBranch : other.op.isBranch = true := last.2
        unfold Instr.isTail
        split
        · rfl
        · exact isBranch
      · have ip_eq : bb.instrs.length - 1 = init.length := by
          rw [split, length_append, length_singleton]
          omega
        simp only [Option.map_some]
        rw [ip_eq, split, insertIdx_middle]

end BasicBlock

namespace RepairSsa

/-- The instruction `out` is `src` with its uses replaced by what stands for them. -/
structure Remap (rep : SSAValue → SSAValue) (src out : Instr) : Prop where
  skeleton : out.skeleton = src.skeleton
  defs : out.ssaDefs = src.ssaDefs
  uses : out.ssaUses = src.ssaUses.map rep

variable {rep : SSAValue → SSAValue}

theorem Remap.refl_of_unused {instr : Instr} (unused : instr.ssaUses = []) :
    Remap rep instr instr := ⟨rfl, rfl, by rw [unused]; rfl⟩

theorem Remap.isClean {src out : Instr} (remap : Remap rep src out) :
    out.isClean = src.isClean := by
  rw [← Instr.skeleton_isClean, remap.skeleton, Instr.skeleton_isClean]

theorem Remap.flatMap_ssaDefs {src out : List Instr} (remapped : Forall₂ (Remap rep) src out) :
    out.flatMap Instr.ssaDefs = src.flatMap Instr.ssaDefs := by
  induction remapped with
  | nil => rfl
  | cons one _ ih => rw [flatMap_cons, flatMap_cons, ih, one.defs]

theorem Remap.of_mem {srcs outs : List Instr} (remapped : Forall₂ (Remap rep) srcs outs)
    {out : Instr} (member : out ∈ outs) : ∃ src ∈ srcs, Remap rep src out := by
  induction remapped with
  | nil => cases member
  | @cons src _ srcs _ one _ ih =>
    rcases mem_cons.mp member with rfl | member
    · exact ⟨src, mem_cons_self, one⟩
    · obtain ⟨other, inSrcs, remap⟩ := ih member
      exact ⟨other, mem_cons_of_mem src inSrcs, remap⟩

/-- Splitting a remapped list where the original splits. -/
theorem Remap.split {instr : Instr} {post : List Instr} : ∀ {pre out : List Instr},
    Forall₂ (Remap rep) (pre ++ instr :: post) out →
    ∃ pre' instr' post', out = pre' ++ instr' :: post' ∧ Forall₂ (Remap rep) pre pre' ∧
      Remap rep instr instr' ∧ Forall₂ (Remap rep) post post' := by
  intro pre
  induction pre with
  | nil =>
    intro out remapped
    cases remapped with
    | cons one rest => exact ⟨[], _, _, rfl, .nil, one, rest⟩
  | cons head pre ih =>
    intro out remapped
    cases remapped with
    | cons first rest =>
      obtain ⟨pre', instr', post', rfl, remappedPre, one, remappedPost⟩ := ih rest
      exact ⟨_ :: pre', instr', post', rfl, .cons first remappedPre, one, remappedPost⟩

theorem forall₂_append {α β : Type} {related : α → β → Prop} {as as' : List α} {bs bs' : List β}
    (first : Forall₂ related as bs) (second : Forall₂ related as' bs') :
    Forall₂ related (as ++ as') (bs ++ bs') := rel_append first second

/-- An annotation without a guard uses and defines nothing. -/
theorem Remap.annotation {instr instr' : Instr} {text : String} (remap : Remap rep instr instr')
    (isOp : instr.op = .annotate text) (unguarded : instr.pred.iterSsa = []) :
    instr'.ssaUses = [] ∧ instr'.ssaDefs = [] ∧ instr'.skeleton.op = .annotate text := by
  have uses : instr.ssaUses = [] := by
    simp [Instr.ssaUses, unguarded, Instr.srcs, isOp, Op.srcs]
  have defs : instr.ssaDefs = [] := by simp [Instr.ssaDefs, Instr.dsts, isOp, Op.dsts]
  refine ⟨by rw [remap.uses, uses]; rfl, by rw [remap.defs, defs], ?_⟩
  rw [remap.skeleton, Instr.skeleton_op, isOp]
  rfl

/-- What the annotations before the phi destinations do: nothing but to be observed. -/
theorem run_annotations {V : Type} (interp : Interp V) : ∀ {pre pre' : List Instr},
    Forall₂ (Remap rep) pre pre' →
    (∀ instr ∈ pre, (∃ text, instr.op = .annotate text) ∧ instr.pred.iterSsa = []) →
    ∃ effects trace, ∀ machine : Machine V, interp.run pre' machine =
      { machine with
        effects := machine.effects ++ effects
        trace := machine.trace ++ trace } := by
  intro pre pre' remapped
  induction remapped with
  | nil => exact fun _ => ⟨[], [], fun machine => by simp⟩
  | @cons instr instr' pre pre' one _ ih =>
    intro heads
    obtain ⟨⟨text, isOp⟩, unguarded⟩ := heads instr mem_cons_self
    obtain ⟨uses, defs, isOp'⟩ := one.annotation isOp unguarded
    obtain ⟨effects, trace, rest⟩ := ih fun other member =>
      heads other (mem_cons_of_mem instr member)
    refine ⟨(if instr'.skeleton.isEffect then interp.events instr'.skeleton [] else []) ++ effects,
      interp.events instr'.skeleton [] ++ trace, ?_⟩
    intro machine
    have noReads : ∀ reads, interp.phiReads instr'.skeleton reads = [] := by
      intro reads
      simp only [Interp.phiReads, isOp']
    have step : interp.step machine instr' =
        { machine with
          effects := machine.effects ++
            if instr'.skeleton.isEffect then interp.events instr'.skeleton [] else []
          trace := machine.trace ++ interp.events instr'.skeleton [] } := by
      rw [Interp.step_eq, uses, defs, map_nil, noReads]
      cases instr'.skeleton.isEffect <;> simp
    rw [Interp.run_cons, step, rest]
    simp

theorem scoped_annotations {pre pre' : List Instr} (remapped : Forall₂ (Remap rep) pre pre')
    (heads : ∀ instr ∈ pre, (∃ text, instr.op = .annotate text) ∧ instr.pred.iterSsa = []) :
    ∀ defined, Scoped defined pre' := by
  induction remapped with
  | nil => exact fun _ => trivial
  | @cons instr instr' pre pre' one _ ih =>
    intro defined
    obtain ⟨⟨text, isOp⟩, unguarded⟩ := heads instr mem_cons_self
    obtain ⟨uses, -, -⟩ := one.annotation isOp unguarded
    refine ⟨by rw [uses]; simp, ih ?_ _⟩
    exact fun other member => heads other (mem_cons_of_mem instr member)

section Dsts

variable {bb : BasicBlock} {pairs : List (Phi × SSAValue)} {out : List Instr}

/-- The block with new phi destinations, remapped, next to the block remapped without them. -/
structure Headed (pairs : List (Phi × SSAValue)) (base out : List Instr) : Prop where
  clean : (∀ instr ∈ base, instr.isClean = true) → ∀ instr ∈ out, instr.isClean = true
  holds : ∀ defined, Scoped (fun x => defined x ∨ x ∈ pairs.map Prod.snd) base →
    Scoped defined out
  defs : (out.flatMap Instr.ssaDefs).Perm
    (pairs.map Prod.snd ++ base.flatMap Instr.ssaDefs)
  run : (∀ x ∈ pairs.map Prod.snd, x ∉ base.flatMap Instr.ssaDefs) →
    ∀ {V : Type} (interp : Interp V) (machine : Machine V), interp.run out machine =
      interp.run base { machine with
        vals := assign machine.vals (pairs.map fun entry => (entry.2, machine.phis entry.1)) }

theorem phiDstsOf_iterSsa (pairs : List (Phi × SSAValue)) :
    (phiDstsOf pairs).flatMap (fun entry => entry.2.iterSsa) = pairs.map Prod.snd := by
  induction pairs with
  | nil => rfl
  | cons entry pairs ih =>
    rw [phiDstsOf, map_cons, flatMap_cons, map_cons, ← ih]
    rfl

theorem phiDstsOf_results {V : Type} (phis : Phi → V) (pairs : List (Phi × SSAValue)) :
    ((phiDstsOf pairs).flatMap fun entry => entry.2.iterSsa.map fun _ => phis entry.1) =
      pairs.map fun entry => phis entry.1 := by
  induction pairs with
  | nil => rfl
  | cons entry pairs ih =>
    rw [phiDstsOf, map_cons, flatMap_cons, map_cons, ← ih]
    rfl

/-- A phi destinations instruction without a guard writes the phis to the names. -/
theorem Remap.phiDsts {instr instr' : Instr} {dsts : List (Phi × Dst)}
    (remap : Remap rep instr instr') (isOp : instr.op = .phiDsts dsts)
    (unguarded : instr.pred.iterSsa = []) :
    instr'.ssaUses = [] ∧ instr'.ssaDefs = dsts.flatMap (fun entry => entry.2.iterSsa) ∧
      ∀ {V : Type} (interp : Interp V) (machine : Machine V), interp.step machine instr' =
        { machine with
          vals := assign machine.vals ((dsts.flatMap fun entry => entry.2.iterSsa).zip
            (dsts.flatMap fun entry => entry.2.iterSsa.map fun _ => machine.phis entry.1)) } := by
  have uses : instr'.ssaUses = [] := by
    rw [remap.uses]
    simp [Instr.ssaUses, unguarded, Instr.srcs, isOp, Op.srcs]
  have defs : instr'.ssaDefs = dsts.flatMap fun entry => entry.2.iterSsa := by
    rw [remap.defs, Instr.ssaDefs, Instr.dsts, isOp, Op.dsts, flatMap_map]
  refine ⟨uses, defs, ?_⟩
  intro V interp machine
  have noEffect : instr'.skeleton.isEffect = false := by
    simp [remap.skeleton, Instr.isEffect, Instr.canEliminate, Instr.skeleton_phiDsts isOp,
      Op.canEliminate]
  have noEvents : interp.events instr'.skeleton [] = [] := by
    rw [remap.skeleton]
    simp only [Interp.events, Instr.skeleton_phiDsts isOp]
  have noReads : interp.phiReads instr'.skeleton [] = [] := by
    rw [remap.skeleton]
    exact interp.phiReads_eq_nil (by simp [isOp]) []
  rw [Interp.step_eq, uses, map_nil, noReads, noEffect, noEvents, defs, remap.skeleton,
    interp.results_phiDsts isOp]
  simp

theorem iterSsa_results_length {V : Type} (phis : Phi → V) (dsts : List (Phi × Dst)) :
    (dsts.flatMap fun entry => entry.2.iterSsa).length =
      (dsts.flatMap fun entry => entry.2.iterSsa.map fun _ => phis entry.1).length := by
  simp [length_flatMap]

theorem phiDstsOf_zip {V : Type} (phis : Phi → V) (pairs : List (Phi × SSAValue)) :
    ((phiDstsOf pairs).flatMap fun entry => entry.2.iterSsa).zip
        ((phiDstsOf pairs).flatMap fun entry => entry.2.iterSsa.map fun _ => phis entry.1) =
      pairs.map fun entry => (entry.2, phis entry.1) := by
  rw [phiDstsOf_iterSsa, phiDstsOf_results]
  exact zip_map' ..

/-- Further entries leave a phi instruction clean. -/
theorem isClean_phiDsts {instr : Instr} {dsts : List (Phi × Dst)} (isOp : instr.op = .phiDsts dsts)
    (clean : instr.isClean = true) (pairs : List (Phi × SSAValue)) :
    ({ instr with op := .phiDsts (dsts ++ phiDstsOf pairs) } : Instr).isClean = true := by
  simp only [Instr.isClean, isOp, Instr.dsts, Op.dsts, Bool.and_eq_true] at clean ⊢
  refine ⟨clean.1, ?_⟩
  rw [map_append, all_append, clean.2, phiDstsOf, map_map, all_map]
  simp [Dst.ofSsa, Dst.asReg, Function.comp_def]

theorem isClean_phiSrcs {instr : Instr} {srcs : List (Phi × Src)} (isOp : instr.op = .phiSrcs srcs)
    (clean : instr.isClean = true) (srcs' : List (Phi × Src)) :
    ({ instr with op := .phiSrcs srcs' } : Instr).isClean = true := by
  simpa [Instr.isClean, isOp, Instr.dsts, Op.dsts] using clean

theorem insertPhiDsts_remapped
    (unguarded : ∀ instr ∈ bb.instrs, instr.isHead = true → instr.pred.iterSsa = [])
    (remapped : Forall₂ (Remap rep) (bb.insertPhiDsts (phiDstsOf pairs)).instrs out) :
    ∃ base, Forall₂ (Remap rep) bb.instrs base ∧ Headed pairs base out := by
  rcases bb.insertPhiDsts_cases (phiDstsOf pairs) with
    ⟨pre, instr, dsts, post, split, annotations, isOp, isNew⟩ | isNew
  · rw [isNew] at remapped
    obtain ⟨pre', new, post', rfl, remappedPre, one, remappedPost⟩ := Remap.split remapped
    have noGuard : instr.pred.iterSsa = [] :=
      unguarded instr (by simp [split]) (by simp [Instr.isHead, isOp])
    have heads : ∀ other ∈ pre, (∃ text, other.op = .annotate text) ∧ other.pred.iterSsa = [] := by
      intro other member
      obtain ⟨text, isAnnotation⟩ := annotations other member
      exact ⟨⟨text, isAnnotation⟩, unguarded other (by simp [split, member])
        (by simp [Instr.isHead, isAnnotation])⟩
    have noUses : instr.ssaUses = [] := by
      simp [Instr.ssaUses, noGuard, Instr.srcs, isOp, Op.srcs]
    obtain ⟨newUses, newDefs, newStep⟩ := one.phiDsts rfl noGuard
    have same : Remap rep instr instr := Remap.refl_of_unused noUses
    obtain ⟨-, oldDefs, oldStep⟩ := same.phiDsts isOp noGuard
    rw [flatMap_append, phiDstsOf_iterSsa, ← oldDefs] at newDefs
    refine ⟨pre' ++ instr :: post', ?_, ?_, ?_, ?_, ?_⟩
    · rw [split]
      exact forall₂_append remappedPre (.cons same remappedPost)
    · intro clean other member
      rcases mem_append.mp member with before | member
      · exact clean other (mem_append_left _ before)
      · rcases mem_cons.mp member with rfl | after
        · rw [one.isClean]
          exact isClean_phiDsts isOp (clean instr (by simp)) pairs
        · exact clean other (by simp [after])
    · intro defined holds
      rw [scoped_append] at holds ⊢
      refine ⟨scoped_annotations remappedPre heads defined, by rw [newUses]; simp, ?_⟩
      apply Scoped.mono ?_ holds.2.2
      intro x
      rw [newDefs, mem_append]
      tauto
    · simp only [flatMap_append, flatMap_cons, newDefs]
      rw [← append_assoc, ← append_assoc, ← append_assoc, ← append_assoc]
      refine Perm.append_right _ ?_
      rw [append_assoc (pairs.map Prod.snd)]
      exact perm_append_comm
    · intro apart V interp machine
      obtain ⟨effects, trace, runPre⟩ := run_annotations interp remappedPre heads
      rw [Interp.run_append, Interp.run_append, runPre, runPre, Interp.run_cons, Interp.run_cons,
        newStep, oldStep]
      congr 1
      simp only
      rw [flatMap_append, flatMap_append, zip_append (iterSsa_results_length ..),
        phiDstsOf_zip, assign_append, assign_comm]
      intro x inOld inNew
      rw [map_fst_zip (iterSsa_results_length ..).le, ← oldDefs] at inOld
      rw [map_map] at inNew
      refine apart x inNew ?_
      simp [inOld]
  · rw [isNew] at remapped
    cases remapped with
    | @cons _ new _ base one rest =>
      obtain ⟨newUses, newDefs, newStep⟩ := one.phiDsts rfl rfl
      rw [phiDstsOf_iterSsa] at newDefs
      refine ⟨base, rest, ?_, ?_, ?_, ?_⟩
      · intro clean other member
        rcases mem_cons.mp member with rfl | after
        · rw [one.isClean]
          have none : (Instr.new (.phiDsts [])).op = .phiDsts [] := rfl
          exact isClean_phiDsts none rfl pairs
        · exact clean other after
      · intro defined holds
        refine ⟨by rw [newUses]; simp, ?_⟩
        rwa [newDefs]
      · rw [flatMap_cons, newDefs]
      · intro _ V interp machine
        rw [Interp.run_cons, newStep, phiDstsOf_zip]

end Dsts

/-- Phis that are given the values of names, one after the other. -/
def givePhis {V : Type} (vals : SSAValue → V) (pairs : List (Phi × SSAValue)) (phis : Phi → V) :
    Phi → V :=
  pairs.foldl (fun phis entry => Function.update phis entry.1 (vals entry.2)) phis

/-- The same machine but for phis that are not known and their events. -/
structure SameBut {V : Type} (known : Phi → Bool) (pairs : List (Phi × SSAValue))
    (machine machine' : Machine V) : Prop where
  vals : machine'.vals = machine.vals
  effects : machine'.effects = machine.effects
  trace : observe known machine'.trace = observe known machine.trace
  phis : machine'.phis = givePhis machine.vals pairs machine.phis

theorem SameBut.tail {V : Type} {known : Phi → Bool} {pairs : List (Phi × SSAValue)}
    {machine machine' : Machine V} (same : SameBut known pairs machine machine')
    (interp : Interp V) {post : List Instr} (tail : ∀ instr ∈ post, instr.isTail = true) :
    SameBut known pairs (interp.run post machine) (interp.run post machine') := by
  rw [interp.run_tail post tail, interp.run_tail post tail]
  refine ⟨same.vals, ?_, ?_, same.phis⟩
  · simp only
    rw [same.vals, same.effects]
  · simp only
    rw [observe_append, observe_append, same.trace, same.vals]

theorem phiSrcsOf_iterSsa (pairs : List (Phi × SSAValue)) :
    (phiSrcsOf pairs).flatMap (fun entry => entry.2.iterSsa) = pairs.map Prod.snd := by
  induction pairs with
  | nil => rfl
  | cons entry pairs ih =>
    rw [phiSrcsOf, map_cons, flatMap_cons, map_cons, ← ih]
    rfl

theorem phiSrcs_ssaDefs {instr : Instr} {srcs : List (Phi × Src)} (isOp : instr.op = .phiSrcs srcs) :
    instr.ssaDefs = [] := by
  simp [Instr.ssaDefs, Instr.dsts, isOp, Op.dsts]

/-- Further phi sources are read after those there are. -/
theorem phiReads_append {V : Type} (interp : Interp V) {instr instr' : Instr}
    {srcs : List (Phi × Src)} {pairs : List (Phi × SSAValue)} (isOp : instr.op = .phiSrcs srcs)
    (isOp' : instr'.op = .phiSrcs (srcs ++ phiSrcsOf pairs)) (vals : SSAValue → V) :
    interp.phiReads instr'.skeleton (instr'.ssaUses.map vals) =
      interp.phiReads instr.skeleton (instr.ssaUses.map vals) ++
        pairs.map fun entry => (entry.1, vals entry.2) := by
  have erased : (phiSrcsOf pairs).map (fun entry => entry.2.erase) =
      (pairs.map Prod.snd).map fun v => (Src.ofSsa v).erase := by
    rw [phiSrcsOf, map_map, map_map]
    rfl
  have phis : (phiSrcsOf pairs).map Prod.fst = pairs.map Prod.fst := by
    rw [phiSrcsOf, map_map]
    rfl
  have length : ((srcs.map fun entry => entry.2.erase).flatMap Src.iterSsa).length =
      ((srcs.flatMap fun entry => entry.2.iterSsa).map vals).length := by
    simp [length_flatMap, Src.erase_iterSsa, map_map, Function.comp_def]
  have reads : interp.readSrcs (srcs.map fun entry => entry.2.erase)
      ((srcs.flatMap fun entry => entry.2.iterSsa).map vals ++ (pairs.map Prod.snd).map vals) =
        interp.readSrcs (srcs.map fun entry => entry.2.erase)
          ((srcs.flatMap fun entry => entry.2.iterSsa).map vals) :=
    interp.readSrcs_enough _ _ _ length.le
  rw [interp.phiReads_phiSrcs isOp', interp.phiReads_phiSrcs isOp, map_append,
    map_append, flatMap_append, map_append, phiSrcsOf_iterSsa, erased, phis,
    Interp.readSrcs_append, reads, length, drop_left' rfl, interp.readSrcs_ofSsa,
    zip_append (by simp [Interp.readSrcs_length]), map_map]
  congr 1
  exact zip_map' ..

/-- The block with new phi sources next to the block without them. -/
structure Tailed (pairs : List (Phi × SSAValue)) (base out : List Instr) : Prop where
  clean : (∀ instr ∈ base, instr.isClean = true) → ∀ instr ∈ out, instr.isClean = true
  holds : ∀ defined, Scoped defined base →
    (∀ v ∈ pairs.map Prod.snd, defined v ∨ v ∈ base.flatMap Instr.ssaDefs) → Scoped defined out
  defs : out.flatMap Instr.ssaDefs = base.flatMap Instr.ssaDefs
  run : ∀ known : Phi → Bool, (∀ entry ∈ pairs, known entry.1 = false) →
    ∀ {V : Type} (interp : Interp V) (machine : Machine V),
      SameBut known pairs (interp.run base machine) (interp.run out machine)

theorem tail_ssaDefs {post : List Instr} (tail : ∀ instr ∈ post, instr.isTail = true) :
    post.flatMap Instr.ssaDefs = [] := by
  rw [flatMap_eq_nil_iff]
  exact fun instr member => Instr.isTail.ssaDefs (tail instr member)

theorem insertPhiSrcs_tailed (bb : BasicBlock) (pairs : List (Phi × SSAValue)) :
    Tailed pairs bb.instrs (bb.insertPhiSrcs (phiSrcsOf pairs)).instrs := by
  rcases bb.insertPhiSrcs_cases (phiSrcsOf pairs) with
    ⟨pre, instr, srcs, post, split, tail, isOp, isNew⟩ | ⟨pre, post, split, tail, isNew⟩
  · rw [split, isNew]
    have noDefs : instr.ssaDefs = [] := phiSrcs_ssaDefs isOp
    have noDefs' : ({ instr with op := .phiSrcs (srcs ++ phiSrcsOf pairs) } : Instr).ssaDefs = [] :=
      phiSrcs_ssaDefs rfl
    have uses : ({ instr with op := .phiSrcs (srcs ++ phiSrcsOf pairs) } : Instr).ssaUses =
        instr.ssaUses ++ pairs.map Prod.snd := by
      simp only [Instr.ssaUses, Instr.srcs, isOp, Op.srcs, flatMap_map, flatMap_append,
        phiSrcsOf_iterSsa, append_assoc]
    refine ⟨?_, ?_, ?_, ?_⟩
    · intro clean other member
      rcases mem_append.mp member with before | member
      · exact clean other (mem_append_left _ before)
      · rcases mem_cons.mp member with rfl | after
        · exact isClean_phiSrcs isOp (clean instr (by simp)) _
        · exact clean other (by simp [after])
    · intro defined holds known
      rw [scoped_append] at holds ⊢
      refine ⟨holds.1, ?_, ?_⟩
      · intro x used
        rw [uses, mem_append] at used
        rcases used with used | used
        · exact holds.2.1 x used
        · have := known x used
          rwa [flatMap_append, flatMap_cons, noDefs, tail_ssaDefs tail, append_nil,
            append_nil] at this
      · have rest := holds.2.2
        rw [noDefs] at rest
        rwa [noDefs']
    · rw [flatMap_append, flatMap_append, flatMap_cons, flatMap_cons, noDefs,
        noDefs']
    · intro known hidden V interp machine
      rw [Interp.run_append, Interp.run_append, Interp.run_cons, Interp.run_cons,
        interp.step_phiSrcs isOp, interp.step_phiSrcs rfl]
      apply SameBut.tail ?_ interp tail
      refine ⟨rfl, rfl, ?_, ?_⟩
      · simp only
        rw [phiReads_append interp isOp rfl, map_append, ← append_assoc,
          observe_append known _ (map _ (map _ pairs)), observe_phi, append_nil]
        intro entry member
        obtain ⟨pair, inPairs, rfl⟩ := mem_map.mp member
        exact hidden pair inPairs
      · simp only
        rw [phiReads_append interp isOp rfl, foldl_append, foldl_map]
        rfl
  · rw [split, isNew]
    have noDefs : (Instr.new (.phiSrcs (phiSrcsOf pairs))).ssaDefs = [] := phiSrcs_ssaDefs rfl
    have uses : (Instr.new (.phiSrcs (phiSrcsOf pairs))).ssaUses = pairs.map Prod.snd := by
      rw [← phiSrcsOf_iterSsa]
      simp only [Instr.ssaUses, Instr.srcs, Instr.new, Op.srcs, flatMap_map]
      rfl
    refine ⟨?_, ?_, ?_, ?_⟩
    · intro clean other member
      rcases mem_append.mp member with before | member
      · exact clean other (mem_append_left _ before)
      · rcases mem_cons.mp member with rfl | after
        · rfl
        · exact clean other (mem_append_right _ after)
    · intro defined holds known
      rw [scoped_append] at holds ⊢
      refine ⟨holds.1, ?_, ?_⟩
      · intro x used
        rw [uses] at used
        have := known x used
        rwa [flatMap_append, tail_ssaDefs tail, append_nil] at this
      · rw [noDefs]
        exact Scoped.mono (fun x => Or.inl) holds.2
    · rw [flatMap_append, flatMap_append, flatMap_cons, noDefs, nil_append]
    · intro known hidden V interp machine
      have reads : ∀ vals : SSAValue → V, interp.phiReads
          (Instr.new (.phiSrcs (phiSrcsOf pairs))).skeleton
          ((Instr.new (.phiSrcs (phiSrcsOf pairs))).ssaUses.map vals) =
            pairs.map fun entry => (entry.1, vals entry.2) := by
        intro vals
        have none : (Instr.new (.phiSrcs [])).op = .phiSrcs [] := rfl
        exact phiReads_append interp none rfl vals
      rw [Interp.run_append, Interp.run_append, Interp.run_cons, interp.step_phiSrcs rfl]
      apply SameBut.tail ?_ interp tail
      refine ⟨rfl, rfl, ?_, ?_⟩
      · simp only
        rw [reads, observe_append, observe_phi, append_nil]
        intro entry member
        obtain ⟨pair, inPairs, rfl⟩ := mem_map.mp member
        exact hidden pair inPairs
      · simp only
        rw [reads, foldl_map]
        rfl

end RepairSsa

end CoralReef
