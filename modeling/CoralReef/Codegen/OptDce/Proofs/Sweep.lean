import CoralReef.Codegen.Ir.Proofs.Step
import CoralReef.Codegen.OptDce.Proofs.Marks
import Mathlib.Data.List.Flatten

/-!
# What dead-code elimination leaves

Each instruction against what is left of it, next to an execution: as far as live names and phis
go, it does the same.
-/

open List

namespace CoralReef

variable {V : Type} {ssas phis : List Nat}

/-- The machine after what is left of a function, next to the machine after the function. -/
structure LiveAgree (ssas phis : List Nat) (machine machine' : Machine V) : Prop where
  vals : ∀ x : SSAValue, x.idx ∈ ssas → machine'.vals x = machine.vals x
  phis : ∀ phi : Phi, phi.idx ∈ phis → machine'.phis phi = machine.phis phi
  effects : machine'.effects = machine.effects
  trace : machine'.trace.Sublist machine.trace

/-- What may be left of an instruction. -/
structure Swept (ssas phis : List Nat) (instr : Instr) (out : Option Instr) : Prop where
  uses : ∀ left ∈ out, ∀ x ∈ left.ssaUses, x.idx ∈ ssas ∧ x ∈ instr.ssaUses
  defs : (out.toList.flatMap Instr.ssaDefs).Sublist instr.ssaDefs
  kept : ∀ x ∈ instr.ssaDefs, x.idx ∈ ssas → x ∈ out.toList.flatMap Instr.ssaDefs
  run : ∀ {V : Type} (interp : Interp V) (machine machine' : Machine V),
    LiveAgree ssas phis machine machine' →
      LiveAgree ssas phis (interp.step machine instr) (interp.run out.toList machine')

/-- Writes of which some that are not live are left out. -/
theorem assign_filter {α : Type} {writes writes' : α → List (SSAValue × V)} {keep : α → Bool} :
    ∀ {list : List α} {vals vals' : SSAValue → V},
      (∀ a ∈ list, keep a = true → writes' a = writes a) →
      (∀ a ∈ list, keep a = false → ∀ write ∈ writes a, write.1.idx ∉ ssas) →
      (∀ x : SSAValue, x.idx ∈ ssas → vals' x = vals x) → ∀ x : SSAValue, x.idx ∈ ssas →
        assign vals' ((list.filter keep).flatMap writes') x =
          assign vals (list.flatMap writes) x := by
  intro list
  induction list with
  | nil => exact fun _ _ agree x live => agree x live
  | cons head list ih =>
    intro vals vals' same dead agree
    have same' := fun a member => same a (mem_cons_of_mem head member)
    have dead' := fun a member => dead a (mem_cons_of_mem head member)
    cases kept : keep head with
    | true =>
      rw [filter_cons_of_pos kept, flatMap_cons, flatMap_cons,
        same head mem_cons_self kept]
      intro x live
      rw [assign_append, assign_append]
      apply ih same' dead' ?_ x live
      intro y live
      exact assign_congr (agree y live) _
    | false =>
      rw [filter_cons_of_neg (by simp [kept]), flatMap_cons]
      intro x live
      rw [assign_append]
      apply ih same' dead' ?_ x live
      intro y live
      rw [agree y live]
      refine (assign_other ?_).symm
      intro written
      obtain ⟨write, member, isY⟩ := mem_map.mp written
      rw [← isY] at live
      exact dead head mem_cons_self kept write member live

/-- Phi sources of which those that are not live are left out. -/
theorem phis_filter (reads : Phi × Src → V) {keep : Phi × Src → Bool}
    (dead : ∀ entry, keep entry = false → entry.1.idx ∉ phis) :
    ∀ (list : List (Phi × Src)) {values values' : Phi → V},
      (∀ phi : Phi, phi.idx ∈ phis → values' phi = values phi) → ∀ phi : Phi, phi.idx ∈ phis →
        ((list.filter keep).map fun entry => (entry.1, reads entry)).foldl
            (fun phis entry => Function.update phis entry.1 entry.2) values' phi =
          (list.map fun entry => (entry.1, reads entry)).foldl
            (fun phis entry => Function.update phis entry.1 entry.2) values phi := by
  intro list
  induction list with
  | nil => exact fun agree phi live => agree phi live
  | cons head list ih =>
    intro values values' agree
    cases kept : keep head with
    | true =>
      rw [filter_cons_of_pos kept, map_cons, map_cons]
      apply ih
      intro phi live
      dsimp only
      by_cases same : phi = head.1
      · rw [same, Function.update_self, Function.update_self]
      · rw [Function.update_of_ne same, Function.update_of_ne same, agree phi live]
    | false =>
      rw [filter_cons_of_neg (by simp [kept]), map_cons]
      apply ih
      intro phi live
      dsimp only
      have other : phi ≠ head.1 := by
        rintro rfl
        exact dead head kept live
      rw [Function.update_of_ne other, agree phi live]

/-- The same instruction reads the same values where what it uses is live. -/
theorem LiveAgree.reads {machine machine' : Machine V} (agree : LiveAgree ssas phis machine machine')
    {names : List SSAValue} (live : ∀ x ∈ names, x.idx ∈ ssas) :
    names.map machine'.vals = names.map machine.vals :=
  map_congr_left fun x member => agree.vals x (live x member)

namespace Swept

variable {instr : Instr}

/-- An instruction that does nothing live can go. -/
theorem dropped (notPhi : instr.isPhi = false) (noEffect : instr.isEffect = false)
    (dead : ∀ x ∈ instr.ssaDefs, x.idx ∉ ssas) : Swept ssas phis instr none where
  uses := by simp
  defs := by simp
  kept := fun x member live => absurd live (dead x member)
  run := by
    intro V interp machine machine' agree
    have noReads : ∀ reads, interp.phiReads instr.skeleton reads = [] := by
      refine interp.phiReads_eq_nil ?_
      intro srcs isOp
      simp [Instr.isPhi, isOp] at notPhi
    rw [Interp.step_eq, Instr.skeleton_isEffect, noEffect, noReads]
    refine ⟨?_, agree.phis, agree.effects, ?_⟩
    · intro x live
      refine (agree.vals x live).trans (assign_other ?_).symm
      intro written
      obtain ⟨write, member, isX⟩ := mem_map.mp written
      rw [← isX] at live
      exact dead write.1 (of_mem_zip member).1 live
    · exact agree.trace.trans (sublist_append_left ..)

/-- An instruction that stays as it is. -/
theorem same (notPhi : instr.isPhi = false) (live : ∀ x ∈ instr.ssaUses, x.idx ∈ ssas) :
    Swept ssas phis instr (some instr) where
  uses := by
    rintro left ⟨⟩ x used
    exact ⟨live x used, used⟩
  defs := by simp
  kept := by
    intro x defined _
    simpa using defined
  run := by
    intro V interp machine machine' agree
    have reads := agree.reads live
    have results : interp.results machine' instr.skeleton (instr.ssaUses.map machine.vals) =
        interp.results machine instr.skeleton (instr.ssaUses.map machine.vals) := by
      refine interp.results_congr agree.effects ?_ _
      intro dsts isPhi
      obtain ⟨dsts', isOp, -⟩ := Instr.phiDsts_of_skeleton isPhi
      simp [Instr.isPhi, isOp] at notPhi
    have noReads : ∀ reads, interp.phiReads instr.skeleton reads = [] := by
      refine interp.phiReads_eq_nil ?_
      intro srcs isOp
      simp [Instr.isPhi, isOp] at notPhi
    show LiveAgree ssas phis _ (interp.step machine' instr)
    rw [Interp.step_eq, Interp.step_eq, reads, results, noReads]
    refine ⟨?_, agree.phis, ?_, ?_⟩
    · intro x live
      exact assign_congr (agree.vals x live) _
    · simp only [agree.effects]
    · exact agree.trace.append (Sublist.refl _)

/-- An annotation does nothing. -/
theorem annotated (swept : Swept ssas phis instr none) (text : String) :
    Swept ssas phis instr (some (.new (.annotate text))) where
  uses := by
    rintro left ⟨⟩ x used
    cases used
  defs := swept.defs
  kept := swept.kept
  run := by
    intro V interp machine machine' agree
    have nothing : interp.step machine' (.new (.annotate text)) = machine' := by
      show ({ machine' with
        effects := machine'.effects ++ []
        trace := machine'.trace ++ [] } : Machine V) = machine'
      rw [append_nil, append_nil]
    show LiveAgree ssas phis _ (interp.step machine' (.new (.annotate text)))
    rw [nothing]
    exact swept.run interp machine machine' agree

/-- Where nothing is left of the entries of an instruction, the instruction goes as well. -/
theorem orNone {instr left : Instr} {gone : Prop} [Decidable gone]
    (swept : Swept ssas phis instr (some left)) (noDefs : gone → left.ssaDefs = [])
    (nothing : gone → ∀ {V : Type} (interp : Interp V) (machine : Machine V),
      interp.step machine left = machine) :
    Swept ssas phis instr (if gone then none else some left) := by
  split
  next empty =>
    have defs : (some left).toList.flatMap Instr.ssaDefs = [] := by simp [noDefs empty]
    refine ⟨by simp, by simp, ?_, ?_⟩
    · intro x defined live
      have := swept.kept x defined live
      rw [defs] at this
      cases this
    · intro V interp machine machine' agree
      have := swept.run interp machine machine' agree
      rwa [Option.toList_some, Interp.run_cons, nothing empty] at this
  next => exact swept

/-- Phi sources lose those that are not live. -/
theorem phiSrcs {srcs : List (Phi × Src)} (isOp : instr.op = .phiSrcs srcs)
    (unguarded : instr.pred.iterSsa = []) {keep : Phi × Src → Bool}
    (live : ∀ entry ∈ srcs, keep entry = true → ∀ x ∈ entry.2.iterSsa, x.idx ∈ ssas)
    (dead : ∀ entry, keep entry = false → entry.1.idx ∉ phis) :
    Swept ssas phis instr (if srcs.filter keep = [] then none
      else some { instr with op := .phiSrcs (srcs.filter keep) }) := by
  have noDefs : ∀ srcs, ({ instr with op := .phiSrcs srcs } : Instr).ssaDefs = [] :=
    fun _ => rfl
  refine orNone ⟨?_, ?_, ?_, ?_⟩ (fun _ => noDefs _) ?_
  · rintro left ⟨⟩ x used
    simp only [Instr.ssaUses, unguarded, Instr.srcs, isOp, Op.srcs, nil_append,
      mem_flatMap, mem_map] at used ⊢
    obtain ⟨src, ⟨entry, member, rfl⟩, named⟩ := used
    rw [mem_filter] at member
    exact ⟨live entry member.1 member.2 x named, entry.2, ⟨entry, member.1, rfl⟩, named⟩
  · simp [noDefs]
  · intro x defined
    simp [Instr.ssaDefs, Instr.dsts, isOp, Op.dsts] at defined
  · intro V interp machine machine' agree
    have reads : ((srcs.filter keep).map fun entry =>
        (entry.1, interp.readSrc entry.2.erase (entry.2.iterSsa.map machine'.vals))) =
          (srcs.filter keep).map fun entry =>
            (entry.1, interp.readSrc entry.2.erase (entry.2.iterSsa.map machine.vals)) := by
      apply map_congr_left
      intro entry member
      rw [mem_filter] at member
      rw [agree.reads (live entry member.1 member.2)]
    rw [Option.toList_some, Interp.run_cons, Interp.run_nil, interp.step_phiSrcs isOp,
      interp.step_phiSrcs rfl, interp.phiReads_eq isOp, interp.phiReads_eq rfl, reads]
    refine ⟨agree.vals, ?_, agree.effects, ?_⟩
    · exact phis_filter _ dead srcs agree.phis
    exact agree.trace.append ((filter_sublist.map _).map _)
  · intro empty V interp machine
    rw [interp.step_phiSrcs rfl, interp.phiReads_eq rfl, empty, map_nil, map_nil,
      append_nil]
    rfl

/-- The definitions of the destinations that are kept. -/
theorem defs_filter {α : Type} (ssas : List Nat) (dst : α → Dst) (list : List α) :
    ((list.filter fun a => (dst a).isLive ssas).flatMap fun a => (dst a).iterSsa).Sublist
        (list.flatMap fun a => (dst a).iterSsa) ∧
      ∀ x ∈ list.flatMap fun a => (dst a).iterSsa, x.idx ∈ ssas →
        x ∈ (list.filter fun a => (dst a).isLive ssas).flatMap fun a => (dst a).iterSsa := by
  refine ⟨(filter_sublist.map _).flatten, ?_⟩
  intro x member live
  obtain ⟨a, inList, named⟩ := mem_flatMap.mp member
  refine mem_flatMap.mpr ⟨a, mem_filter.mpr ⟨inList, ?_⟩, named⟩
  exact any_eq_true.mpr ⟨x, named, decide_eq_true live⟩

theorem dead_dst {dst : Dst} (dead : dst.isLive ssas = false) (v : V) :
    ∀ write ∈ dst.iterSsa.map fun x => (x, v), write.1.idx ∉ ssas := by
  intro write member live
  obtain ⟨x, named, rfl⟩ := mem_map.mp member
  have : dst.isLive ssas = true := any_eq_true.mpr ⟨x, named, decide_eq_true live⟩
  rw [dead] at this
  cases this

/-- Phi destinations lose those that are not live. -/
theorem phiDsts {dsts : List (Phi × Dst)} (isOp : instr.op = .phiDsts dsts)
    (unguarded : instr.pred.iterSsa = [])
    (live : ∀ entry ∈ dsts, entry.2.isLive ssas = true → entry.1.idx ∈ phis) :
    Swept ssas phis instr (if dsts.filter (fun entry => entry.2.isLive ssas) = [] then none
      else some { instr with op := .phiDsts (dsts.filter fun entry => entry.2.isLive ssas) }) := by
  have defs : ∀ {instr : Instr} {dsts : List (Phi × Dst)}, instr.op = .phiDsts dsts →
      instr.ssaDefs = dsts.flatMap fun entry => entry.2.iterSsa := by
    intro instr dsts isOp
    rw [Instr.ssaDefs, Instr.dsts, isOp, Op.dsts, flatMap_map]
  obtain ⟨sublist, kept⟩ := defs_filter ssas (fun entry : Phi × Dst => entry.2) dsts
  let left : Instr :=
    { instr with op := .phiDsts (dsts.filter fun entry => entry.2.isLive ssas) }
  have leftOp : left.op = .phiDsts (dsts.filter fun entry => entry.2.isLive ssas) := rfl
  have leftUses : left.ssaUses = [] := by
    rw [Instr.ssaUses, Instr.srcs, leftOp, Op.srcs, flatMap_nil, append_nil]
    exact unguarded
  show Swept ssas phis instr (if _ then none else some left)
  refine orNone ⟨?_, ?_, ?_, ?_⟩ ?_ ?_
  · rintro other ⟨⟩ x used
    rw [leftUses] at used
    cases used
  · rw [Option.toList_some, flatMap_singleton, defs leftOp, defs isOp]
    exact sublist
  · rw [Option.toList_some, flatMap_singleton, defs leftOp, defs isOp]
    exact kept
  · intro V interp machine machine' agree
    rw [Option.toList_some, Interp.run_cons, Interp.run_nil,
      interp.step_phiDsts isOp unguarded, interp.step_phiDsts leftOp unguarded]
    refine ⟨?_, agree.phis, agree.effects, agree.trace⟩
    refine assign_filter ?_ ?_ agree.vals
    · intro entry member isLive
      rw [agree.phis _ (live entry member isLive)]
    · exact fun entry _ dead => dead_dst dead _
  · intro empty
    rw [defs leftOp, empty]
    rfl
  · intro empty V interp machine
    rw [interp.step_phiDsts leftOp unguarded, empty]
    rfl

/-- A parallel copy loses the pairs that are not live. -/
theorem parCopy {pcopy : OpParCopy} (isOp : instr.op = .parCopy pcopy)
    (unguarded : instr.pred.iterSsa = [])
    (live : ∀ entry ∈ pcopy.dstsSrcs, entry.1.isLive ssas = true →
      ∀ x ∈ entry.2.iterSsa, x.idx ∈ ssas) :
    Swept ssas phis instr (if pcopy.dstsSrcs.filter (fun entry => entry.1.isLive ssas) = [] then none
      else some { instr with op := .parCopy { pcopy with
        dstsSrcs := pcopy.dstsSrcs.filter fun entry => entry.1.isLive ssas } }) := by
  have defs : ∀ {instr : Instr} {pcopy : OpParCopy}, instr.op = .parCopy pcopy →
      instr.ssaDefs = pcopy.dstsSrcs.flatMap fun entry => entry.1.iterSsa := by
    intro instr pcopy isOp
    rw [Instr.ssaDefs, Instr.dsts, isOp, Op.dsts, flatMap_map]
  obtain ⟨sublist, kept⟩ := defs_filter ssas (fun entry : Dst × Src => entry.1) pcopy.dstsSrcs
  let left : Instr := { instr with op := .parCopy { pcopy with
    dstsSrcs := pcopy.dstsSrcs.filter fun entry => entry.1.isLive ssas } }
  have leftOp : left.op = .parCopy { pcopy with
    dstsSrcs := pcopy.dstsSrcs.filter fun entry => entry.1.isLive ssas } := rfl
  have leftUses : left.ssaUses = (pcopy.dstsSrcs.filter fun entry => entry.1.isLive ssas).flatMap
      fun entry => entry.2.iterSsa := by
    rw [Instr.ssaUses, Instr.srcs, leftOp, Op.srcs, flatMap_map]
    show instr.pred.iterSsa ++ _ = _
    rw [unguarded, nil_append]
  show Swept ssas phis instr (if _ then none else some left)
  refine orNone ⟨?_, ?_, ?_, ?_⟩ ?_ ?_
  · rintro other ⟨⟩ x used
    rw [leftUses] at used
    obtain ⟨entry, member, named⟩ := mem_flatMap.mp used
    rw [mem_filter] at member
    refine ⟨live entry member.1 member.2 x named, mem_append_right _ ?_⟩
    rw [Instr.srcs, isOp, Op.srcs, flatMap_map]
    exact mem_flatMap.mpr ⟨entry, member.1, named⟩
  · rw [Option.toList_some, flatMap_singleton, defs leftOp, defs isOp]
    exact sublist
  · rw [Option.toList_some, flatMap_singleton, defs leftOp, defs isOp]
    exact kept
  · intro V interp machine machine' agree
    rw [Option.toList_some, Interp.run_cons, Interp.run_nil,
      interp.step_parCopy isOp unguarded, interp.step_parCopy leftOp unguarded]
    refine ⟨?_, agree.phis, agree.effects, ?_⟩
    · refine assign_filter ?_ ?_ agree.vals
      · intro entry member isLive
        rw [agree.reads (live entry member isLive)]
      · exact fun entry _ dead => dead_dst dead _
    · refine agree.trace.append ?_
      have events : ((pcopy.dstsSrcs.filter fun entry => entry.1.isLive ssas).map fun entry =>
          Event.copy (entry.1.erase, entry.2.erase)
            (interp.readSrc entry.2.erase (entry.2.iterSsa.map machine'.vals))) =
          (pcopy.dstsSrcs.filter fun entry => entry.1.isLive ssas).map fun entry =>
            .copy (entry.1.erase, entry.2.erase)
              (interp.readSrc entry.2.erase (entry.2.iterSsa.map machine.vals)) := by
        apply map_congr_left
        intro entry member
        rw [mem_filter] at member
        rw [agree.reads (live entry member.1 member.2)]
      rw [events]
      exact filter_sublist.map _
  · intro empty
    rw [defs leftOp, empty]
    rfl
  · intro empty V interp machine
    rw [interp.step_parCopy leftOp unguarded, empty]
    simp

end Swept

namespace DeadCodePass

variable {instr : Instr}

theorem retain_ok {α : Type} {keep : α → Except Fault Bool} {holds : α → Bool} :
    ∀ {list : List α}, (∀ a ∈ list, keep a = .ok (holds a)) →
      retain keep list = .ok (list.filter holds) := by
  intro list
  induction list with
  | nil => exact fun _ => rfl
  | cons head list ih =>
    intro each
    rw [retain, each head mem_cons_self, ok_bind,
      ih fun a member => each a (mem_cons_of_mem head member), ok_bind]
    cases kept : holds head with
    | true => rw [filter_cons_of_pos kept]; rfl
    | false => rw [filter_cons_of_neg (by simp [kept])]; rfl

theorem unguarded (isTrue : instr.pred.isTrue = true) :
    instr.pred.iterSsa = [] := by
  simp only [Pred.isTrue, decide_eq_true_eq] at isTrue
  simp [Pred.iterSsa, isTrue.1]

theorem guarded (clean : instr.isClean = true) (notPhi : instr.isPhi = false)
    (notCopy : ∀ pcopy, instr.op ≠ .parCopy pcopy) :
    instr.pred.isFalse = false ∨ instr.ssaDefs = [] := by
  unfold Instr.isClean at clean
  rw [Bool.and_eq_true] at clean
  unfold Instr.isPhi at notPhi
  cases isOp : instr.op with
  | phiSrcs | phiDsts => simp [isOp] at notPhi
  | parCopy pcopy => exact absurd isOp (notCopy pcopy)
  | _ => simpa [isOp] using clean.1

/-- An instruction that is not live does nothing live. -/
theorem dead_of_isLive {ssas : List Nat} (dead : instr.isLive ssas = false)
    (possible : instr.pred.isFalse = false ∨ instr.ssaDefs = []) :
    instr.isEffect = false ∧ ∀ x ∈ instr.ssaDefs, x.idx ∉ ssas := by
  rw [Instr.isLive, Bool.or_eq_false_iff] at dead
  refine ⟨dead.1, ?_⟩
  intro x defined live
  rcases possible with possible | none
  case inr =>
    rw [none] at defined
    cases defined
  rw [possible, Bool.not_false, Bool.true_and] at dead
  obtain ⟨dst, member, named⟩ := mem_flatMap.mp defined
  have isLive : dst.isLive ssas = true := any_eq_true.mpr ⟨x, named, decide_eq_true live⟩
  have := any_eq_false.mp dead.2 dst member
  exact this isLive

end DeadCodePass

/-- What is left of an instruction when the numbers are live. -/
def Instr.dceLeft (ssas phis : List Nat) (instr : Instr) : Option Instr :=
  match instr.op with
  | .phiSrcs srcs =>
    let srcs := srcs.filter fun entry => decide (entry.1.idx ∈ phis)
    if srcs = [] then none else some { instr with op := .phiSrcs srcs }
  | .phiDsts dsts =>
    let dsts := dsts.filter fun entry => entry.2.isLive ssas
    if dsts = [] then none else some { instr with op := .phiDsts dsts }
  | .parCopy pcopy =>
    let dstsSrcs := pcopy.dstsSrcs.filter fun entry => entry.1.isLive ssas
    if dstsSrcs = [] then none else some { instr with op := .parCopy { pcopy with dstsSrcs } }
  | _ => if instr.isLive ssas then some instr else none

/-- What stands for an instruction when the numbers are live. -/
def Instr.dceOut (annotate : Bool) (ssas phis : List Nat) (instr : Instr) : Option Instr :=
  (instr.dceLeft ssas phis).or (if annotate then some (.new (.annotate "killed by dce")) else none)

namespace DeadCodePass

theorem liveInstr_eq {instr : Instr} (accepted : instr.isAccepted = true) (pass : DeadCodePass) :
    liveInstr pass instr = .ok (instr.dceLeft pass.liveSsa pass.livePhi) := by
  unfold liveInstr Instr.dceLeft
  cases isOp : instr.op with
  | phiSrcs srcs => rfl
  | phiDsts dsts =>
    have kept : retain (fun entry : Phi × Dst => pass.isDstLive entry.2) dsts =
        .ok (dsts.filter fun entry => entry.2.isLive pass.liveSsa) := by
      refine retain_ok fun entry member => isDstLive_ok pass (noReg accepted ?_)
      simp only [Instr.dsts, isOp, Op.dsts, mem_map]
      exact ⟨entry, member, rfl⟩
    dsimp only
    rw [kept]
    rfl
  | parCopy pcopy =>
    have kept : retain (fun entry : Dst × Src => pass.isDstLive entry.1) pcopy.dstsSrcs =
        .ok (pcopy.dstsSrcs.filter fun entry => entry.1.isLive pass.liveSsa) := by
      refine retain_ok fun entry member => isDstLive_ok pass (noReg accepted ?_)
      simp only [Instr.dsts, isOp, Op.dsts, mem_map]
      exact ⟨entry, member, rfl⟩
    dsimp only
    rw [kept]
    rfl
  | _ =>
    dsimp only
    rw [isInstrLive_ok accepted, ok_bind]
    rfl

theorem mapInstr_eq (annotate : Bool) {instr : Instr} (accepted : instr.isAccepted = true)
    (pass : DeadCodePass) : mapInstr annotate pass instr =
      .ok (instr.dceOut annotate pass.liveSsa pass.livePhi) := by
  rw [mapInstr, liveInstr_eq accepted, ok_bind, Instr.dceOut]
  cases instr.dceLeft pass.liveSsa pass.livePhi <;> cases annotate <;> rfl

/-- What is left of an instruction whose marks are there. -/
theorem dceLeft_swept {instr : Instr} (clean : instr.isClean = true)
    (closed : ∀ part ∈ instr.dceParts, part.Closed ssas phis) :
    Swept ssas phis instr (instr.dceLeft ssas phis) := by
  have isTrue := clean
  rw [Instr.isClean, Bool.and_eq_true] at isTrue
  unfold Instr.dceParts at closed
  unfold Instr.dceLeft
  cases isOp : instr.op with
  | phiSrcs srcs =>
    simp only [isOp, forall_mem_map] at isTrue closed
    refine .phiSrcs isOp (unguarded isTrue.1) ?_ ?_
    · exact fun entry member live => (closed entry member live).1
    · exact fun entry dead => of_decide_eq_false dead
  | phiDsts dsts =>
    simp only [isOp, forall_mem_map] at isTrue closed
    exact .phiDsts isOp (unguarded isTrue.1) fun entry member live =>
      (closed entry member live).2 entry.1 (mem_singleton.mpr rfl)
  | parCopy pcopy =>
    simp only [isOp, forall_mem_map] at isTrue closed
    exact .parCopy isOp (unguarded isTrue.1) fun entry member live => (closed entry member live).1
  | _ =>
    have notPhi : instr.isPhi = false := by simp [Instr.isPhi, isOp]
    have possible := guarded clean notPhi (by simp [isOp])
    simp only [isOp, forall_mem_singleton] at closed
    dsimp only
    split
    next live => exact .same notPhi (closed live).1
    next dead =>
      obtain ⟨noEffect, dead⟩ := dead_of_isLive (Bool.eq_false_iff.mpr dead) possible
      exact .dropped notPhi noEffect dead

theorem dceOut_swept (annotate : Bool) {instr : Instr} (clean : instr.isClean = true)
    (closed : ∀ part ∈ instr.dceParts, part.Closed ssas phis) :
    Swept ssas phis instr (instr.dceOut annotate ssas phis) := by
  have swept := dceLeft_swept clean closed
  unfold Instr.dceOut
  cases out : instr.dceLeft ssas phis with
  | some left =>
    rw [out] at swept
    exact swept
  | none =>
    rw [out] at swept
    cases annotate with
    | false => exact swept
    | true => exact swept.annotated _

end DeadCodePass

/-- What is left of a list of instructions. -/
structure SweptAll (ssas phis : List Nat) (instrs left : List Instr) : Prop where
  scope : ∀ {defined defined' : SSAValue → Prop}, (∀ x, defined x → x.idx ∈ ssas → defined' x) →
    Scoped defined instrs → Scoped defined' left
  defs : (left.flatMap Instr.ssaDefs).Sublist (instrs.flatMap Instr.ssaDefs)
  kept : ∀ x ∈ instrs.flatMap Instr.ssaDefs, x.idx ∈ ssas → x ∈ left.flatMap Instr.ssaDefs
  run : ∀ {V : Type} (interp : Interp V) (machine machine' : Machine V),
    LiveAgree ssas phis machine machine' →
      LiveAgree ssas phis (interp.run instrs machine) (interp.run left machine')

theorem sweptAll {out : Instr → Option Instr} : ∀ {instrs : List Instr},
    (∀ instr ∈ instrs, Swept ssas phis instr (out instr)) →
      SweptAll ssas phis instrs (instrs.filterMap out) := by
  intro instrs
  induction instrs with
  | nil => exact fun _ => ⟨fun _ _ => trivial, .slnil, by simp, fun _ _ _ agree => agree⟩
  | cons instr instrs ih =>
    intro swept
    obtain ⟨one, rest⟩ := forall_mem_cons.mp swept
    have ih := ih rest
    have split : (instr :: instrs).filterMap out = (out instr).toList ++ instrs.filterMap out := by
      rw [filterMap_cons]
      cases out instr <;> rfl
    rw [split]
    refine ⟨?_, ?_, ?_, ?_⟩
    · intro defined defined' more holds
      rw [scoped_append]
      refine ⟨?_, ?_⟩
      · cases isOut : out instr with
        | none => trivial
        | some left =>
          refine ⟨?_, trivial⟩
          intro x used
          obtain ⟨live, used'⟩ := one.uses left isOut x used
          exact more x (holds.1 x used') live
      · refine ih.scope ?_ holds.2
        rintro x (before | defined) live
        · exact .inl (more x before live)
        · exact .inr (one.kept x defined live)
    · rw [flatMap_append, flatMap_cons]
      exact one.defs.append ih.defs
    · intro x member live
      rw [flatMap_append, mem_append]
      rcases mem_append.mp member with here | later
      · exact .inl (one.kept x here live)
      · exact .inr (ih.kept x later live)
    · intro V interp machine machine' agree
      rw [Interp.run_cons, Interp.run_append]
      exact ih.run interp _ _ (one.run interp machine machine' agree)

/-!
## Dead-code elimination keeps what can be observed

It returns a function in SSA form with the same effects, in which every instruction that is left
reads what it read before.
-/

/-- Along every path from the entry, `f'` has the effects of `f`, and what its instructions read is
part of what those of `f` read. -/
def Function.ReadsKept (f f' : Function) : Prop :=
  ∀ (V : Type) (interp : Interp V) (start : Machine V) (before : List Nat) (b : Nat),
    f.blocks.PathTo 0 before b →
      (interp.runPath f' (before ++ [b]) start).effects =
        (interp.runPath f (before ++ [b]) start).effects ∧
      (interp.runPath f' (before ++ [b]) start).trace.Sublist
        (interp.runPath f (before ++ [b]) start).trace

variable {f f' : Function} {ssas phis : List Nat}

/-- The function `f'` is what is left of `f`. -/
structure SweptFunction (ssas phis : List Nat) (f f' : Function) : Prop where
  edges : f'.blocks.edges = f.blocks.edges
  len : f'.blocks.len = f.blocks.len
  block : ∀ b, SweptAll ssas phis (f.instrs b) (f'.instrs b)

namespace SweptFunction

variable (swept : SweptFunction ssas phis f f')
include swept

theorem unique (nodup : f.allDefs.Nodup) : f'.allDefs.Nodup := by
  have part : ∀ blocks : List Nat, (blocks.flatMap f'.defs).Sublist (blocks.flatMap f.defs) := by
    intro blocks
    induction blocks with
    | nil => exact .slnil
    | cons b blocks ih => exact (swept.block b).defs.append ih
  rw [Function.allDefs_eq] at nodup ⊢
  rw [swept.len]
  exact nodup.sublist (part _)

theorem reachedByDef (reached : f.ReachedByDef) : f'.ReachedByDef := by
  rw [Function.reachedByDef_iff] at reached ⊢
  intro before b path
  refine (swept.block b).scope ?_ (reached before b (path.congr swept.edges))
  intro x defined live
  obtain ⟨c, passed, member⟩ := mem_flatMap.mp defined
  exact mem_flatMap.mpr ⟨c, passed, (swept.block c).kept x member live⟩

theorem run (path : List Nat) {V : Type} (interp : Interp V) : ∀ machine machine' : Machine V,
    LiveAgree ssas phis machine machine' →
      LiveAgree ssas phis (interp.runPath f path machine) (interp.runPath f' path machine') := by
  induction path with
  | nil => exact fun _ _ agree => agree
  | cons b path ih =>
    intro machine machine' agree
    exact ih _ _ ((swept.block b).run interp machine machine' agree)

theorem readsKept : f.ReadsKept f' := by
  intro V interp start before b _
  have agree : LiveAgree ssas phis start start :=
    ⟨fun _ _ => rfl, fun _ _ => rfl, rfl, Sublist.refl _⟩
  have after := swept.run (before ++ [b]) interp start start agree
  exact ⟨after.effects, after.trace⟩

end SweptFunction

/-- What stands for a function when the numbers are live. -/
def Function.dceOut (annotate : Bool) (ssas phis : List Nat) (f : Function) : Function :=
  { f with blocks := { f.blocks with blocks := f.blocks.blocks.map fun bb =>
    { bb with instrs := bb.instrs.filterMap (Instr.dceOut annotate ssas phis) } } }

theorem Function.instrs_dceOut (annotate : Bool) (ssas phis : List Nat) (b : Nat) :
    (f.dceOut annotate ssas phis).instrs b =
      (f.instrs b).filterMap (Instr.dceOut annotate ssas phis) := by
  unfold Function.instrs Function.dceOut
  simp only [getElem?_map]
  cases f.blocks.blocks[b]? <;> rfl

open DeadCodePass

theorem Function.mem_parts {part : DcePart} :
    part ∈ parts f ↔ ∃ b, ∃ instr ∈ f.instrs b, part ∈ instr.dceParts := by
  simp only [parts, mem_flatMap, mem_reverse]
  constructor
  · rintro ⟨bb, member, instr, inBlock, isPart⟩
    obtain ⟨b, here⟩ := mem_iff_getElem?.mp member
    refine ⟨b, instr, ?_, isPart⟩
    rw [Function.instrs, here]
    exact inBlock
  · rintro ⟨b, instr, inBlock, isPart⟩
    obtain ⟨bb, member, inBlock⟩ := Function.mem_instrs inBlock
    exact ⟨bb, member, instr, inBlock, isPart⟩

/-- The parts of an instruction ask for what it uses and for the phis it defines. -/
theorem Instr.dceParts_asks {instr : Instr} {part : DcePart} (isPart : part ∈ instr.dceParts) :
    part.uses ⊆ instr.ssaUses ∧ part.phis ⊆ instr.definedPhis := by
  have srcs : ∀ src ∈ instr.srcs, src.iterSsa ⊆ instr.ssaUses := fun src member x named =>
    mem_append_right _ (mem_flatMap.mpr ⟨src, member, named⟩)
  unfold Instr.dceParts at isPart
  unfold Instr.definedPhis
  cases isOp : instr.op with
  | phiSrcs list | parCopy list =>
    simp only [isOp, mem_map] at isPart
    obtain ⟨entry, member, rfl⟩ := isPart
    refine ⟨srcs entry.2 ?_, nil_subset _⟩
    simp only [Instr.srcs, isOp, Op.srcs, mem_map]
    exact ⟨entry, member, rfl⟩
  | phiDsts dsts =>
    simp only [isOp, mem_map] at isPart
    obtain ⟨entry, member, rfl⟩ := isPart
    exact ⟨nil_subset _, cons_subset.mpr ⟨mem_map_of_mem member,
      nil_subset _⟩⟩
  | _ =>
    simp only [isOp, mem_singleton] at isPart
    subst isPart
    exact ⟨Subset.refl _, nil_subset _⟩

/-- Dead-code elimination removes what is dead for the least closed sets. -/
theorem Function.optDce_eq (annotate : Bool)
    (accepted : ∀ b, ∀ instr ∈ f.instrs b, instr.isAccepted = true) :
    ∃ pass, Least (parts f) {} pass ∧ f.optDce annotate =
      .ok (if pass.anyDead then f.dceOut annotate pass.liveSsa pass.livePhi else f) := by
  let instrs := f.blocks.blocks.flatMap BasicBlock.instrs
  have inBlocks : ∀ bb ∈ f.blocks.blocks, ∀ instr ∈ bb.instrs,
      instr ∈ instrs ∧ instr.isAccepted = true := by
    intro bb member instr inBlock
    refine ⟨mem_flatMap.mpr ⟨bb, member, inBlock⟩, ?_⟩
    obtain ⟨b, here⟩ := mem_iff_getElem?.mp member
    refine accepted b instr ?_
    rw [Function.instrs, here]
    exact inBlock
  have known : ∀ part ∈ parts f, part.Asks ((instrs.flatMap Instr.ssaUses).map SSAValue.idx)
      ((instrs.flatMap Instr.definedPhis).map Phi.idx) := by
    intro part isPart
    obtain ⟨b, instr, inBlock, isPart⟩ := Function.mem_parts.mp isPart
    obtain ⟨bb, member, inBlock⟩ := Function.mem_instrs inBlock
    have inInstrs := (inBlocks bb member instr inBlock).1
    obtain ⟨uses, phis⟩ := instr.dceParts_asks isPart
    exact ⟨fun x used => mem_map_of_mem (mem_flatMap.mpr ⟨instr, inInstrs, uses used⟩),
      fun phi asked => mem_map_of_mem (mem_flatMap.mpr ⟨instr, inInstrs, phis asked⟩)⟩
  obtain ⟨pass, marked, least⟩ := markLoop_ok (fun bb member instr inBlock =>
      (inBlocks bb member instr inBlock).2) known
    ((instrs.flatMap Instr.ssaUses).length + (instrs.flatMap Instr.definedPhis).length + 1) {}
    (.empty _ _) (by
      simp only [length_map]
      omega)
  refine ⟨pass, least, ?_⟩
  unfold Function.optDce
  dsimp only
  rw [marked, ok_bind]
  cases pass.anyDead with
  | false => rfl
  | true =>
    have mapped : f.blocks.blocks.mapM (pass.mapBlock annotate) =
        .ok (f.dceOut annotate pass.liveSsa pass.livePhi).blocks.blocks := by
      refine mapM_ok fun bb member => ?_
      have each := mapM_ok fun instr inBlock =>
        mapInstr_eq annotate (inBlocks bb member instr inBlock).2 pass
      rw [mapBlock, each, ok_bind]
      exact congrArg (fun instrs => Except.ok { bb with instrs }) (filterMap_map ..)
    rw [if_pos rfl, if_pos rfl, mapped]
    rfl

/-- Dead-code elimination returns the function or what is left of it. -/
theorem Function.optDce_ok (annotate : Bool) (clean : f.Clean) : ∃ f', f.optDce annotate = .ok f' ∧
    (f' = f ∨ ∃ ssas phis, SweptFunction ssas phis f f') := by
  obtain ⟨pass, least, returned⟩ :=
    f.optDce_eq annotate fun b instr member => Instr.isAccepted_of_isClean (clean b instr member)
  refine ⟨_, returned, ?_⟩
  split
  · refine .inr ⟨pass.liveSsa, pass.livePhi, rfl, length_map _, ?_⟩
    intro b
    rw [Function.instrs_dceOut]
    refine sweptAll fun instr member => dceOut_swept annotate (clean b instr member) ?_
    exact fun part isPart => least.closed part (mem_parts.mpr ⟨b, instr, member, isPart⟩)
  · exact .inl rfl

/-- Dead-code elimination keeps SSA form, the effects and what is read. -/
theorem Function.optDce_correct (annotate : Bool) (clean : f.Clean) (strict : f.StrictSsa) :
    ∃ f', f.optDce annotate = .ok f' ∧ f'.StrictSsa ∧ f'.blocks.edges = f.blocks.edges ∧
      f.ReadsKept f' := by
  obtain ⟨f', returned, rfl | ⟨ssas, phis, swept⟩⟩ := f.optDce_ok annotate clean
  · exact ⟨f', returned, strict, rfl, fun _ _ _ _ _ _ => ⟨rfl, Sublist.refl _⟩⟩
  · exact ⟨f', returned, ⟨swept.unique strict.unique, swept.reachedByDef strict.dominated⟩,
      swept.edges, swept.readsKept⟩

end CoralReef
