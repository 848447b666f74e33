import CoralReef.Codegen.OptDce.Proofs.Sweep
import Mathlib.Data.List.Forall2
import Mathlib.Data.List.ReduceOption

/-!
# What dead-code elimination leaves is closed

A part of the function stays exactly when it has an effect or something that stays asks for it, and
the pass has nothing more to remove. A guard that is always false takes the instruction away, also
where something asks for its value.
-/

open List

namespace CoralReef

open DeadCodePass

/-- What stands for an instruction that was removed when the debug flag asks for it. -/
def killed : DcePart := .general (.new (.annotate "killed by dce"))

namespace Instr

/-- The parts that are left are those that are live. -/
theorem dceParts_dceLeft (ssas phis : List Nat) (instr : Instr) :
    (instr.dceLeft ssas phis).toList.flatMap dceParts =
      instr.dceParts.filter (DcePart.isLive ssas phis) := by
  unfold dceLeft
  rw [dceParts]
  cases isOp : instr.op with
  | phiSrcs list | phiDsts list | parCopy list =>
    dsimp only
    rw [filter_map]
    split
    next none => simpa [Function.comp_def, DcePart.isLive] using none
    next => simp [dceParts, Function.comp_def, DcePart.isLive]
  | _ =>
    dsimp only
    split
    next live => simp [dceParts, isOp, DcePart.isLive, live]
    next dead => simp [DcePart.isLive, dead]

theorem isAccepted_dceLeft {ssas phis : List Nat} {instr left : Instr}
    (accepted : instr.isAccepted = true) (isLeft : left ∈ instr.dceLeft ssas phis) :
    left.isAccepted = true := by
  have holds := accepted
  rw [isAccepted, Bool.and_eq_true, all_eq_true] at holds
  unfold dceLeft at isLeft
  cases isOp : instr.op with
  | phiSrcs list =>
    simp only [isOp, Option.mem_ite_none_left, Option.mem_some] at isLeft holds
    rw [← isLeft.2, isAccepted, Bool.and_eq_true]
    exact ⟨holds.1, rfl⟩
  | phiDsts list | parCopy list =>
    simp only [isOp, Option.mem_ite_none_left, Option.mem_some] at isLeft holds
    rw [← isLeft.2, isAccepted, Bool.and_eq_true, all_eq_true]
    refine ⟨holds.1, fun dst member => holds.2 dst ?_⟩
    obtain ⟨entry, kept, rfl⟩ := mem_map.mp member
    rw [dsts, isOp]
    exact mem_map_of_mem (mem_of_mem_filter kept)
  | _ =>
    simp only [isOp, Option.mem_ite_none_right, Option.mem_some] at isLeft
    exact isLeft.2 ▸ accepted

end Instr

/-- The parts of a block. -/
def Function.partsAt (f : Function) (b : Nat) : List DcePart :=
  (f.instrs b).flatMap Instr.dceParts

theorem mem_parts_iff {f : Function} {part : DcePart} :
    part ∈ parts f ↔ ∃ b, part ∈ f.partsAt b := by
  simp only [Function.mem_parts, Function.partsAt, mem_flatMap]

/-- The parts of `f'` are those of `f` that are live. -/
structure Prunes (ssas phis : List Nat) (f f' : Function) : Prop where
  kept : ∀ b, ∀ part ∈ f.partsAt b, part.isLive ssas phis = true → part ∈ f'.partsAt b
  old : ∀ b, ∀ part ∈ f'.partsAt b,
    part = killed ∨ (part ∈ f.partsAt b ∧ part.isLive ssas phis = true)
  accepted : ∀ b, ∀ instr ∈ f'.instrs b, instr.isAccepted = true

theorem mem_dceOut {annotate : Bool} {ssas phis : List Nat} {f : Function} {b : Nat} {out : Instr}
    (isOut : out ∈ (f.dceOut annotate ssas phis).instrs b) :
    out = .new (.annotate "killed by dce") ∨
      ∃ instr ∈ f.instrs b, instr.dceLeft ssas phis = some out := by
  rw [Function.instrs_dceOut] at isOut
  obtain ⟨instr, member, isOut⟩ := mem_filterMap.mp isOut
  rcases Option.or_eq_some_iff.mp isOut with isLeft | ⟨-, annotation⟩
  · exact .inr ⟨instr, member, isLeft⟩
  · cases annotate <;> cases annotation
    exact .inl rfl

theorem prunes_dceOut (annotate : Bool) (ssas phis : List Nat) {f : Function}
    (accepted : ∀ b, ∀ instr ∈ f.instrs b, instr.isAccepted = true) :
    Prunes ssas phis f (f.dceOut annotate ssas phis) where
  kept := by
    intro b part isPart live
    obtain ⟨instr, member, isPart⟩ := mem_flatMap.mp isPart
    have isLeft : part ∈ (instr.dceLeft ssas phis).toList.flatMap Instr.dceParts := by
      rw [Instr.dceParts_dceLeft, mem_filter]
      exact ⟨isPart, live⟩
    obtain ⟨left, inLeft, isPart⟩ := mem_flatMap.mp isLeft
    rw [Function.partsAt, Function.instrs_dceOut]
    refine mem_flatMap.mpr ⟨left, mem_filterMap.mpr ⟨instr, member, ?_⟩, isPart⟩
    rw [Instr.dceOut, Option.mem_toList.mp inLeft]
    rfl
  old := by
    intro b part isPart
    obtain ⟨out, isOut, isPart⟩ := mem_flatMap.mp isPart
    rcases mem_dceOut isOut with rfl | ⟨instr, member, isLeft⟩
    · exact .inl (mem_singleton.mp isPart)
    · have isLive : part ∈ (instr.dceLeft ssas phis).toList.flatMap Instr.dceParts := by
        rw [isLeft]
        exact mem_flatMap.mpr ⟨out, mem_singleton.mpr rfl, isPart⟩
      rw [Instr.dceParts_dceLeft, mem_filter] at isLive
      exact .inr ⟨mem_flatMap.mpr ⟨instr, member, isLive.1⟩, isLive.2⟩
  accepted := by
    intro b out isOut
    rcases mem_dceOut isOut with rfl | ⟨instr, member, isLeft⟩
    · rfl
    · exact Instr.isAccepted_dceLeft (accepted b instr member) isLeft

/-- Some part of the function uses the value of this number. -/
def Function.Uses (f : Function) (i : Nat) : Prop :=
  ∃ part ∈ parts f, ∃ x ∈ part.uses, x.idx = i

/-- Some part of the function defines the phi of this number. -/
def Function.Defines (f : Function) (i : Nat) : Prop :=
  ∃ part ∈ parts f, ∃ phi ∈ part.phis, phi.idx = i

/-- A part has an effect or something in the function asks for it. -/
def DcePart.Needed (f : Function) : DcePart → Prop
  | .phiSrc phi _ => f.Defines phi.idx
  | .phiDst _ dst | .copy dst _ => ∃ x ∈ dst.iterSsa, f.Uses x.idx
  | .general instr => instr.isEffect = true ∨
      (instr.pred.isFalse = false ∧ ∃ x ∈ instr.ssaDefs, f.Uses x.idx)

theorem DcePart.isLive_iff_needed {ssas phis : List Nat} {f : Function}
    (isUse : ∀ i, i ∈ ssas ↔ f.Uses i) (isPhi : ∀ i, i ∈ phis ↔ f.Defines i) (part : DcePart) :
    part.isLive ssas phis = true ↔ part.Needed f := by
  have dst : ∀ dst : Dst, dst.isLive ssas = true ↔ ∃ x ∈ dst.iterSsa, f.Uses x.idx := by
    simp [Dst.isLive, isUse]
  cases part with
  | phiSrc phi src => simp [isLive, Needed, isPhi]
  | phiDst phi d | copy d src => exact dst d
  | general instr =>
    simp only [isLive, Needed, Instr.isLive, Bool.or_eq_true, Bool.and_eq_true,
      Bool.not_eq_true', any_eq_true, dst, Instr.ssaDefs, mem_flatMap]
    apply or_congr_right
    apply and_congr_right
    intro _
    constructor
    · rintro ⟨d, member, x, named, used⟩
      exact ⟨x, ⟨d, member, named⟩, used⟩
    · rintro ⟨x, ⟨d, member, named⟩, used⟩
      exact ⟨d, member, x, named, used⟩

theorem killed_isLive (ssas phis : List Nat) : killed.isLive ssas phis = true := rfl

theorem killed_asks (ssas phis : List Nat) : killed.Asks ssas phis := by
  constructor <;> exact fun _ never => nomatch never

section Prunes

variable {f f' : Function} {pass : DeadCodePass} (least : Least (parts f) {} pass)
  (prunes : Prunes pass.liveSsa pass.livePhi f f')
include least prunes

theorem Prunes.asks {part : DcePart} (isPart : part ∈ parts f') :
    part.isLive pass.liveSsa pass.livePhi = true ∧ part.Asks pass.liveSsa pass.livePhi := by
  obtain ⟨b, isPart⟩ := mem_parts_iff.mp isPart
  rcases prunes.old b part isPart with rfl | ⟨old, live⟩
  · exact ⟨killed_isLive _ _, killed_asks _ _⟩
  · exact ⟨live, least.closed part (mem_parts_iff.mpr ⟨b, old⟩) live⟩

/-- The marks are what the parts that are left ask for. -/
theorem Prunes.marks :
    (∀ i, i ∈ pass.liveSsa ↔ f'.Uses i) ∧ ∀ i, i ∈ pass.livePhi ↔ f'.Defines i := by
  classical
  have closed : ∀ part ∈ parts f, part.Closed (pass.liveSsa.filter f'.Uses)
      (pass.livePhi.filter f'.Defines) := by
    intro part isPart live
    have isLive : part.isLive pass.liveSsa pass.livePhi = true := DcePart.isLive_mono
      (fun _ => mem_of_mem_filter) (fun _ => mem_of_mem_filter) live
    have asks := least.closed part isPart isLive
    obtain ⟨b, isPart⟩ := mem_parts_iff.mp isPart
    have stays := mem_parts_iff.mpr ⟨b, prunes.kept b part isPart isLive⟩
    constructor
    · intro x used
      exact mem_filter.mpr ⟨asks.1 x used, decide_eq_true ⟨part, stays, x, used, rfl⟩⟩
    · intro phi asked
      exact mem_filter.mpr ⟨asks.2 phi asked, decide_eq_true ⟨part, stays, phi, asked, rfl⟩⟩
  have within := least.least closed (.empty _ _)
  constructor
  · intro i
    constructor
    · exact fun live => of_decide_eq_true (mem_filter.mp (within.ssaIn live)).2
    · intro ⟨part, isPart, x, used, same⟩
      exact same ▸ (prunes.asks least isPart).2.1 x used
  · intro i
    constructor
    · exact fun live => of_decide_eq_true (mem_filter.mp (within.phiIn live)).2
    · intro ⟨part, isPart, phi, asked, same⟩
      exact same ▸ (prunes.asks least isPart).2.2 phi asked

/-- Another run of the pass finds nothing dead. -/
theorem Prunes.again {pass' : DeadCodePass} (least' : Least (parts f') {} pass') :
    pass'.anyDead = false := by
  have fewer := least'.least (fun part isPart _ => (prunes.asks least isPart).2) (.empty _ _)
  have more := @least.least pass'.liveSsa pass'.livePhi (by
    intro part isPart live
    obtain ⟨b, here⟩ := mem_parts_iff.mp isPart
    have isLive := part.isLive_mono fewer.ssaIn fewer.phiIn live
    exact least'.closed part (mem_parts_iff.mpr ⟨b, prunes.kept b part here isLive⟩) live)
    (.empty _ _)
  rw [least'.dead]
  intro part isPart
  exact part.isLive_mono more.ssaIn more.phiIn (prunes.asks least isPart).1

end Prunes

open Classical in
/-- What stands for an instruction whose needed parts are kept: what is made of them, or nothing or
an annotation where there are none. -/
def Instr.LeftOf (annotate : Bool) (needed : DcePart → Prop) (instr : Instr) (out : Option Instr) :
    Prop :=
  out.toList.flatMap dceParts = instr.dceParts.filter (fun part => decide (needed part)) ∨
    (annotate = true ∧ out = some (.new (.annotate "killed by dce")) ∧
      instr.dceParts.filter (fun part => decide (needed part)) = [])

section LeftOf

variable {ssas phis : List Nat} {needed : DcePart → Prop} {instr : Instr}
  (isNeeded : ∀ part : DcePart, part.isLive ssas phis = true ↔ needed part)
include isNeeded

theorem filter_needed (parts : List DcePart) [DecidablePred needed] :
    parts.filter (fun part => decide (needed part)) = parts.filter (DcePart.isLive ssas phis) := by
  refine filter_congr fun part _ => ?_
  rw [Bool.eq_iff_iff, decide_eq_true_eq, isNeeded]

theorem Instr.leftOf_dceOut (annotate : Bool) :
    instr.LeftOf annotate needed (instr.dceOut annotate ssas phis) := by
  have left := instr.dceParts_dceLeft ssas phis
  rw [Instr.LeftOf, filter_needed isNeeded, ← left, Instr.dceOut]
  cases instr.dceLeft ssas phis with
  | some out => exact .inl rfl
  | none =>
    cases annotate with
    | false => exact .inl rfl
    | true => exact .inr ⟨rfl, rfl, rfl⟩

theorem Instr.leftOf_self (annotate : Bool)
    (all : ∀ part ∈ instr.dceParts, part.isLive ssas phis = true) :
    instr.LeftOf annotate needed (some instr) := by
  refine .inl ?_
  rw [filter_needed isNeeded, filter_eq_self.mpr all]
  exact flatMap_singleton ..

end LeftOf

/-- In each block an instruction is replaced, in its place, by what is left of it. -/
def Function.Keeps (annotate : Bool) (f f' : Function) : Prop :=
  ∀ b, ∃ outs, Forall₂ (Instr.LeftOf annotate fun part => part.Needed f') (f.instrs b) outs ∧
    f'.instrs b = outs.reduceOption

/-- A store that is never executed. -/
def guardedStore : Instr := ⟨⟨.none, true⟩, .other ⟨"St", false⟩ [] []⟩

/-- A block with that store, and with a value that is defined under a guard that is always false
and used. -/
def guardedOff : Function where
  blocks.blocks := [⟨⟨0⟩, false, [guardedStore,
    ⟨⟨.none, true⟩, .copy (.ofSsa ⟨.gpr, 1⟩) { reference := .zero }⟩,
    .new (.regOut [.ofSsa ⟨.gpr, 1⟩])]⟩]

end CoralReef
