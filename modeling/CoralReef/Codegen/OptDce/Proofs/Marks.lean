import CoralReef.Codegen.Ir.Semantics
import CoralReef.Codegen.OptDce
import Mathlib.Data.List.Perm.Subperm

/-!
# The marks of dead-code elimination

A round of marking goes over the parts of the instructions that are kept or removed as one. Marking
ends with the least sets that are closed: what the live parts use is live, and so are the phis of
live destinations.
-/

open List

namespace CoralReef

/-- A destination that writes one of the numbers. -/
def Dst.isLive (ssas : List Nat) (dst : Dst) : Bool :=
  dst.iterSsa.any fun x => decide (x.idx ∈ ssas)

/-- An instruction that does not carry phis or parallel copies and is to be kept. -/
def Instr.isLive (ssas : List Nat) (instr : Instr) : Bool :=
  instr.isEffect || (!instr.pred.isFalse && instr.dsts.any (Dst.isLive ssas))

/-- What dead-code elimination asserts of an instruction: phis and parallel copies have no guard
and no destination is a register. -/
def Instr.isAccepted (instr : Instr) : Bool :=
  (match instr.op with
    | .phiSrcs _ | .phiDsts _ | .parCopy _ => instr.pred.isTrue
    | _ => true) && instr.dsts.all fun dst => dst.asReg.isNone

theorem Instr.isAccepted_of_isClean {instr : Instr} (clean : instr.isClean = true) :
    instr.isAccepted = true := by
  unfold Instr.isClean at clean
  unfold Instr.isAccepted
  cases isOp : instr.op <;> simp_all

/-- What is kept or removed as one. -/
inductive DcePart where
  | phiSrc (phi : Phi) (src : Src)
  | phiDst (phi : Phi) (dst : Dst)
  | copy (dst : Dst) (src : Src)
  | general (instr : Instr)

def Instr.dceParts (instr : Instr) : List DcePart :=
  match instr.op with
  | .phiSrcs srcs => srcs.map fun entry => .phiSrc entry.1 entry.2
  | .phiDsts dsts => dsts.map fun entry => .phiDst entry.1 entry.2
  | .parCopy pcopy => pcopy.dstsSrcs.map fun entry => .copy entry.1 entry.2
  | _ => [.general instr]

namespace DcePart

def isLive (ssas phis : List Nat) : DcePart → Bool
  | .phiSrc phi _ => decide (phi.idx ∈ phis)
  | .phiDst _ dst | .copy dst _ => dst.isLive ssas
  | .general instr => instr.isLive ssas

def uses : DcePart → List SSAValue
  | .phiSrc _ src | .copy _ src => src.iterSsa
  | .phiDst _ _ => []
  | .general instr => instr.ssaUses

def phis : DcePart → List Phi
  | .phiDst phi _ => [phi]
  | _ => []

/-- What a part asks for is in the sets. -/
def Asks (ssas phis : List Nat) (part : DcePart) : Prop :=
  (∀ x ∈ part.uses, x.idx ∈ ssas) ∧ ∀ phi ∈ part.phis, phi.idx ∈ phis

/-- What a part asks for is in the sets if the part is live. -/
def Closed (ssas phis : List Nat) (part : DcePart) : Prop :=
  part.isLive ssas phis = true → part.Asks ssas phis

theorem isLive_mono {ssas ssas' phis phis' : List Nat} (fewer : ssas ⊆ ssas')
    (fewer' : phis ⊆ phis') {part : DcePart} (live : part.isLive ssas phis = true) :
    part.isLive ssas' phis' = true := by
  have dstLive : ∀ {dst : Dst}, dst.isLive ssas = true → dst.isLive ssas' = true := by
    intro dst live
    obtain ⟨x, named, marked⟩ := any_eq_true.mp live
    exact any_eq_true.mpr ⟨x, named, decide_eq_true (fewer (of_decide_eq_true marked))⟩
  cases part with
  | phiSrc phi src => exact decide_eq_true (fewer' (of_decide_eq_true live))
  | phiDst | copy => exact dstLive live
  | general instr =>
    simp only [isLive, Instr.isLive, Bool.or_eq_true, Bool.and_eq_true, any_eq_true] at live ⊢
    rcases live with effect | ⟨possible, dst, member, live⟩
    · exact .inl effect
    · exact .inr ⟨possible, dst, member, dstLive live⟩

end DcePart

namespace DeadCodePass

/-- The marks that a live part asks for. -/
def markAsked (pass : DeadCodePass) : DcePart → DeadCodePass
  | .phiDst phi _ => pass.markPhiLive phi
  | part => part.uses.foldl markSsaLive pass

def markPart (pass : DeadCodePass) (part : DcePart) : DeadCodePass :=
  if part.isLive pass.liveSsa pass.livePhi then pass.markAsked part
  else { pass with anyDead := true }

theorem isDstLive_ok (pass : DeadCodePass) {dst : Dst} (noReg : dst.asReg.isNone = true) :
    pass.isDstLive dst = .ok (dst.isLive pass.liveSsa) := by
  cases dst with
  | none | ssa => rfl
  | reg => cases noReg

theorem anyM_ok {α : Type} {test : α → Except Fault Bool} {holds : α → Bool} :
    ∀ {list : List α}, (∀ a ∈ list, test a = .ok (holds a)) →
      list.anyM test = .ok (list.any holds) := by
  intro list
  induction list with
  | nil => exact fun _ => rfl
  | cons head list ih =>
    intro each
    rw [anyM, each head mem_cons_self, ok_bind, any_cons]
    cases holds head with
    | true => rfl
    | false => exact ih fun a member => each a (mem_cons_of_mem head member)

theorem foldlM_eq_foldl {α β : Type} {step : β → α → Except Fault β} {next : β → α → β} :
    ∀ {list : List α}, (∀ a ∈ list, ∀ b, step b a = .ok (next b a)) →
      ∀ b, list.foldlM step b = .ok (list.foldl next b) := by
  intro list
  induction list with
  | nil => exact fun _ _ => rfl
  | cons head list ih =>
    intro each b
    rw [foldlM_cons, each head mem_cons_self, ok_bind]
    exact ih (fun a member => each a (mem_cons_of_mem head member)) _

section Accepted

variable {instr : Instr} (accepted : instr.isAccepted = true)
include accepted

theorem noReg {dst : Dst} (member : dst ∈ instr.dsts) : dst.asReg.isNone = true := by
  unfold Instr.isAccepted at accepted
  rw [Bool.and_eq_true, all_eq_true] at accepted
  exact accepted.2 dst member

theorem isInstrLive_ok (pass : DeadCodePass) :
    pass.isInstrLive instr = .ok (instr.isLive pass.liveSsa) := by
  unfold isInstrLive Instr.isLive Instr.isEffect
  cases instr.pred.isFalse with
  | true => simp
  | false =>
    cases instr.canEliminate with
    | false => simp
    | true =>
      simp only [Bool.false_eq_true, Bool.not_true, if_false, Bool.not_false, Bool.true_and,
        Bool.false_and, Bool.false_or]
      exact anyM_ok fun dst member => pass.isDstLive_ok (noReg accepted member)

/-- Marking what an instruction asks for marks what its parts ask for. -/
theorem markInstr_eq (pass : DeadCodePass) :
    markInstr pass instr = .ok (instr.dceParts.foldl markPart pass) := by
  have general : (do
      if ← isInstrLive pass instr then
        return instr.srcs.foldl markSrcLive (instr.pred.iterSsa.foldl markSsaLive pass)
      else return { pass with anyDead := true } : Except Fault DeadCodePass) =
        .ok (markPart pass (.general instr)) := by
    have srcs (srcs : List Src) (pass : DeadCodePass) :
        srcs.foldl markSrcLive pass = (srcs.flatMap Src.iterSsa).foldl markSsaLive pass :=
      foldl_flatMap.symm
    rw [isInstrLive_ok accepted pass, ok_bind, srcs, markPart]
    cases live : instr.isLive pass.liveSsa with
    | true =>
      simp [DcePart.isLive, live, markAsked, DcePart.uses, Instr.ssaUses, foldl_append]
      rfl
    | false =>
      simp [DcePart.isLive, live]
      rfl
  have unguarded := accepted
  rw [Instr.isAccepted, Bool.and_eq_true] at unguarded
  unfold markInstr Instr.dceParts
  cases isOp : instr.op with
  | phiSrcs srcs =>
    simp only [isOp] at unguarded
    simp only [unguarded.1, assertThat_true, ok_bind, foldl_map]
    refine foldlM_eq_foldl ?_ pass
    intro entry _ pass
    unfold markPhiSrc markPart isPhiLive
    by_cases live : entry.1.idx ∈ pass.livePhi
    · simp [DcePart.isLive, live]
      rfl
    · simp [DcePart.isLive, live]
  | phiDsts dsts =>
    simp only [isOp] at unguarded
    simp only [unguarded.1, assertThat_true, ok_bind, foldl_map]
    refine foldlM_eq_foldl ?_ pass
    intro entry member pass
    have mem : entry.2 ∈ instr.dsts := by
      simp only [Instr.dsts, isOp, Op.dsts, mem_map]
      exact ⟨entry, member, rfl⟩
    rw [markPhiDst, isDstLive_ok pass (noReg accepted mem), ok_bind, markPart]
    cases live : entry.2.isLive pass.liveSsa <;> simp [DcePart.isLive, live] <;> rfl
  | parCopy pcopy =>
    simp only [isOp] at unguarded
    simp only [unguarded.1, assertThat_true, ok_bind, foldl_map]
    refine foldlM_eq_foldl ?_ pass
    intro entry member pass
    have mem : entry.1 ∈ instr.dsts := by
      simp only [Instr.dsts, isOp, Op.dsts, mem_map]
      exact ⟨entry, member, rfl⟩
    rw [markCopy, isDstLive_ok pass (noReg accepted mem), ok_bind, markPart]
    cases live : entry.1.isLive pass.liveSsa <;> simp [DcePart.isLive, live] <;> rfl
  | _ => exact general

end Accepted

/-- The parts of a function, in the order of a round. -/
def parts (f : Function) : List DcePart :=
  f.blocks.blocks.reverse.flatMap fun bb => bb.instrs.reverse.flatMap Instr.dceParts

theorem markAll_eq {f : Function}
    (accepted : ∀ bb ∈ f.blocks.blocks, ∀ instr ∈ bb.instrs, instr.isAccepted = true)
    (pass : DeadCodePass) : markAll f pass = .ok ((parts f).foldl markPart pass) := by
  rw [parts, foldl_flatMap]
  refine foldlM_eq_foldl ?_ pass
  intro bb member pass
  rw [foldl_flatMap]
  refine foldlM_eq_foldl ?_ pass
  intro instr inBlock pass
  exact markInstr_eq (accepted bb (mem_reverse.mp member) instr (mem_reverse.mp inBlock))
    pass

def marks (pass : DeadCodePass) : Nat := pass.liveSsa.length + pass.livePhi.length

/-- The marks are in the sets, one each. -/
structure Within (ssas phis : List Nat) (pass : DeadCodePass) : Prop where
  ssaNodup : pass.liveSsa.Nodup
  ssaIn : pass.liveSsa ⊆ ssas
  phiNodup : pass.livePhi.Nodup
  phiIn : pass.livePhi ⊆ phis

theorem Within.empty (ssas phis : List Nat) : Within ssas phis {} :=
  ⟨nodup_nil, nil_subset _, nodup_nil, nil_subset _⟩

theorem Within.marks_le {ssas phis : List Nat} {pass : DeadCodePass}
    (within : Within ssas phis pass) : pass.marks ≤ ssas.length + phis.length :=
  Nat.add_le_add (subperm_of_subset within.ssaNodup within.ssaIn).length_le
    (subperm_of_subset within.phiNodup within.phiIn).length_le

/-- Marking for some parts: it keeps the marks or adds some and says so. It stays within sets that
are closed. If it adds none, the marks are closed, and some part is dead if it says so. -/
structure Marks (parts : List DcePart) (pass pass' : DeadCodePass) : Prop where
  grows : (pass'.newLive = pass.newLive ∧ pass'.liveSsa = pass.liveSsa ∧
      pass'.livePhi = pass.livePhi) ∨ (pass'.newLive = true ∧ pass.marks < pass'.marks)
  within : ∀ {ssas phis}, (∀ part ∈ parts, part.Closed ssas phis) →
    Within ssas phis pass → Within ssas phis pass'
  closed : pass'.newLive = false → ∀ part ∈ parts, part.Closed pass.liveSsa pass.livePhi
  dead : pass'.newLive = false → (pass'.anyDead = false ↔
    pass.anyDead = false ∧ ∀ part ∈ parts, part.isLive pass.liveSsa pass.livePhi = true)

theorem Marks.same {parts : List DcePart} {pass pass' : DeadCodePass}
    (marks : Marks parts pass pass') (none : pass'.newLive = false) :
    pass.newLive = false ∧ pass'.liveSsa = pass.liveSsa ∧ pass'.livePhi = pass.livePhi := by
  rcases marks.grows with ⟨flag, ssa, phi⟩ | ⟨flag, -⟩
  · exact ⟨flag ▸ none, ssa, phi⟩
  · rw [flag] at none
    cases none

theorem Marks.append {first second : List DcePart} {a b c : DeadCodePass} (ab : Marks first a b)
    (bc : Marks second b c) : Marks (first ++ second) a c where
  grows := by
    rcases bc.grows with ⟨flag, ssa, phi⟩ | ⟨flag, more⟩
    · rcases ab.grows with ⟨flag', ssa', phi'⟩ | ⟨flag', more'⟩
      · exact .inl ⟨flag.trans flag', ssa.trans ssa', phi.trans phi'⟩
      · exact .inr ⟨flag.trans flag', by simpa [DeadCodePass.marks, ssa, phi] using more'⟩
    · rcases ab.grows with ⟨-, ssa', phi'⟩ | ⟨-, more'⟩
      · exact .inr ⟨flag, by simpa [DeadCodePass.marks, ssa', phi'] using more⟩
      · exact .inr ⟨flag, Nat.lt_trans more' more⟩
  within := by
    intro ssas phis closed within
    exact bc.within (fun part member => closed part (mem_append_right first member))
      (ab.within (fun part member => closed part (mem_append_left second member)) within)
  closed := by
    intro none part member
    obtain ⟨none', ssa, phi⟩ := bc.same none
    rcases mem_append.mp member with member | member
    · exact ab.closed none' part member
    · rw [← (ab.same none').2.1, ← (ab.same none').2.2]
      exact bc.closed none part member
  dead := by
    intro none
    obtain ⟨none', -, -⟩ := bc.same none
    obtain ⟨-, ssa, phi⟩ := ab.same none'
    rw [bc.dead none, ab.dead none', ssa, phi, forall_mem_append, and_assoc]

theorem markSsas_grows : ∀ (names : List SSAValue) (pass : DeadCodePass),
    let pass' := names.foldl markSsaLive pass
    ((pass' = pass ∧ ∀ x ∈ names, x.idx ∈ pass.liveSsa) ∨
        (pass'.newLive = true ∧ pass.marks < pass'.marks)) ∧
      (∀ {ssas phis}, (∀ x ∈ names, x.idx ∈ ssas) → Within ssas phis pass →
        Within ssas phis pass') ∧ pass'.anyDead = pass.anyDead := by
  intro names
  induction names with
  | nil => exact fun pass => ⟨.inl ⟨rfl, by simp⟩, fun _ within => within, rfl⟩
  | cons x names ih =>
    intro pass
    obtain ⟨grows, within, dead⟩ := ih (pass.markSsaLive x)
    rw [foldl_cons]
    by_cases marked : x.idx ∈ pass.liveSsa
    · have same : pass.markSsaLive x = pass := if_pos marked
      rw [same] at grows within dead ⊢
      refine ⟨?_, fun known => within fun y member => known y (mem_cons_of_mem x member), dead⟩
      rcases grows with ⟨same, all⟩ | more
      · exact .inl ⟨same, forall_mem_cons.mpr ⟨marked, all⟩⟩
      · exact .inr more
    · have fresh : pass.markSsaLive x =
          { pass with liveSsa := x.idx :: pass.liveSsa, newLive := true } := if_neg marked
      have more : (pass.markSsaLive x).marks = pass.marks + 1 := by
        simp only [fresh, DeadCodePass.marks, length_cons]
        omega
      refine ⟨.inr ?_, ?_, ?_⟩
      · rcases grows with ⟨same, -⟩ | ⟨flag, larger⟩
        · rw [same]
          exact ⟨by rw [fresh], by omega⟩
        · exact ⟨flag, by omega⟩
      · intro ssas phis known start
        rw [forall_mem_cons] at known
        refine within known.2 ?_
        rw [fresh]
        exact ⟨nodup_cons.mpr ⟨marked, start.1⟩, cons_subset.mpr ⟨known.1, start.2⟩,
          start.3, start.4⟩
      · rw [dead, fresh]

/-- Marking the uses of a live part that has no phis. -/
theorem markUses_marks {part : DcePart} {pass : DeadCodePass} (noPhis : part.phis = [])
    (live : part.isLive pass.liveSsa pass.livePhi = true) :
    Marks [part] pass (part.uses.foldl markSsaLive pass) := by
  obtain ⟨grows, within, dead⟩ := markSsas_grows part.uses pass
  refine ⟨?_, ?_, ?_, fun _ => by simp [dead, live]⟩
  · rcases grows with ⟨same, -⟩ | more
    · exact .inl ⟨by rw [same], by rw [same], by rw [same]⟩
    · exact .inr more
  · intro ssas phis closed start
    exact within (closed part mem_cons_self (part.isLive_mono start.ssaIn start.phiIn live)).1
      start
  · intro none other member _
    cases mem_singleton.mp member
    rcases grows with ⟨-, all⟩ | ⟨flag, -⟩
    · exact ⟨all, by simp [noPhis]⟩
    · rw [flag] at none
      cases none

theorem markPart_marks (part : DcePart) (pass : DeadCodePass) :
    Marks [part] pass (pass.markPart part) := by
  unfold markPart
  split
  next live =>
    cases part with
    | phiDst phi dst =>
      show Marks _ pass (if phi.idx ∈ pass.livePhi then pass else _)
      split
      next marked =>
        refine ⟨.inl ⟨rfl, rfl, rfl⟩, fun _ within => within, ?_, fun _ => by simp [live]⟩
        intro _ other member _
        cases mem_singleton.mp member
        exact ⟨by simp [DcePart.uses], by simp [DcePart.phis, marked]⟩
      next fresh =>
        refine ⟨.inr ⟨rfl, ?_⟩, ?_, by simp, by simp⟩
        · simp only [DeadCodePass.marks, length_cons]
          omega
        · intro ssas phis closed start
          have asked := closed _ mem_cons_self
            (DcePart.isLive_mono start.ssaIn start.phiIn live)
          exact ⟨start.1, start.2, nodup_cons.mpr ⟨fresh, start.3⟩,
            cons_subset.mpr ⟨asked.2 phi (by simp [DcePart.phis]), start.4⟩⟩
    | phiSrc | copy | general => exact markUses_marks rfl live
  next notLive =>
    refine ⟨.inl ⟨rfl, rfl, rfl⟩, fun _ within => ⟨within.1, within.2, within.3, within.4⟩, ?_,
      fun _ => by simp [notLive]⟩
    intro _ other member live
    cases mem_singleton.mp member
    exact absurd live notLive

theorem markParts_marks : ∀ (parts : List DcePart) (pass : DeadCodePass),
    Marks parts pass (parts.foldl markPart pass) := by
  intro parts
  induction parts with
  | nil => exact fun pass => ⟨.inl ⟨rfl, rfl, rfl⟩, fun _ within => within, by simp, by simp⟩
  | cons part parts ih => exact fun pass => (markPart_marks part pass).append (ih _)

/-- What is known of the marks when marking ends: they are the least sets that are closed, and some
part is dead if the pass says so. -/
structure Least (parts : List DcePart) (start pass : DeadCodePass) : Prop where
  closed : ∀ part ∈ parts, part.Closed pass.liveSsa pass.livePhi
  least : ∀ {ssas phis}, (∀ part ∈ parts, part.Closed ssas phis) → Within ssas phis start →
    Within ssas phis pass
  dead : pass.anyDead = false ↔ ∀ part ∈ parts, part.isLive pass.liveSsa pass.livePhi = true

/-- Marking ends with the least closed sets. -/
theorem markLoop_ok {f : Function} {ssas phis : List Nat}
    (accepted : ∀ bb ∈ f.blocks.blocks, ∀ instr ∈ bb.instrs, instr.isAccepted = true)
    (known : ∀ part ∈ parts f, part.Asks ssas phis) : ∀ (fuel : Nat) (pass : DeadCodePass),
      Within ssas phis pass → ssas.length + phis.length < pass.marks + fuel →
      ∃ pass', markLoop f fuel pass = .ok pass' ∧ Least (parts f) pass pass' := by
  intro fuel
  induction fuel with
  | zero =>
    intro pass within enough
    have := within.marks_le
    omega
  | succ fuel ih =>
    intro pass within enough
    have reset : ∀ {ssas phis}, Within ssas phis pass →
        Within ssas phis { pass with newLive := false, anyDead := false } :=
      fun within => ⟨within.1, within.2, within.3, within.4⟩
    have marks := markParts_marks (parts f) { pass with newLive := false, anyDead := false }
    rw [markLoop, markAll_eq accepted, ok_bind]
    generalize (parts f).foldl markPart { pass with newLive := false, anyDead := false } = next
      at marks ⊢
    cases more : next.newLive with
    | true =>
      rw [if_pos rfl]
      obtain ⟨pass', returned, least⟩ := ih next
        (marks.within (fun part member _ => known part member) (reset within)) (by
          rcases marks.grows with ⟨flag, -⟩ | ⟨-, larger⟩
          · rw [more] at flag
            cases flag
          · have same : DeadCodePass.marks { pass with newLive := false, anyDead := false } =
              pass.marks := rfl
            omega)
      exact ⟨pass', returned, least.closed, fun closed start =>
        least.least closed (marks.within closed (reset start)), least.dead⟩
    | false =>
      rw [if_neg (by simp)]
      obtain ⟨-, ssa, phi⟩ := marks.same more
      refine ⟨next, rfl, ?_, fun closed start => marks.within closed (reset start), ?_⟩
      · rw [ssa, phi]
        exact marks.closed more
      · rw [ssa, phi, marks.dead more]
        exact and_iff_right rfl

end DeadCodePass

end CoralReef
