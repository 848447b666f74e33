import CoralReef.Codegen.Ir.Proofs.Step
import CoralReef.Codegen.Liveness.Proofs.Fixpoint
import CoralReef.Codegen.OptInstrSched.Prepass.Proofs.Order

/-!
# The blocks of a function

Both passes over the blocks together: what comes out of a block whose instructions are all in time.
-/

/-!
## Cutting a block

The loop over the instructions of a block puts each in its place in the unit. A block as the front
end lays it out is cut without a fault exactly when nothing but branches stands after its phi
sources, and of its branches the unit holds the last.
-/

open List

namespace CoralReef

namespace Prepass

/-- An instruction that is neither a phi, a branch nor `RegOut`. -/
def isPlain : Op → Bool
  | .regOut _ => false
  | op => !startsBlock op && !endsBlock op

def isPhiSrcs : Op → Bool
  | .phiSrcs _ => true
  | _ => false

/-- A block as the front end lays it out: its phi destinations, instructions, phi sources, the
instructions for the condition of a branch that come late, and branches. -/
structure Layout (instrs : List Instr) where
  phiDsts : Option Instr := none
  body : List Instr := []
  phiSrcs : Option Instr := none
  late : List Instr := []
  branches : List Instr := []
  whole : instrs = phiDsts.toList ++ body ++ phiSrcs.toList ++ late ++ branches
  arePhiDsts : ∀ instr ∈ phiDsts, startsBlock instr.op = true
  arePlain : ∀ instr ∈ body ++ late, isPlain instr.op = true
  arePhiSrcs : ∀ instr ∈ phiSrcs, isPhiSrcs instr.op = true
  areBranches : ∀ instr ∈ branches, instr.isBranch = true
  onTime : phiSrcs = none → late = []

/-- The parts of a unit. -/
structure Parts where
  phiDsts : Option Instr := none
  instrs : List Instr := []
  phiSrcs : Option Instr := none
  branch : Option Instr := none
  closed : Bool := false
  newOrder : Option (List Nat) := none

def ScheduleUnit.parts (unit : ScheduleUnit) : Parts :=
  { phiDsts := unit.phiDsts, instrs := unit.instrs, phiSrcs := unit.phiSrcs, branch := unit.branch
    closed := unit.liveOut.isSome, newOrder := unit.newOrder }

@[simp] theorem ScheduleUnit.parts_finishBlock (unit : ScheduleUnit) (live : LiveSet) :
    (unit.finishBlock live).parts = { unit.parts with closed := true } := by
  cases isLive : unit.liveOut <;> simp [finishBlock, parts, isLive]

section Steps

variable {maxRegCount : RegCounts} {bl : SimpleBlockLiveness} {cut : Cut} {instr : Instr} {ip : Nat}
  {parts : Parts}

/-- A loop over instructions ends with such a unit. -/
def Cuts (maxRegCount : RegCounts) (bl : SimpleBlockLiveness) (entries : List (Instr × Nat))
    (parts parts' : Parts) : Prop :=
  ∀ cut : Cut, cut.unit.parts = parts →
    ∃ cut', entries.foldlM (cutInstr maxRegCount bl) cut = .ok cut' ∧ cut'.unit.parts = parts'

/-- The rest of the step is about registers. -/
theorem cutInstr_place (notOut : ∀ srcs, instr.op ≠ .regOut srcs) : ∃ unit live lo hi,
    unit.parts = { cut.unit.parts with closed := cut.unit.parts.closed || endsBlock instr.op } ∧
      cutInstr maxRegCount bl cut (instr, ip) = (do
        return { unit := ← place unit instr, live, minGprTarget := lo, maxGprTarget := hi }) := by
  have used : ∀ live counts, usedGprs maxRegCount instr live counts =
      .ok (calcUsedGprs counts maxRegCount) := by
    intro live counts
    unfold usedGprs
    split
    next srcs isOut => exact absurd isOut (notOut srcs)
    next => rfl
  refine ⟨_, _, _, _, ?_, by rw [cutInstr]; simp only [used]; rfl⟩
  by_cases ends : endsBlock instr.op = true
  · simp only [ends, Bool.or_true, if_true]
    exact ScheduleUnit.parts_finishBlock ..
  · simp only [Bool.not_eq_true] at ends
    simp only [ends, Bool.or_false, Bool.false_eq_true, if_false]
    split <;> rfl


theorem cuts_nil : Cuts maxRegCount bl [] parts parts := fun cut same => ⟨cut, rfl, same⟩

theorem Cuts.append {entries entries' : List (Instr × Nat)} {parts' parts'' : Parts}
    (first : Cuts maxRegCount bl entries parts parts')
    (second : Cuts maxRegCount bl entries' parts' parts'') :
    Cuts maxRegCount bl (entries ++ entries') parts parts'' := by
  intro cut same
  obtain ⟨cut₁, runs₁, same₁⟩ := first cut same
  obtain ⟨cut₂, runs₂, same₂⟩ := second cut₁ same₁
  refine ⟨cut₂, ?_, same₂⟩
  rw [foldlM_append, runs₁]
  exact runs₂

/-- One instruction is cut as it is put in its place. -/
theorem cuts_one (notOut : ∀ srcs, instr.op ≠ .regOut srcs) {parts' : Parts}
    (placed : ∀ unit : ScheduleUnit,
      unit.parts = { parts with closed := parts.closed || endsBlock instr.op } →
        ∃ unit', place unit instr = .ok unit' ∧ unit'.parts = parts') :
    Cuts maxRegCount bl [(instr, ip)] parts parts' := by
  rintro cut rfl
  obtain ⟨unit, live, lo, hi, same, runs⟩ := @cutInstr_place maxRegCount bl cut instr ip notOut
  obtain ⟨unit', isPlaced, same'⟩ := placed unit same
  refine ⟨{ unit := unit', live, minGprTarget := lo, maxGprTarget := hi }, ?_, same'⟩
  rw [foldlM_cons, runs, isPlaced]
  rfl

theorem cuts_phiDsts (isPhi : startsBlock instr.op = true) :
    Cuts maxRegCount bl [(instr, ip)] parts { parts with phiDsts := some instr } := by
  cases isOp : instr.op <;> simp only [isOp, startsBlock, Bool.false_eq_true] at isPhi
  apply cuts_one (by simp [isOp])
  intro unit same
  refine ⟨{ unit with phiDsts := some instr }, by simp only [place, isOp], ?_⟩
  show { unit.parts with phiDsts := some instr } = _
  rw [same, isOp]
  simp [endsBlock, Op.isBranch]

theorem cuts_phiSrcs (isPhi : isPhiSrcs instr.op = true) :
    Cuts maxRegCount bl [(instr, ip)] parts { parts with phiSrcs := some instr, closed := true } := by
  cases isOp : instr.op <;> simp only [isOp, isPhiSrcs, Bool.false_eq_true] at isPhi
  apply cuts_one (by simp [isOp])
  intro unit same
  refine ⟨{ unit with phiSrcs := some instr }, by simp only [place, isOp], ?_⟩
  show { unit.parts with phiSrcs := some instr } = _
  rw [same, isOp]
  simp [endsBlock]

theorem cuts_branch (isBranch : instr.isBranch = true) :
    Cuts maxRegCount bl [(instr, ip)] parts { parts with branch := some instr, closed := true } := by
  have ends : endsBlock instr.op = true := by
    unfold endsBlock
    split
    · rfl
    · exact isBranch
  apply cuts_one
  · rintro srcs isOut
    rw [Instr.isBranch, isOut] at isBranch
    cases isBranch
  · intro unit same
    refine ⟨{ unit with branch := some instr }, ?_, ?_⟩
    · unfold place
      split
      next isOp => simp [Instr.isBranch, isOp, Op.isBranch] at isBranch
      next isOp => simp [Instr.isBranch, isOp, Op.isBranch] at isBranch
      next => exact if_pos isBranch
    · show { unit.parts with branch := some instr } = _
      rw [same, ends, Bool.or_true]

/-- Where an instruction is neither a phi nor a branch, its place is among the others. -/
theorem place_plain (plain : isPlain instr.op = true) (unit : ScheduleUnit) :
    place unit instr = (do
      assertThat unit.liveOut.isNone "unit.live_out.is_none()"
      return { unit with instrs := unit.instrs ++ [instr] }) ∧ endsBlock instr.op = false ∧
        ∀ srcs, instr.op ≠ .regOut srcs := by
  cases isOp : instr.op <;> rw [isOp] at plain <;> cases plain <;>
    refine ⟨by rw [place, isOp]; rfl, rfl, by simp⟩

theorem cuts_plain (plain : isPlain instr.op = true) (isOpen : parts.closed = false) :
    Cuts maxRegCount bl [(instr, ip)] parts { parts with instrs := parts.instrs ++ [instr] } := by
  obtain ⟨-, ends, notOut⟩ := place_plain plain {}
  apply cuts_one notOut
  intro unit same
  rw [ends, isOpen, Bool.or_false] at same
  have noLive : unit.liveOut = none := by
    have : unit.liveOut.isSome = false := congrArg Parts.closed same
    simpa using this
  refine ⟨{ unit with instrs := unit.instrs ++ [instr] }, ?_, ?_⟩
  · rw [(place_plain plain unit).1, noLive]
    rfl
  · show { unit.parts with instrs := unit.parts.instrs ++ [instr] } = _
    rw [same, isOpen]

/-- After the phi sources no other instruction has a place. -/
theorem cut_late (plain : isPlain instr.op = true) (closed : cut.unit.parts.closed = true) :
    ∃ fault, cutInstr maxRegCount bl cut (instr, ip) = .error fault := by
  obtain ⟨-, ends, notOut⟩ := place_plain plain {}
  obtain ⟨unit, live, lo, hi, same, runs⟩ := @cutInstr_place maxRegCount bl cut instr ip notOut
  have isClosed : unit.liveOut.isNone = false := by
    have : unit.liveOut.isSome = true := by
      show unit.parts.closed = true
      rw [same, closed]
      rfl
    simpa using this
  rw [runs, (place_plain plain unit).1, isClosed]
  exact ⟨_, rfl⟩

theorem cuts_body : ∀ {body : List Instr} {ip : Nat} {parts : Parts},
    (∀ instr ∈ body, isPlain instr.op = true) → parts.closed = false →
      Cuts maxRegCount bl (body.zipIdx ip) parts { parts with instrs := parts.instrs ++ body } := by
  intro body
  induction body with
  | nil =>
    intro ip parts _ _
    simpa using cuts_nil
  | cons instr body ih =>
    intro ip parts plain isOpen
    have first := @cuts_plain maxRegCount bl instr ip parts (plain instr mem_cons_self) isOpen
    have rest := @ih (ip + 1) { parts with instrs := parts.instrs ++ [instr] }
      (fun other member => plain other (mem_cons_of_mem instr member)) isOpen
    have both := first.append rest
    rw [append_assoc] at both
    exact both

theorem cuts_branches : ∀ {branches : List Instr} {ip : Nat} {parts : Parts},
    (∀ instr ∈ branches, instr.isBranch = true) →
      Cuts maxRegCount bl (branches.zipIdx ip) parts { parts with
        branch := branches.getLast?.or parts.branch
        closed := parts.closed || !branches.isEmpty } := by
  intro branches
  induction branches with
  | nil =>
    intro ip parts _
    simpa using cuts_nil
  | cons instr branches ih =>
    intro ip parts areBranches
    have first := @cuts_branch maxRegCount bl instr ip parts (areBranches instr mem_cons_self)
    have rest := @ih (ip + 1) { parts with branch := some instr, closed := true }
      (fun other member => areBranches other (mem_cons_of_mem instr member))
    have both := first.append rest
    have last : branches.getLast?.or (some instr) = (instr :: branches).getLast?.or parts.branch := by
      cases branches with
      | nil => rfl
      | cons other branches => simp [List.getLast?_cons]
    rw [last] at both
    simpa using both

/-- The unit of a block is cut up to its late instructions. -/
theorem Layout.cuts_front {instrs : List Instr} (layout : Layout instrs) :
    Cuts maxRegCount bl (layout.phiDsts.toList ++ layout.body ++ layout.phiSrcs.toList).zipIdx {}
      { phiDsts := layout.phiDsts, instrs := layout.body, phiSrcs := layout.phiSrcs
        closed := layout.phiSrcs.isSome } := by
  have dsts : Cuts maxRegCount bl (layout.phiDsts.toList.zipIdx) {}
      { phiDsts := layout.phiDsts } := by
    cases isPhi : layout.phiDsts with
    | none => exact cuts_nil
    | some instr => exact cuts_phiDsts (layout.arePhiDsts instr isPhi)
  have body := @cuts_body maxRegCount bl layout.body layout.phiDsts.toList.length
    { phiDsts := layout.phiDsts }
    (fun instr member => layout.arePlain instr (mem_append_left _ member)) rfl
  have srcs : Cuts maxRegCount bl
      (layout.phiSrcs.toList.zipIdx (layout.phiDsts.toList ++ layout.body).length)
      { phiDsts := layout.phiDsts, instrs := layout.body }
      { phiDsts := layout.phiDsts, instrs := layout.body, phiSrcs := layout.phiSrcs
        closed := layout.phiSrcs.isSome } := by
    cases isPhi : layout.phiSrcs with
    | none => exact cuts_nil
    | some instr => exact cuts_phiSrcs (layout.arePhiSrcs instr isPhi)
  rw [zipIdx_append, zipIdx_append, Nat.zero_add, Nat.zero_add]
  exact (dsts.append body).append srcs

theorem Layout.cuts {instrs : List Instr} (layout : Layout instrs) (none : layout.late = []) :
    Cuts maxRegCount bl instrs.zipIdx {}
      { phiDsts := layout.phiDsts, instrs := layout.body, phiSrcs := layout.phiSrcs
        branch := layout.branches.getLast?
        closed := layout.phiSrcs.isSome || !layout.branches.isEmpty } := by
  let front := layout.phiDsts.toList ++ layout.body ++ layout.phiSrcs.toList
  have branches := @cuts_branches maxRegCount bl layout.branches (0 + front.length)
    { phiDsts := layout.phiDsts, instrs := layout.body, phiSrcs := layout.phiSrcs
      closed := layout.phiSrcs.isSome } layout.areBranches
  have whole : instrs.zipIdx = front.zipIdx ++ layout.branches.zipIdx (0 + front.length) := by
    refine (congrArg List.zipIdx layout.whole).trans ?_
    rw [none, append_nil, zipIdx_append]
  have both := layout.cuts_front.append branches
  rw [Option.or_none] at both
  rwa [whole]

/-- A late instruction makes the loop fault. -/
theorem Layout.late_faults {instrs : List Instr} (layout : Layout instrs) (some : layout.late ≠ [])
    (isNew : cut.unit.parts = {}) :
    ∃ fault, instrs.zipIdx.foldlM (cutInstr maxRegCount bl) cut = .error fault := by
  obtain ⟨instr, late, isLate⟩ := exists_cons_of_ne_nil some
  obtain ⟨cut', runs, parts'⟩ := @Layout.cuts_front maxRegCount bl instrs layout cut isNew
  have closed : cut'.unit.parts.closed = true := by
    rw [parts']
    cases isPhi : layout.phiSrcs with
    | none => exact absurd (layout.onTime isPhi) some
    | some => rfl
  have plain : isPlain instr.op = true := layout.arePlain instr (by simp [isLate])
  obtain ⟨fault, faults⟩ := @cut_late maxRegCount bl cut' instr
    (0 + (layout.phiDsts.toList ++ layout.body ++ layout.phiSrcs.toList).length) plain closed
  refine ⟨fault, ?_⟩
  rw [layout.whole, isLate, append_assoc, zipIdx_append, foldlM_append, runs, ok_bind,
    cons_append, zipIdx_cons, foldlM_cons, faults]
  rfl

end Steps

open ListSchedule

variable {sm : ShaderModel} {maxRegCount : RegCounts}
  {getScheduleTypes : Int → Int → List ScheduleType} {f : Function}

/-- The parts of the unit of a block. -/
def Layout.parts {instrs : List Instr} (layout : Layout instrs) : Parts :=
  { phiDsts := layout.phiDsts, instrs := layout.body, phiSrcs := layout.phiSrcs
    branch := layout.branches.getLast?, closed := true }

/-- What comes out of a unit: its instructions are reordered between its phis and its branch. -/
def Parts.Out (parts : Parts) (out : List Instr) : Prop :=
  ∃ mid, out = parts.phiDsts.toList ++ mid ++ parts.phiSrcs.toList ++ parts.branch.toList ∧
    Reorders Linked parts.instrs mid

section FirstPass

variable {liveness : SimpleLiveness} {gathered : Gathered} {b : Nat}

/-- Before the loop over the instructions of a block nothing faults. -/
theorem cutBlock_loop (inside : b < liveness.blocks.length) :
    ∃ bl cut, cut.unit.parts = {} ∧ ∀ result,
      (f.instrs b).zipIdx.foldlM (cutInstr maxRegCount bl) cut = result →
        cutBlock maxRegCount f liveness gathered b = result.bind fun cut => .ok {
          minGprTarget := cut.minGprTarget
          maxGprTarget := cut.maxGprTarget
          units := gathered.units ++ [cut.unit.finishBlock cut.live]
          liveOutSets := gathered.liveOutSets ++ [cut.live] } := by
  have isBlock : liveness.blockLive b = .ok liveness.blocks[b] := by
    rw [SimpleLiveness.blockLive, List.getElem?_eq_getElem inside, expect_some]
  obtain ⟨live, isLive⟩ : ∃ live,
      liveAtHead f liveness gathered.liveOutSets liveness.blocks[b] b = .ok live := by
    unfold liveAtHead
    split
    · rw [SimpleLiveness.liveInValues, isBlock]
      exact ⟨_, rfl⟩
    · exact ⟨_, rfl⟩
  refine ⟨liveness.blocks[b],
    { live, minGprTarget := gathered.minGprTarget, maxGprTarget := gathered.maxGprTarget }, rfl, ?_⟩
  rintro result rfl
  rw [cutBlock, isBlock, ok_bind, isLive, ok_bind]
  rfl

theorem cutBlock_ok (inside : b < liveness.blocks.length) (layout : Layout (f.instrs b))
    (none : layout.late = []) : ∃ next unit,
      cutBlock maxRegCount f liveness gathered b = .ok next ∧
        next.units = gathered.units ++ [unit] ∧ unit.parts = layout.parts := by
  obtain ⟨bl, cut, isNew, runs⟩ := @cutBlock_loop maxRegCount f liveness gathered b inside
  obtain ⟨cut', cuts, parts⟩ := @Layout.cuts maxRegCount bl _ layout none cut isNew
  refine ⟨_, _, runs _ cuts, rfl, ?_⟩
  rw [ScheduleUnit.parts_finishBlock, parts]
  rfl

theorem cutBlock_faults (inside : b < liveness.blocks.length) (layout : Layout (f.instrs b))
    (some : layout.late ≠ []) :
    ∃ fault, cutBlock maxRegCount f liveness gathered b = .error fault := by
  obtain ⟨bl, cut, isNew, runs⟩ := @cutBlock_loop maxRegCount f liveness gathered b inside
  obtain ⟨fault, faults⟩ := @Layout.late_faults maxRegCount bl cut _ layout some isNew
  exact ⟨fault, runs _ faults⟩

/-- The first pass makes one unit for each block. -/
theorem cutBlocks_ok (layouts : ∀ b, Layout (f.instrs b)) (none : ∀ b, (layouts b).late = []) :
    ∀ n, n ≤ liveness.blocks.length → ∃ gathered,
      (List.range n).foldlM (cutBlock maxRegCount f liveness) {} = .ok gathered ∧
        gathered.units.map ScheduleUnit.parts = (List.range n).map fun b => (layouts b).parts := by
  intro n inside
  apply foldlM_range_ok (cutBlock maxRegCount f liveness)
    (fun n gathered => gathered.units.map ScheduleUnit.parts =
      (List.range n).map fun b => (layouts b).parts) rfl
  intro b gathered below parts
  obtain ⟨next, unit, runs, units, isUnit⟩ := @cutBlock_ok maxRegCount f liveness gathered b
    (by omega) (layouts b) (none b)
  refine ⟨next, runs, ?_⟩
  rw [units, map_append, parts, range_succ, map_append, map_singleton, isUnit,
    map_singleton]

end FirstPass

section SecondPass

/-- Units that can be scheduled. -/
structure Ready (sm : ShaderModel) (unit : ScheduleUnit) : Prop where
  estimated : Estimated sm unit.instrs
  unique : (unit.instrs.flatMap Instr.ssaDefs).Nodup
  closed : unit.liveOut.isSome
  kept : ∀ order, unit.newOrder = some order → Keeps unit.instrs order

namespace ScheduleUnit

theorem Scheduled.refl {unit : ScheduleUnit} (ready : Ready sm unit) : Scheduled unit unit :=
  ⟨rfl, rfl, rfl, rfl, rfl, ready.kept⟩

theorem Scheduled.ready {before after : ScheduleUnit} (scheduled : Scheduled before after)
    (ready : Ready sm before) : Ready sm after := by
  refine ⟨?_, ?_, ?_, ?_⟩
  · rw [scheduled.instrs]
    exact ready.estimated
  · rw [scheduled.instrs]
    exact ready.unique
  · rw [scheduled.liveOut]
    exact ready.closed
  · rw [scheduled.instrs]
    exact scheduled.newOrder

theorem Scheduled.trans {first second third : ScheduleUnit} (early : Scheduled first second)
    (late : Scheduled second third) : Scheduled first third := by
  refine ⟨late.liveOut.trans early.liveOut, late.instrs.trans early.instrs,
    late.phiDsts.trans early.phiDsts, late.phiSrcs.trans early.phiSrcs,
    late.branch.trans early.branch, ?_⟩
  rw [← early.instrs]
  exact late.newOrder

end ScheduleUnit

theorem ScheduleUnit.Scheduled.out {before after : ScheduleUnit}
    (scheduled : ScheduleUnit.Scheduled before after) {out : List Instr}
    (isOut : after.parts.Out out) : before.parts.Out out := by
  obtain ⟨mid, whole, reorders⟩ := isOut
  refine ⟨mid, ?_, ?_⟩
  · rw [whole]
    show after.phiDsts.toList ++ _ ++ after.phiSrcs.toList ++ after.branch.toList = _
    rw [scheduled.phiDsts, scheduled.phiSrcs, scheduled.branch]
    rfl
  · show Reorders Linked before.instrs mid
    rw [← scheduled.instrs]
    exact reorders

open ScheduleUnit

theorem schedule_ready {unit : ScheduleUnit} (ready : Ready sm unit) (scheduleType : ScheduleType) :
    ∃ unit', unit.schedule sm maxRegCount scheduleType = .ok unit' ∧
      ScheduleUnit.Scheduled unit unit' :=
  schedule_ok ready.estimated ready.unique ready.closed ready.kept scheduleType

/-- Types are tried until one is left. -/
theorem tryTypes_ok : ∀ {types : List ScheduleType} {unit : ScheduleUnit}, Ready sm unit →
    types ≠ [] → ∃ unit' left, tryTypes sm maxRegCount unit types = .ok (unit', left) ∧
      ScheduleUnit.Scheduled unit unit' ∧ left ≠ [] := by
  intro types
  induction types with
  | nil => exact fun _ never => absurd rfl never
  | cons scheduleType rest ih =>
    intro unit ready _
    obtain ⟨unit₁, first, scheduled⟩ := @schedule_ready sm maxRegCount unit ready scheduleType
    rw [tryTypes, first, ok_bind]
    split
    next => exact ⟨unit₁, scheduleType :: rest, rfl, scheduled, by simp⟩
    next more =>
      have some : rest ≠ [] := by
        rintro rfl
        simp at more
      obtain ⟨unit', left, runs, scheduled', nonempty⟩ := ih (scheduled.ready ready) some
      exact ⟨unit', left, runs, scheduled.trans scheduled', nonempty⟩

theorem tryUnits_ok {types : List ScheduleType} (some : types ≠ []) {units : List ScheduleUnit}
    (ready : ∀ unit ∈ units, Ready sm unit) : ∃ units' left,
      units.foldlM (tryUnit sm maxRegCount) ([], types) = .ok (units', left) ∧
        List.Forall₂ ScheduleUnit.Scheduled units units' ∧ left ≠ [] := by
  obtain ⟨⟨units', left⟩, runs, scheduled, nonempty⟩ := foldlM_ok (tryUnit sm maxRegCount)
    (fun done state => List.Forall₂ ScheduleUnit.Scheduled done state.1 ∧ state.2 ≠ []) units []
    ([], types) ⟨.nil, some⟩ (by
      intro before unit state member holds
      obtain ⟨done, nonempty⟩ := holds
      have snoc : ∀ {unit' : ScheduleUnit}, ScheduleUnit.Scheduled unit unit' →
          List.Forall₂ ScheduleUnit.Scheduled (before ++ [unit]) (state.1 ++ [unit']) :=
        fun scheduled => rel_append done (.cons scheduled .nil)
      unfold tryUnit
      split
      next =>
        exact ⟨_, rfl, snoc (.refl (ready unit member)), nonempty⟩
      next =>
        obtain ⟨unit', left, runs, scheduled, nonempty'⟩ :=
          @tryTypes_ok sm maxRegCount state.2 unit (ready unit member) nonempty
        refine ⟨(state.1 ++ [unit'], left), ?_, snoc scheduled, nonempty'⟩
        rw [runs]
        rfl)
  exact ⟨units', left, runs, scheduled, nonempty⟩

theorem finishUnit_ok {unit : ScheduleUnit} (ready : Ready sm unit) (scheduleType : ScheduleType) :
    ∃ out, finishUnit sm maxRegCount scheduleType unit = .ok out ∧ unit.parts.Out out := by
  have last : ∀ {unit' : ScheduleUnit}, ScheduleUnit.Scheduled unit unit' →
      ∃ out, unit'.toInstrs = .ok out ∧ unit.parts.Out out := by
    intro unit' scheduled
    obtain ⟨mid, runs, reorders⟩ := toInstrs_ok (scheduled.ready ready).kept
    exact ⟨_, runs, scheduled.out ⟨mid, rfl, reorders⟩⟩
  unfold finishUnit
  split
  next =>
    obtain ⟨unit', runs, scheduled⟩ := @schedule_ready sm maxRegCount unit ready scheduleType
    rw [runs, ok_bind]
    exact last scheduled
  next => exact last (.refl ready)

end SecondPass

open ScheduleUnit

theorem Layout.out_nil {instrs : List Instr} (layout : Layout instrs) (empty : instrs = []) :
    layout.parts.Out [] := by
  have whole := layout.whole.symm.trans empty
  simp only [append_eq_nil_iff, Option.toList_eq_nil_iff] at whole
  obtain ⟨⟨⟨⟨dsts, body⟩, srcs⟩, -⟩, branches⟩ := whole
  refine ⟨[], ?_, ?_⟩
  · simp [parts, dsts, srcs, branches]
  · show Reorders Linked layout.body []
    rw [body]
    exact .refl []

theorem unit_ready {instrs : List Instr} (layout : Layout instrs) (estimated : Estimated sm instrs)
    (unique : (instrs.flatMap Instr.ssaDefs).Nodup) {unit : ScheduleUnit}
    (isUnit : unit.parts = layout.parts) : Ready sm unit := by
  have isBody : unit.instrs = layout.body := congrArg Parts.instrs isUnit
  have inside : layout.body.Sublist instrs := by
    conv => rhs; rw [layout.whole]
    simp only [append_assoc]
    exact (sublist_append_left ..).trans (sublist_append_right ..)
  refine ⟨?_, ?_, congrArg Parts.closed isUnit, ?_⟩
  · rw [isBody]
    exact fun instr member => estimated instr (inside.subset member)
  · rw [isBody]
    exact (inside.flatMap Instr.ssaDefs).nodup unique
  · have noOrder : unit.newOrder = none := congrArg Parts.newOrder isUnit
    intro order isOrder
    rw [noOrder] at isOrder
    cases isOrder

/-- Where nothing comes late, every block comes out. -/
theorem optInstrSchedPrepass_ok (layouts : ∀ b, Layout (f.instrs b))
    (none : ∀ b, (layouts b).late = []) (estimated : ∀ b, Estimated sm (f.instrs b))
    (unique : ∀ b, (f.defs b).Nodup) (some : ∀ lo hi, getScheduleTypes lo hi ≠ []) :
    ∃ f', f.optInstrSchedPrepass sm maxRegCount getScheduleTypes = .ok f' ∧
      f'.blocks.edges = f.blocks.edges ∧ f'.blocks.len = f.blocks.len ∧
      ∀ b, (layouts b).parts.Out (f'.instrs b) := by
  obtain ⟨liveness, found, -, len⟩ := SimpleLiveness.forFunction_ok f
  obtain ⟨gathered, first, parts⟩ := @cutBlocks_ok maxRegCount f liveness layouts none f.blocks.len
    (Nat.le_of_eq len.symm)
  have ready : ∀ unit ∈ gathered.units, Ready sm unit := by
    intro unit member
    have inParts : unit.parts ∈ gathered.units.map ScheduleUnit.parts := mem_map_of_mem member
    rw [parts] at inParts
    obtain ⟨b, -, isUnit⟩ := mem_map.mp inParts
    exact unit_ready (layouts b) (estimated b) (unique b) isUnit.symm
  obtain ⟨units, left, second, scheduled, nonempty⟩ := @tryUnits_ok sm maxRegCount
    _ (some gathered.minGprTarget gathered.maxGprTarget) gathered.units ready
  obtain ⟨sameLength, each⟩ := forall₂_iff_get.mp scheduled
  have ready' : ∀ unit ∈ units, Ready sm unit := by
    intro unit member
    obtain ⟨b, inside, rfl⟩ := mem_iff_getElem.mp member
    have inside' : b < gathered.units.length := sameLength ▸ inside
    exact (each b inside' inside).ready (ready _ (getElem_mem inside'))
  obtain ⟨scheduleType, left, rfl⟩ := exists_cons_of_ne_nil nonempty
  obtain ⟨outs, last, finished⟩ := mapM_forall₂ fun unit member =>
    @finishUnit_ok sm maxRegCount unit (ready' unit member) scheduleType
  obtain ⟨sameLength', eachOut⟩ := forall₂_iff_get.mp finished
  have length : gathered.units.length = f.blocks.len := by
    have := congrArg List.length parts
    rwa [length_map, length_map, length_range] at this
  have out : ∀ b (inside : b < outs.length), (layouts b).parts.Out outs[b] := by
    intro b inside
    have inUnits : b < units.length := sameLength' ▸ inside
    have inGathered : b < gathered.units.length := sameLength ▸ inUnits
    have isUnit : ∀ g : Nat → Parts, gathered.units.map ScheduleUnit.parts =
        (List.range f.blocks.len).map g → gathered.units[b].parts = g b := by
      intro g same
      have here := congrArg (·[b]?) same
      have inRange : b < f.blocks.len := length ▸ inGathered
      simpa [inGathered, inRange] using here
    rw [← isUnit _ parts]
    exact (each b inGathered inUnits).out (eachOut b inUnits inside)
  have outsLength : outs.length = f.blocks.blocks.length := by
    rw [← sameLength', ← sameLength]
    exact length
  refine ⟨{ f with blocks := { f.blocks with
    blocks := f.blocks.blocks.zipWith (fun block instrs => { block with instrs }) outs } },
    ?_, rfl, ?_, ?_⟩
  · rw [Function.optInstrSchedPrepass, found, ok_bind, first, ok_bind]
    dsimp only
    rw [second, ok_bind]
    dsimp only
    rw [List.head?_cons, expect_some, ok_bind, last]
    rfl
  · show (List.zipWith _ _ _).length = f.blocks.blocks.length
    rw [length_zipWith, outsLength, Nat.min_self]
  · intro b
    by_cases inside : b < f.blocks.len
    · have inOuts : b < outs.length := outsLength ▸ inside
      have inBlocks : b < f.blocks.blocks.length := inside
      have isOut : Function.instrs { f with blocks := { f.blocks with
          blocks := f.blocks.blocks.zipWith (fun block instrs => { block with instrs }) outs } } b =
            outs[b] := by
        simp [Function.instrs, inOuts, inBlocks]
      rw [isOut]
      exact out b inOuts
    · have above : f.blocks.len ≤ b := Nat.le_of_not_lt inside
      have empty : Function.instrs { f with blocks := { f.blocks with
          blocks := f.blocks.blocks.zipWith (fun block instrs => { block with instrs }) outs } } b =
            [] := by
        apply Function.instrs_eq_nil
        show (List.zipWith _ _ _).length ≤ b
        rw [length_zipWith]
        exact (Nat.min_le_left ..).trans above
      rw [empty]
      exact (layouts b).out_nil (Function.instrs_eq_nil above)

end Prepass

end CoralReef
