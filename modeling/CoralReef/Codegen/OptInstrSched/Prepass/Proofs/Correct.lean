import CoralReef.Codegen.OptInstrSched.Prepass.Proofs.Blocks

/-!
# The scheduler keeps blocks well formed

A unit has one place for a branch, and none for an instruction behind the phi sources. Blocks that
need no more come out well formed; of two branches the first is lost, and a late instruction is a
panic.
-/

open List

namespace CoralReef.Prepass

open ListSchedule

variable {sm : ShaderModel} {maxRegCount : RegCounts}
  {getScheduleTypes : Int → Int → List ScheduleType} {f : Function} {instrs out : List Instr}

/-- A block comes out as a permutation in which values are defined before they are used, memory
operations and barriers keep their order, phi destinations come first, phi sources come after the
values they carry, and all branches come last in their order. -/
structure WellOrdered (instrs out : List Instr) : Prop where
  reorders : Reorders Linked instrs out
  phiDstsFirst : ∀ pre instr post, out = pre ++ instr :: post → startsBlock instr.op = true →
    pre = []
  phiSrcsBehind : ∀ pre instr post, out = pre ++ instr :: post → isPhiSrcs instr.op = true →
    ∀ a ∈ post, ¬ a.Flows instr
  branchesLast : ∃ body, out = body ++ instrs.filter Instr.isBranch ∧
    ∀ instr ∈ body, instr.isBranch = false

/-- The function that comes out has the graph of the one that went in, is in strict SSA form and
consists of well ordered blocks. -/
structure KeepsBlocks (f f' : Function) : Prop where
  edges : f'.blocks.edges = f.blocks.edges
  strict : f'.StrictSsa
  blocks : ∀ b, WellOrdered (f.instrs b) (f'.instrs b)

/-- A block has at most one branch, and only branches stand behind its phi sources. -/
structure CutsCleanly (instrs : List Instr) : Prop where
  oneBranch : (instrs.filter Instr.isBranch).length ≤ 1
  srcsLast : ∀ pre instr post, instrs = pre ++ instr :: post → isPhiSrcs instr.op = true →
    ∀ a ∈ post, a.isBranch = true

/-- Reordering blocks so that values flow forward keeps strict SSA form. -/
theorem strictSsa_of_reorders {f' : Function} (strict : f.StrictSsa)
    (edges : f'.blocks.edges = f.blocks.edges) (len : f'.blocks.len = f.blocks.len)
    (reorders : ∀ b, Reorders Linked (f.instrs b) (f'.instrs b)) : f'.StrictSsa := by
  have sameDefs : ∀ b, (f'.defs b).Perm (f.defs b) := fun b =>
    (reorders b).perm.flatMap_right Instr.ssaDefs
  constructor
  · rw [Function.allDefs_eq, len]
    have unique := strict.unique
    rw [Function.allDefs_eq] at unique
    exact (List.Perm.flatMap_left _ fun b _ => sameDefs b).nodup_iff.mpr unique
  · intro before b pre instr post path split x used
    obtain ⟨pre₀, post₀, split₀, kept⟩ := (reorders b).split split
    rcases strict.dominated before b pre₀ instr post₀ (path.congr edges) split₀ x used with
      earlier | here
    · left
      obtain ⟨c, passed, defines⟩ := mem_flatMap.mp earlier
      exact mem_flatMap.mpr ⟨c, passed, (sameDefs c).symm.subset defines⟩
    · right
      obtain ⟨a, member, defines⟩ := mem_flatMap.mp here
      exact mem_flatMap.mpr ⟨a, kept a member (.inl ⟨x, defines, used⟩), defines⟩

/-- A list with one item of a kind is split at it in one way. -/
theorem split_only {P : Instr → Bool} {front back pre post : List Instr} {only : Option Instr}
    {instr : Instr} (notFront : ∀ a ∈ front, P a = false) (notBack : ∀ a ∈ back, P a = false)
    (same : front ++ only.toList ++ back = pre ++ instr :: post) (isOne : P instr = true) :
    pre = front ∧ only = some instr ∧ post = back := by
  have inFront : instr ∉ front := fun member => by simp [notFront instr member] at isOne
  have inBack : instr ∉ back := fun member => by simp [notBack instr member] at isOne
  cases only with
  | none =>
    have member : instr ∈ front ++ [] ++ back := by
      rw [← Option.toList_none, same]
      simp
    simp [inFront, inBack] at member
  | some other =>
    rw [Option.toList_some, append_assoc] at same
    rcases append_eq_append_iff.mp same with ⟨between, rfl, rest⟩ | ⟨between, rfl, rest⟩
    · cases between with
      | nil =>
        cases rest
        exact ⟨append_nil front, rfl, rfl⟩
      | cons a between =>
        cases rest
        simp at inBack
    · cases between with
      | nil =>
        cases rest
        exact ⟨(append_nil pre).symm, rfl, rfl⟩
      | cons a between =>
        cases rest
        simp at inFront

theorem getLast?_toList (one : instrs.length ≤ 1) : instrs.getLast?.toList = instrs := by
  cases instrs with
  | nil => rfl
  | cons a rest =>
    have empty : rest = [] := length_eq_zero_iff.mp (Nat.le_zero.mp (Nat.le_of_succ_le_succ one))
    rw [empty]
    rfl

theorem isPlain_kinds {instr : Instr} (plain : isPlain instr.op = true) :
    instr.isBranch = false ∧ startsBlock instr.op = false ∧ isPhiSrcs instr.op = false := by
  rw [Instr.isBranch]
  cases isOp : instr.op <;> rw [isOp] at plain <;> cases plain <;> exact ⟨rfl, rfl, rfl⟩

theorem isBranch_kinds {instr : Instr} (branch : instr.isBranch = true) :
    startsBlock instr.op = false ∧ isPhiSrcs instr.op = false ∧ instr.ssaDefs = [] := by
  rw [Instr.isBranch] at branch
  rw [Instr.ssaDefs, Instr.dsts]
  cases isOp : instr.op <;> rw [isOp] at branch <;> cases branch <;> exact ⟨rfl, rfl, rfl⟩

theorem isPhi_kinds {instr : Instr} : (startsBlock instr.op = true →
    instr.isBranch = false ∧ isPhiSrcs instr.op = false) ∧
    (isPhiSrcs instr.op = true → instr.isBranch = false ∧ startsBlock instr.op = false) := by
  rw [Instr.isBranch]
  cases instr.op <;> simp [startsBlock, isPhiSrcs, Op.isBranch]

namespace Layout

variable (layout : Layout instrs)

theorem filter_branches : instrs.filter Instr.isBranch = layout.branches := by
  have others : (layout.phiDsts.toList ++ layout.body ++ layout.phiSrcs.toList ++
      layout.late).filter Instr.isBranch = [] := by
    rw [filter_eq_nil_iff]
    intro instr member
    rw [Bool.not_eq_true]
    simp only [mem_append, Option.mem_toList] at member
    rcases member with ((isDsts | inBody) | isSrcs) | isLate
    · exact (isPhi_kinds.1 (layout.arePhiDsts instr isDsts)).1
    · exact (isPlain_kinds (layout.arePlain instr (mem_append_left _ inBody))).1
    · exact (isPhi_kinds.2 (layout.arePhiSrcs instr isSrcs)).1
    · exact (isPlain_kinds (layout.arePlain instr (mem_append_right _ isLate))).1
  have branches : layout.branches.filter Instr.isBranch = layout.branches :=
    filter_eq_self.mpr layout.areBranches
  refine (congrArg (List.filter Instr.isBranch) layout.whole).trans ?_
  rw [filter_append, others, branches, nil_append]

theorem cutsCleanly_iff : CutsCleanly instrs ↔ layout.late = [] ∧ layout.branches.length ≤ 1 := by
  have notFront : ∀ a ∈ layout.phiDsts.toList ++ layout.body, isPhiSrcs a.op = false := by
    intro a member
    rw [mem_append, Option.mem_toList] at member
    rcases member with isDsts | inBody
    · exact (isPhi_kinds.1 (layout.arePhiDsts a isDsts)).2
    · exact (isPlain_kinds (layout.arePlain a (mem_append_left _ inBody))).2.2
  have notBack : ∀ a ∈ layout.late ++ layout.branches, isPhiSrcs a.op = false := by
    intro a member
    rcases mem_append.mp member with isLate | isBranch
    · exact (isPlain_kinds (layout.arePlain a (mem_append_right _ isLate))).2.2
    · exact (isBranch_kinds (layout.areBranches a isBranch)).2.1
  have whole := layout.whole
  rw [append_assoc _ layout.late] at whole
  constructor
  · intro clean
    refine ⟨?_, layout.filter_branches ▸ clean.oneBranch⟩
    cases isSrcs : layout.phiSrcs with
    | none => exact layout.onTime isSrcs
    | some instr =>
      apply eq_nil_iff_forall_not_mem.mpr
      intro a isLate
      rw [isSrcs, Option.toList_some, append_assoc, singleton_append] at whole
      have branch := clean.srcsLast _ instr _ whole (layout.arePhiSrcs instr isSrcs) a
        (mem_append_left _ isLate)
      rw [(isPlain_kinds (layout.arePlain a (mem_append_right _ isLate))).1] at branch
      cases branch
  · rintro ⟨none, one⟩
    refine ⟨layout.filter_branches.symm ▸ one, ?_⟩
    intro pre instr post split isSrcs a member
    obtain ⟨-, -, rfl⟩ := split_only notFront notBack (whole.symm.trans split) isSrcs
    rw [none, nil_append] at member
    exact layout.areBranches a member

/-- What comes out of a block with nothing late and one branch is well ordered. -/
theorem wellOrdered (none : layout.late = []) (one : layout.branches.length ≤ 1)
    (isOut : layout.parts.Out out) : WellOrdered instrs out := by
  obtain ⟨mid, rfl, reorders⟩ := isOut
  have branch : layout.parts.branch.toList = layout.branches := getLast?_toList one
  rw [branch]
  show WellOrdered instrs (layout.phiDsts.toList ++ mid ++ layout.phiSrcs.toList ++ layout.branches)
  change Reorders Linked layout.body mid at reorders
  have plain : ∀ a ∈ mid, isPlain a.op = true := fun a member =>
    layout.arePlain a (mem_append_left _ (reorders.perm.subset member))
  have notDsts : ∀ a ∈ mid ++ (layout.phiSrcs.toList ++ layout.branches),
      startsBlock a.op = false := by
    intro a member
    simp only [mem_append, Option.mem_toList] at member
    rcases member with inMid | isSrcs | isBranch
    · exact (isPlain_kinds (plain a inMid)).2.1
    · exact (isPhi_kinds.2 (layout.arePhiSrcs a isSrcs)).2
    · exact (isBranch_kinds (layout.areBranches a isBranch)).1
  have notSrcs : ∀ a ∈ layout.phiDsts.toList ++ mid, isPhiSrcs a.op = false := by
    intro a member
    rw [mem_append, Option.mem_toList] at member
    rcases member with isDsts | inMid
    · exact (isPhi_kinds.1 (layout.arePhiDsts a isDsts)).2
    · exact (isPlain_kinds (plain a inMid)).2.2
  have notSrcs' : ∀ a ∈ layout.branches, isPhiSrcs a.op = false := fun a isBranch =>
    (isBranch_kinds (layout.areBranches a isBranch)).2.1
  constructor
  · have framed := reorders.frame layout.phiDsts.toList (layout.phiSrcs.toList ++ layout.branches)
    have whole := layout.whole
    rw [none, append_nil] at whole
    rw [← append_assoc, ← append_assoc, ← whole] at framed
    exact framed
  · intro pre instr post split isDsts
    have noFront : ∀ a ∈ ([] : List Instr), startsBlock a.op = false := by simp
    have whole : [] ++ layout.phiDsts.toList ++ (mid ++ (layout.phiSrcs.toList ++ layout.branches)) =
        pre ++ instr :: post := by
      rw [← split]
      simp only [nil_append, append_assoc]
    exact (split_only noFront notDsts whole isDsts).1
  · intro pre instr post split isSrcs a member flows
    obtain ⟨-, -, rfl⟩ := split_only notSrcs notSrcs' split isSrcs
    obtain ⟨x, defines, -⟩ := flows
    rw [(isBranch_kinds (layout.areBranches a member)).2.2] at defines
    cases defines
  · refine ⟨_, by rw [layout.filter_branches], ?_⟩
    intro a member
    simp only [mem_append, Option.mem_toList] at member
    rcases member with (isDsts | inMid) | isSrcs
    · exact (isPhi_kinds.1 (layout.arePhiDsts a isDsts)).1
    · exact (isPlain_kinds (plain a inMid)).1
    · exact (isPhi_kinds.2 (layout.arePhiSrcs a isSrcs)).1

end Layout

/-- If the pass returns, no instruction comes late. -/
theorem late_of_returned (layouts : ∀ b, Layout (f.instrs b)) {f' : Function}
    (returned : f.optInstrSchedPrepass sm maxRegCount getScheduleTypes = .ok f') :
    ∀ b, (layouts b).late = [] := by
  obtain ⟨liveness, found, -, len⟩ := SimpleLiveness.forFunction_ok f
  rw [Function.optInstrSchedPrepass, found, ok_bind, bind_eq_ok] at returned
  obtain ⟨gathered, first, -⟩ := returned
  intro b
  by_contra some
  by_cases inside : b < f.blocks.len
  · obtain ⟨before, after, step⟩ := foldlM_ok_mem first b (mem_range.mpr inside)
    obtain ⟨fault, faults⟩ := @cutBlock_faults maxRegCount f liveness before b (len ▸ inside)
      (layouts b) some
    rw [faults] at step
    cases step
  · have whole := (layouts b).whole.symm.trans (Function.instrs_eq_nil (Nat.le_of_not_lt inside))
    simp only [append_eq_nil_iff] at whole
    exact some whole.1.2

theorem nodup_defs (strict : f.StrictSsa) (b : Nat) : (f.defs b).Nodup := by
  by_cases inside : b < f.blocks.len
  · have all := strict.unique
    rw [Function.allDefs_eq] at all
    exact (nodup_flatMap.mp all).1 b (mem_range.mpr inside)
  · rw [Function.defs, Function.instrs_eq_nil (Nat.le_of_not_lt inside)]
    exact nodup_nil

/-- The pass keeps a function well formed exactly when each of its blocks cuts cleanly. -/
theorem keepsBlocks_iff_cutsCleanly (layouts : ∀ b, Layout (f.instrs b)) (strict : f.StrictSsa)
    (estimated : ∀ b, Estimated sm (f.instrs b)) (some : ∀ lo hi, getScheduleTypes lo hi ≠ []) :
    (∃ f', f.optInstrSchedPrepass sm maxRegCount getScheduleTypes = .ok f' ∧ KeepsBlocks f f') ↔
      ∀ b, CutsCleanly (f.instrs b) := by
  have unique := nodup_defs strict
  constructor
  · rintro ⟨f', returned, keeps⟩ b
    have none := late_of_returned layouts returned
    obtain ⟨f'', returned', -, -, outs⟩ := @optInstrSchedPrepass_ok sm maxRegCount getScheduleTypes f
      layouts none estimated unique some
    rw [returned] at returned'
    cases returned'
    refine (layouts b).cutsCleanly_iff.mpr ⟨none b, ?_⟩
    obtain ⟨mid, isOut, reorders⟩ := outs b
    have lengthOut := (congrArg List.length isOut).symm.trans (keeps.blocks b).reorders.perm.length_eq
    have lengthIn := congrArg List.length (layouts b).whole
    have sameBody : mid.length = (layouts b).body.length := reorders.perm.length_eq
    have atMostOne : (layouts b).branches.getLast?.toList.length ≤ 1 := Option.length_toList_le
    rw [none b, List.append_nil] at lengthIn
    simp only [List.length_append, Layout.parts] at lengthOut lengthIn
    omega
  · intro clean
    have each := fun b => (layouts b).cutsCleanly_iff.mp (clean b)
    obtain ⟨f', returned, edges, len, outs⟩ := @optInstrSchedPrepass_ok sm maxRegCount getScheduleTypes
      f layouts (fun b => (each b).1) estimated unique some
    have blocks := fun b => (layouts b).wellOrdered (each b).1 (each b).2 (outs b)
    exact ⟨f', returned, edges, strictSsa_of_reorders strict edges len fun b => (blocks b).reorders,
      blocks⟩

/-- A loop of one block: an entry, the block that ends with both branches, and the exit. -/
def loopOf (entry latch : List Instr) : Function :=
  { ssaAlloc := ⟨3⟩, phiAlloc := ⟨1⟩
    blocks := {
      blocks := [{ label := ⟨0⟩, instrs := entry }, { label := ⟨1⟩, instrs := latch },
        { label := ⟨2⟩, instrs := [.new .exit] }]
      edges := [(0, 1), (1, 1), (1, 2)] } }

def breakIf (cond : SSAValue) : Instr := .new (.bra ⟨2⟩ (.ofSsa cond))

def repeatLoop : Instr := .new (.bra ⟨1⟩ { reference := .boolTrue })

/-- `break_if` with a condition that is a predicate. -/
def predLatch : Function :=
  loopOf [.new (.undef (.ofSsa ⟨.pred, 1⟩))] [breakIf ⟨.pred, 1⟩, repeatLoop]

/-- A loop that carries a variable and is left by a `break` only. -/
def plainLatch : Function :=
  loopOf [.new (.undef (.ofSsa ⟨.gpr, 1⟩)), .new (.phiSrcs [(⟨0⟩, .ofSsa ⟨.gpr, 1⟩)])]
    [.new (.phiDsts [(⟨0⟩, .ofSsa ⟨.gpr, 2⟩)]),
      .new (.other ⟨"IAdd2", true⟩ [.ofSsa ⟨.gpr, 3⟩] [.ofSsa ⟨.gpr, 2⟩, .ofSsa ⟨.gpr, 2⟩]),
      .new (.phiSrcs [(⟨0⟩, .ofSsa ⟨.gpr, 3⟩)]), repeatLoop]

/-- `break_if` with a condition in a register, of a loop that carries a variable. -/
def gprLatch : Function :=
  loopOf [.new (.undef (.ofSsa ⟨.gpr, 1⟩)), .new (.phiSrcs [(⟨0⟩, .ofSsa ⟨.gpr, 1⟩)])]
    [.new (.phiDsts [(⟨0⟩, .ofSsa ⟨.gpr, 2⟩)]), .new (.phiSrcs [(⟨0⟩, .ofSsa ⟨.gpr, 2⟩)]),
      .new (.other ⟨"ISetP", true⟩ [.ofSsa ⟨.pred, 3⟩] [.ofSsa ⟨.gpr, 2⟩]), breakIf ⟨.pred, 3⟩,
      repeatLoop]

theorem predLatch_strict : predLatch.StrictSsa :=
  ⟨by decide, Function.reachedByDef_of_entry (by decide) (by decide)⟩

theorem plainLatch_strict : plainLatch.StrictSsa :=
  ⟨by decide, Function.reachedByDef_of_blocks (by decide)⟩

theorem gprLatch_strict : gprLatch.StrictSsa :=
  ⟨by decide, Function.reachedByDef_of_blocks (by decide)⟩

/-- A layout of instructions that are neither phis nor branches. -/
def bodyLayout (plain : ∀ instr ∈ instrs, isPlain instr.op = true) : Layout instrs where
  body := instrs
  whole := by simp
  arePhiDsts := by simp
  arePlain := by simpa using plain
  arePhiSrcs := by simp
  areBranches := by simp
  onTime := fun _ => rfl

def branchLayout (branches : ∀ instr ∈ instrs, instr.isBranch = true) : Layout instrs where
  branches := instrs
  whole := by simp
  arePhiDsts := by simp
  arePlain := by simp
  arePhiSrcs := by simp
  areBranches := branches
  onTime := fun _ => rfl

def loopLayouts {entry latch : List Instr} (entryLayout : Layout entry)
    (latchLayout : Layout latch) : ∀ b, Layout ((loopOf entry latch).instrs b)
  | 0 => entryLayout
  | 1 => latchLayout
  | 2 => branchLayout (by simp [Function.instrs, loopOf, Instr.new, Instr.isBranch, Op.isBranch])
  | _ + 3 => bodyLayout (by simp [Function.instrs, loopOf])

def predLatchLayouts : ∀ b, Layout (predLatch.instrs b) :=
  loopLayouts (bodyLayout (by decide)) (branchLayout (by decide))

def plainLatchLayouts : ∀ b, Layout (plainLatch.instrs b) :=
  loopLayouts
    { body := (plainLatch.instrs 0).take 1
      phiSrcs := (plainLatch.instrs 0)[1]?
      whole := rfl, arePhiDsts := by simp, arePlain := by decide, arePhiSrcs := by decide
      areBranches := by simp, onTime := fun _ => rfl }
    { phiDsts := (plainLatch.instrs 1)[0]?
      body := ((plainLatch.instrs 1).drop 1).take 1
      phiSrcs := (plainLatch.instrs 1)[2]?
      branches := (plainLatch.instrs 1).drop 3
      whole := rfl, arePhiDsts := by decide, arePlain := by decide, arePhiSrcs := by decide
      areBranches := by decide, onTime := fun _ => rfl }

def gprLatchLayouts : ∀ b, Layout (gprLatch.instrs b) :=
  loopLayouts
    { body := (gprLatch.instrs 0).take 1
      phiSrcs := (gprLatch.instrs 0)[1]?
      whole := rfl, arePhiDsts := by simp, arePlain := by decide, arePhiSrcs := by decide
      areBranches := by simp, onTime := fun _ => rfl }
    { phiDsts := (gprLatch.instrs 1)[0]?
      phiSrcs := (gprLatch.instrs 1)[1]?
      late := ((gprLatch.instrs 1).drop 2).take 1
      branches := (gprLatch.instrs 1).drop 3
      whole := rfl, arePhiDsts := by decide, arePlain := by decide, arePhiSrcs := by decide
      areBranches := by decide, onTime := by decide }

/-- Ops that need no scoreboard have an estimate. -/
theorem estimated_of_blocks
    (fixed : ∀ bb ∈ f.blocks.blocks, ∀ instr ∈ bb.instrs, sm.opNeedsScoreboard instr.op = false) :
    ∀ b, Estimated sm (f.instrs b) := by
  intro b instr member _
  obtain ⟨bb, inBlocks, inside⟩ := Function.mem_instrs member
  refine ⟨0, ?_⟩
  unfold estimateVariableLatency
  rw [fixed bb inBlocks instr inside]
  rfl

theorem plainLatch_clean : ∀ b, CutsCleanly (plainLatch.instrs b) := by
  intro b
  refine (plainLatchLayouts b).cutsCleanly_iff.mpr ?_
  match b with
  | 0 | 1 | 2 => exact ⟨rfl, by decide⟩
  | _ + 3 => exact ⟨rfl, Nat.zero_le 1⟩

theorem keepsBlocks_iff_cutsCleanly_plainLatch : ∃ f',
    plainLatch.optInstrSchedPrepass shaderModel50 (fun _ => 254) (fun _ _ => [.spill]) = .ok f' ∧
      KeepsBlocks plainLatch f' :=
  (keepsBlocks_iff_cutsCleanly plainLatchLayouts plainLatch_strict
    (estimated_of_blocks (by decide)) (by simp)).mpr plainLatch_clean

/-- Of the branches of a latch the first is lost, and a latch with a late comparison panics. -/
theorem prepass_breaks_latches : predLatch.StrictSsa ∧ gprLatch.StrictSsa ∧
    (∃ f', predLatch.optInstrSchedPrepass shaderModel50 (fun _ => 254) (fun _ _ => [.spill]) = .ok f' ∧
      f'.instrs 1 = [repeatLoop] ∧ ¬ KeepsBlocks predLatch f') ∧
    ∀ f', gprLatch.optInstrSchedPrepass shaderModel50 (fun _ => 254) (fun _ _ => [.spill]) ≠ .ok f' := by
  refine ⟨predLatch_strict, gprLatch_strict, ?_, ?_⟩
  · obtain ⟨f', returned, -, -, outs⟩ := @optInstrSchedPrepass_ok shaderModel50 (fun _ => 254)
      (fun _ _ => [.spill]) predLatch predLatchLayouts
      (fun b => by match b with | 0 | 1 | 2 | _ + 3 => rfl) (estimated_of_blocks (by decide))
      (nodup_defs predLatch_strict) (by simp)
    obtain ⟨mid, isOut, reorders⟩ := outs 1
    have noMid : mid = [] := List.Perm.eq_nil reorders.perm
    have lost : f'.instrs 1 = [repeatLoop] := by
      rw [isOut, noMid]
      rfl
    refine ⟨f', returned, lost, ?_⟩
    intro keeps
    have length := (keeps.blocks 1).reorders.perm.length_eq
    rw [lost] at length
    cases length
  · intro f' returned
    have := late_of_returned gprLatchLayouts returned 1
    cases this

end CoralReef.Prepass
