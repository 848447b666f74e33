import CoralReef.Codegen.CalcInstrDeps.AssignBarriers
import CoralReef.Codegen.CalcInstrDeps.Proofs.Assign
import CoralReef.Codegen.OptInstrSched.Proofs.Postpass

/-!
# Hazards are covered

Within a block every access waits for what was signalled before it. A branch waits for everything.
What is left uncovered is control that falls from a block into the next one.
-/

namespace CoralReef

open List ListSchedule Postpass

/-- A hazard between the two is covered by the second instruction itself. -/
def DepInstr.CoveredBy (sm : ShaderModel) (a b : DepInstr) : Prop :=
  a.Ordinary → b.Ordinary → sm.opNeedsScoreboard a.op = true →
    (a.WriteHazard b.toInstr → a.deps.wrBar = some 0 ∧ b.deps.WaitsOn 0) ∧
    (a.ReadHazard b.toInstr → a.deps.rdBar = some 1 ∧ b.deps.WaitsOn 1)

theorem Op.target_eq_none {op : Op} (noBranch : op.isBranch = false) : op.target = none := by
  cases op <;> first | rfl | cases noBranch

theorem Instr.WriteHazard.dsts {a b : Instr} (hazard : a.WriteHazard b) : a.dsts ≠ [] := by
  obtain ⟨slot, written, -⟩ := hazard
  intro none
  rw [Instr.writes, none] at written
  cases written

theorem Instr.ReadHazard.reads {a : DepInstr} {b : Instr} (hazard : a.ReadHazard b) : a.Reads := by
  obtain ⟨slot, -, read | guard⟩ := hazard
  · right
    intro none
    rw [Instr.reads, none] at read
    cases read
  · left
    intro none
    rw [Instr.guards, none] at guard
    cases guard

theorem DepInstr.WaitedBy.covered {sm : ShaderModel} {a b : DepInstr} (waits : a.WaitedBy b)
    (signals : a.Signals) : a.CoveredBy sm b := by
  intro isA isB _
  refine ⟨?_, ?_⟩
  · intro hazard
    exact ⟨(signals isA).1 hazard.dsts, (waits isA isB).1 hazard.dsts⟩
  · intro hazard
    exact ⟨(signals isA).2 hazard.reads, (waits isA isB).2 hazard.reads⟩

/-- A block that is scheduled keeps its instructions, and hazards are covered within it. -/
theorem schedDeps_ok {sm : ShaderModel} {instrs : List DepInstr}
    (schedulable : Schedulable sm (instrs.map DepInstr.toInstr))
    (signals : ∀ instr ∈ instrs, instr.Signals) (pairs : instrs.Pairwise DepInstr.WaitedBy) :
    ∃ out, schedDeps sm instrs = .ok out ∧ (∀ instr ∈ out, instr ∈ instrs) ∧
      (WritersOrdered sm (instrs.map DepInstr.toInstr) → out.Pairwise (DepInstr.CoveredBy sm)) := by
  obtain ⟨order, cycles, ordered, perm, keeps⟩ := newOrder_keeps schedulable
  refine ⟨order.filterMap (instrs[·]?), ?_, ?_, ?_⟩
  · rw [schedDeps, ordered]
    rfl
  · intro instr member
    obtain ⟨i, -, here⟩ := mem_filterMap.mp member
    exact mem_of_getElem? here
  · intro guarded
    rw [pairwise_filterMap, pairwise_iff_forall_sublist]
    intro i j before a here b there isA isB needs
    have nodup : order.Nodup := perm.nodup_iff.mpr nodup_range
    have toInstr : ∀ {k : Nat} {instr : DepInstr}, instrs[k]? = some instr →
        (instrs.map DepInstr.toInstr)[k]? = some instr.toInstr := by
      intro k instr at_
      rw [List.getElem?_map, at_]
      rfl
    rcases Nat.lt_trichotomy i j with below | same | above
    · have waits : a.WaitedBy b := by
        obtain ⟨inside, rfl⟩ := List.getElem?_eq_some_iff.mp here
        obtain ⟨inside', rfl⟩ := List.getElem?_eq_some_iff.mp there
        exact pairwise_iff_getElem.mp pairs i j inside inside' below
      exact waits.covered (signals a (mem_of_getElem? here)) isA isB needs
    · subst same
      have := before.nodup nodup
      simp at this
    · -- the two have changed places, so they are not linked
      have apart : ¬ Relation.TransGen (At Instr.Linked (instrs.map DepInstr.toInstr)) j i := by
        intro chain
        exact precedes_asymm nodup (keeps j i chain) before
      have unlinked : ¬ b.Linked a.toInstr := by
        intro linked
        exact apart (.single ⟨above, _, _, toInstr there, toInstr here, linked⟩)
      have unguarded : ¬ b.GuardConflict a.toInstr := by
        intro guard
        exact apart (guarded j i ⟨above, _, _, toInstr there, toInstr here, guard, needs⟩)
      refine ⟨?_, ?_⟩
      · rintro ⟨slot, written, writes | reads | guards⟩
        · exact absurd (.inl ⟨slot, writes, .inl written⟩) unlinked
        · exact absurd (.inr (.inl ⟨slot, written, reads⟩)) unlinked
        · exact absurd ⟨slot, written, guards⟩ unguarded
      · rintro ⟨slot, written, reads⟩
        exact absurd (.inl ⟨slot, written, .inr reads⟩) unlinked

/-- What the passes leave in a block. -/
structure Scheduled (sm : ShaderModel) (source block : DepBlock) : Prop where
  signals : ∀ instr ∈ block.instrs, instr.Signals ∧ instr.Drains
  covered : WritersOrdered sm (source.instrs.map DepInstr.toInstr) →
    block.instrs.Pairwise (DepInstr.CoveredBy sm)

/-- The passes return. -/
theorem assignAndSchedule_ok {sm : ShaderModel} {blocks : List DepBlock}
    (schedulable : ∀ block ∈ removeAnnotations blocks,
      Schedulable sm (block.instrs.map DepInstr.toInstr)) :
    ∃ out, assignAndSchedule sm blocks = .ok out ∧ ∀ (i : Nat) block, out[i]? = some block →
      ∃ source, (removeAnnotations blocks)[i]? = some source ∧ Scheduled sm source block := by
  obtain ⟨assigned, assigns, eachAssigned⟩ := @mapM_ok_at _ _
    (fun block : DepBlock => do return { block with instrs := ← assignInstrs 0 block.instrs })
    (fun block out => out.instrs.map DepInstr.toInstr = block.instrs.map DepInstr.toInstr ∧
      (∀ instr ∈ out.instrs, instr.Signals ∧ instr.Drains) ∧
      out.instrs.Pairwise DepInstr.WaitedBy) blocks (by
    intro block _
    obtain ⟨out, runs, same, each, pairs, -⟩ := @assignInstrs_ok block.instrs 0 (by omega)
    refine ⟨{ block with instrs := out }, ?_, same, each, pairs⟩
    rw [runs]
    rfl)
  have at_source : ∀ (i : Nat) block, (removeAnnotations assigned)[i]? = some block →
      ∃ source, (removeAnnotations blocks)[i]? = some source ∧
        block.instrs.map DepInstr.toInstr = source.instrs.map DepInstr.toInstr ∧
        (∀ instr ∈ block.instrs, instr.Signals ∧ instr.Drains) ∧
        block.instrs.Pairwise DepInstr.WaitedBy := by
    intro i block here
    rw [removeAnnotations, List.getElem?_map, Option.map_eq_some_iff] at here
    obtain ⟨whole, isWhole, rfl⟩ := here
    obtain ⟨source, isSource, same, each, pairs⟩ := eachAssigned i whole isWhole
    refine ⟨_, by rw [removeAnnotations, List.getElem?_map, isSource]; rfl, ?_, ?_,
      pairs.filter _⟩
    · have filtered : ∀ instrs : List DepInstr,
          (instrs.filter fun instr => !instr.op.isAnnotate).map DepInstr.toInstr =
            (instrs.map DepInstr.toInstr).filter fun instr => !instr.op.isAnnotate := by
        intro instrs
        rw [filter_map]
        rfl
      rw [filtered, filtered, same]
    · exact fun instr member => each instr (mem_of_mem_filter member)
  obtain ⟨out, schedules, eachScheduled⟩ := @mapM_ok_at _ _
    (fun block : DepBlock => do return { block with instrs := ← schedDeps sm block.instrs })
    (fun block out => ∀ source : DepBlock,
      block.instrs.map DepInstr.toInstr = source.instrs.map DepInstr.toInstr →
        Scheduled sm source out) (removeAnnotations assigned) (by
    intro block member
    obtain ⟨i, here⟩ := mem_iff_getElem?.mp member
    obtain ⟨source, isSource, same, each, pairs⟩ := at_source i block here
    have schedulable := schedulable source (mem_of_getElem? isSource)
    rw [← same] at schedulable
    obtain ⟨out, runs, inBlock, covered⟩ :=
      schedDeps_ok schedulable (fun instr member => (each instr member).1) pairs
    refine ⟨{ block with instrs := out }, ?_, ?_⟩
    · rw [runs]
      rfl
    · intro source same
      exact ⟨fun instr member => each instr (inBlock instr member), same ▸ covered⟩)
  refine ⟨out, ?_, ?_⟩
  · rw [assignAndSchedule, assignDepsSerial, assigns, ok_bind]
    exact schedules
  · intro i block here
    obtain ⟨middle, isMiddle, scheduled⟩ := eachScheduled i block here
    obtain ⟨source, isSource, same, -, -⟩ := at_source i middle isMiddle
    exact ⟨source, isSource, scheduled source same⟩

section Run

variable {sm : ShaderModel} {source blocks : List DepBlock} {run : List Point}

theorem Run.flow (isRun : Run blocks run) {i : Nat} {p q : Point} (here : run[i]? = some p)
    (there : run[i + 1]? = some q) : Flow blocks p q := by
  obtain ⟨inside, rfl⟩ := List.getElem?_eq_some_iff.mp here
  obtain ⟨inside', rfl⟩ := List.getElem?_eq_some_iff.mp there
  exact isChain_iff_getElem.mp isRun.flows i inside'

/-- Control stays in the block after an instruction that is no branch and not the last one. -/
theorem Flow.consecutive {p q : Point} (flow : Flow blocks p q)
    (noBranch : ∀ instr, instrAt blocks p = some instr → instr.isBranch = false)
    (stays : instrAt blocks ⟨p.block, p.ip + 1⟩ ≠ none) : q = ⟨p.block, p.ip + 1⟩ := by
  cases flow with
  | next => rfl
  | branch here isTarget =>
    rw [Op.target_eq_none (noBranch _ here)] at isTarget
    cases isTarget
  | fall _ _ last => exact absurd last stays

/-- While no branch is executed and control does not fall out of the block, a run goes through
consecutive instructions. -/
theorem Run.consecutive (isRun : Run blocks run) {i : Nat} {p : Point} (here : run[i]? = some p)
    (noBranch : ∀ instr, instrAt blocks p = some instr → instr.isBranch = false) : ∀ (n : Nat)
      {q : Point}, run[i + n]? = some q → ¬ BranchSince blocks run i (i + n) →
      (∀ m r, m < n → run[i + m]? = some r → instrAt blocks ⟨r.block, r.ip + 1⟩ ≠ none) →
      q = ⟨p.block, p.ip + n⟩ := by
  intro n
  induction n with
  | zero =>
    intro q there _ _
    rw [Nat.add_zero, here] at there
    cases there
    rfl
  | succ n ih =>
    intro q there straight stays
    have inside : i + n + 1 < run.length := (List.getElem?_eq_some_iff.mp there).1
    have before : ∃ r, run[i + n]? = some r := ⟨_, List.getElem?_eq_getElem (by omega)⟩
    obtain ⟨r, before⟩ := before
    have straight' : ¬ BranchSince blocks run i (i + n) := by
      rintro ⟨k, r, c, above, upTo, facts⟩
      exact straight ⟨k, r, c, above, by omega, facts⟩
    have same := ih before straight' fun m r less => stays m r (by omega)
    have passes : ∀ c, instrAt blocks r = some c → c.isBranch = false := by
      intro c isC
      rcases Nat.eq_zero_or_pos n with rfl | positive
      · rw [same] at isC
        exact noBranch c isC
      · by_contra isBranch
        exact straight ⟨i + n, r, c, by omega, by omega, before, isC, by simpa using isBranch⟩
    have next := (isRun.flow before there).consecutive passes (stays n r (Nat.lt_succ_self n) before)
    rw [next, same]
    rfl

end Run

/-- On every run that avoids the gaps, hazards are covered. -/
theorem assignAndSchedule_covers {sm : ShaderModel} {blocks : List DepBlock}
    (schedulable : ∀ block ∈ removeAnnotations blocks,
      Schedulable sm (block.instrs.map DepInstr.toInstr))
    (noScoreboard : ∀ op, op.isBranch = true → sm.opNeedsScoreboard op = false) :
    ∃ out, assignAndSchedule sm blocks = .ok out ∧
      ∀ run, Run out run → AvoidsGaps sm blocks out run → Covered sm out run := by
  obtain ⟨out, returns, scheduled⟩ := assignAndSchedule_ok schedulable
  refine ⟨out, returns, ?_⟩
  intro run isRun avoids i j p q a b before atI atJ isA isB needs
  obtain ⟨block, isBlock, inBlock⟩ := Option.bind_eq_some_iff.mp isA
  obtain ⟨source, isSource, facts⟩ := scheduled p.block block isBlock
  have signals := (facts.signals a (List.mem_of_getElem? inBlock)).1
  have noBranch : a.isBranch = false := by
    by_contra isBranch
    rw [Bool.not_eq_false, Instr.isBranch] at isBranch
    rw [noScoreboard a.op isBranch] at needs
    cases needs
  have drained : BranchSince out run i j → ∀ bar < 6, WaitedOn out run i j bar := by
    rintro ⟨k, r, c, above, upTo, atK, isC, isBranch⟩ bar below
    obtain ⟨other, isOther, inOther⟩ := Option.bind_eq_some_iff.mp isC
    obtain ⟨origin, -, others⟩ := scheduled r.block other isOther
    have drains := (others.signals c (List.mem_of_getElem? inOther)).2
    exact ⟨k, r, c, above, upTo, atK, isC, drains isBranch bar below⟩
  have direct : ¬ BranchSince out run i j → a.CoveredBy sm b := by
    intro straight
    have isJ : i + (j - i) = j := by omega
    have isQ : q = ⟨p.block, p.ip + (j - i)⟩ := by
      apply isRun.consecutive atI (fun c isC => ?_) (j - i) (by rw [isJ]; exact atJ)
        (by rw [isJ]; exact straight)
      · intro m r less atM last
        have inside : i + m + 1 < run.length := by
          have := (List.getElem?_eq_some_iff.mp atJ).1
          omega
        obtain ⟨k, r', c, above, upTo, facts⟩ :=
          avoids.falls i (i + m) p r a (by omega) inside atI atM isA needs last
        exact straight ⟨k, r', c, above, by omega, facts⟩
      · rw [isA] at isC
        cases isC
        exact noBranch
    rw [isQ, instrAt, isBlock, Option.bind_some] at isB
    have ordered := avoids.guards p (List.mem_of_getElem? atI) source isSource
    obtain ⟨inside, rfl⟩ := List.getElem?_eq_some_iff.mp inBlock
    obtain ⟨inside', rfl⟩ := List.getElem?_eq_some_iff.mp isB
    exact List.pairwise_iff_getElem.mp (facts.covered ordered) _ _ inside inside'
      (Nat.lt_add_of_pos_right (by omega))
  have ordinary : a.WriteHazard b.toInstr ∨ a.ReadHazard b.toInstr →
      a.Ordinary ∧ (b.Ordinary ∨ BranchSince out run i j) := by
    intro hazard
    refine ⟨⟨?_, noBranch⟩, ?_⟩
    · by_contra isYield
      obtain ⟨writes, reads, guards⟩ :=
        avoids.yields p (List.mem_of_getElem? atI) a isA (by simpa using isYield)
      rcases hazard with ⟨slot, written, -⟩ | ⟨slot, -, read⟩
      · rw [writes] at written
        cases written
      · rw [reads, guards] at read
        rcases read with never | never <;> cases never
    · by_cases isBranch : b.isBranch = true
      · exact .inr ⟨j, q, b, before, Nat.le_refl j, atJ, isB, isBranch⟩
      · refine .inl ⟨?_, by simpa using isBranch⟩
        by_contra isYield
        obtain ⟨writes, reads, guards⟩ :=
          avoids.yields q (List.mem_of_getElem? atJ) b isB (by simpa using isYield)
        rcases hazard with ⟨slot, -, access⟩ | ⟨slot, written, -⟩
        · rw [writes, reads, guards] at access
          rcases access with never | never | never <;> cases never
        · rw [writes] at written
          cases written
  refine ⟨?_, ?_⟩
  · intro hazard
    obtain ⟨isOrdinary, late⟩ := ordinary (.inl hazard)
    refine ⟨0, (signals isOrdinary).1 hazard.dsts, ?_⟩
    by_cases since : BranchSince out run i j
    · exact drained since 0 (by omega)
    · have covered := direct since isOrdinary (late.resolve_right since) needs
      exact ⟨j, q, b, before, Nat.le_refl j, atJ, isB, (covered.1 hazard).2⟩
  · intro hazard
    obtain ⟨isOrdinary, late⟩ := ordinary (.inr hazard)
    refine ⟨1, .inl ((signals isOrdinary).2 hazard.reads), ?_⟩
    by_cases since : BranchSince out run i j
    · exact drained since 1 (by omega)
    · have covered := direct since isOrdinary (late.resolve_right since) needs
      exact ⟨j, q, b, before, Nat.le_refl j, atJ, isB, (covered.2 hazard).2⟩

/-- `ld r0 [r2]` -/
def loadInstr : DepInstr :=
  { toInstr := .new (.other ⟨"Ld", true⟩ [.reg (oneReg .gpr 0)] [.ofReg (oneReg .gpr 2)]) }

/-- `iadd2 r1 r0 r0` -/
def addInstr : DepInstr :=
  { toInstr := .new (.other ⟨"IAdd2", true⟩ [.reg (oneReg .gpr 1)]
      [.ofReg (oneReg .gpr 0), .ofReg (oneReg .gpr 0)]) }

def exitInstr : DepInstr := { toInstr := .new .exit }

/-- `bra L0` -/
def backInstr : DepInstr := { toInstr := .new (.bra ⟨0⟩ { reference := .boolTrue }) }

/-- A loop of one block that adds up what it has loaded the last time. -/
def loadLoop : List DepBlock := [{ label := ⟨0⟩, instrs := [addInstr, loadInstr, backInstr] }]

/-- The block with the load falls into the block with the use. -/
def loadFalls : List DepBlock :=
  [{ label := ⟨0⟩, instrs := [loadInstr] }, { label := ⟨1⟩, instrs := [addInstr, exitInstr] }]

/-- The load and the addition signal both barriers. -/
def signalling (instr : DepInstr) (wtBarMask : Nat) : DepInstr :=
  { instr with deps := { wrBar := some 0, rdBar := some 1, wtBarMask } }

/-- A branch waits on all barriers. -/
def draining (instr : DepInstr) : DepInstr := { instr with deps := { wtBarMask := 0x3f } }

/-- The addition waits on nothing, the load on what the addition signals, and the branch on both. -/
def loadLoopOut : List DepBlock := [{ label := ⟨0⟩, instrs :=
  [signalling addInstr 0, signalling loadInstr 3, draining backInstr] }]

/-- Once around the loop and up to the load. -/
def loadLoopRun : List Point := [⟨0, 0⟩, ⟨0, 1⟩, ⟨0, 2⟩, ⟨0, 0⟩, ⟨0, 1⟩]

theorem noScoreboard_branch (op : Op) (isBranch : op.isBranch = true) :
    shaderModel50.opNeedsScoreboard op = false := by
  cases op <;> first | rfl | cases isBranch

theorem load_schedulable {instrs : List DepInstr}
    (known : ∀ instr ∈ instrs, instr = loadInstr ∨ instr = addInstr ∨ instr = exitInstr ∨
      instr = backInstr) :
    Schedulable shaderModel50 (instrs.map DepInstr.toInstr) := by
  have inFiles : ∀ instr ∈ [loadInstr, addInstr, exitInstr, backInstr],
      instr.toInstr.InFiles := by
    simp [loadInstr, addInstr, exitInstr, backInstr, Instr.InFiles, Instr.new, Instr.dsts, Instr.srcs, Op.dsts,
      Op.srcs, Dst.asReg, Src.ofReg, SrcRef.getReg, RegRef.InFile, oneReg]
    decide
  constructor
  · intro instr member
    obtain ⟨source, inBlock, rfl⟩ := mem_map.mp member
    apply inFiles
    simpa using known source inBlock
  · intro instr member
    obtain ⟨source, inBlock, rfl⟩ := mem_map.mp member
    rcases known source inBlock with rfl | rfl | rfl | rfl
    · exact ⟨32, rfl⟩
    · exact ⟨0, rfl⟩
    · exact ⟨0, rfl⟩
    · exact ⟨0, rfl⟩

theorem loadLoop_run : Run loadLoopOut loadLoopRun := by
  constructor
  · intro p first
    cases first
    exact .here rfl
  · exact .cons_cons (.next rfl rfl rfl) (.cons_cons (.next rfl rfl rfl)
      (.cons_cons (.branch rfl rfl rfl rfl (.here rfl))
        (.cons_cons (.next rfl rfl rfl) (.singleton _))))

theorem loadLoop_avoids : AvoidsGaps shaderModel50 loadLoop loadLoopOut loadLoopRun := by
  have points : ∀ p ∈ loadLoopRun, p = ⟨0, 0⟩ ∨ p = ⟨0, 1⟩ ∨ p = ⟨0, 2⟩ := by decide
  constructor
  · intro i j p q a upTo inside atI atJ isA needs last
    have isLast : q = ⟨0, 2⟩ := by
      rcases points q (List.mem_of_getElem? atJ) with rfl | rfl | rfl
      · cases last
      · cases last
      · rfl
    subst isLast
    have earlier : i ≠ j := by
      rintro rfl
      cases atI.symm.trans atJ
      cases isA
      cases needs
    exact ⟨j, ⟨0, 2⟩, draining backInstr, by omega, Nat.le_refl j, atJ, rfl, rfl⟩
  · intro p member instr isInstr isYield
    rcases points p member with rfl | rfl | rfl <;> cases isInstr <;> cases isYield
  · intro p member block isBlock i j guarded
    have unguarded : ∀ block ∈ removeAnnotations loadLoop,
        ∀ instr ∈ block.instrs.map DepInstr.toInstr, instr.guards = [] := by decide
    obtain ⟨-, a, b, here, there, ⟨slot, written, guard⟩, -⟩ := guarded
    rw [unguarded block (List.mem_of_getElem? isBlock) a (List.mem_of_getElem? here)] at guard
    cases guard

/-- The loop is covered when its branch has been taken. -/
theorem assignAndSchedule_covers_loadLoop :
    assignAndSchedule shaderModel50 loadLoop = .ok loadLoopOut ∧ Run loadLoopOut loadLoopRun ∧
      AvoidsGaps shaderModel50 loadLoop loadLoopOut loadLoopRun ∧
      Covered shaderModel50 loadLoopOut loadLoopRun := by
  have schedulable : ∀ block ∈ removeAnnotations loadLoop,
      Schedulable shaderModel50 (block.instrs.map DepInstr.toInstr) := by
    intro block member
    cases List.mem_singleton.mp member
    apply load_schedulable
    decide
  obtain ⟨out, returns, covers⟩ := assignAndSchedule_covers schedulable noScoreboard_branch
  have isOut : assignAndSchedule shaderModel50 loadLoop = .ok loadLoopOut := by rfl
  rw [isOut] at returns
  cases returns
  exact ⟨isOut, loadLoop_run, loadLoop_avoids, covers _ loadLoop_run loadLoop_avoids⟩

/-- The addition reads what the load still has to write, and nobody waits. -/
theorem fall_uncovered :
    (∀ block ∈ removeAnnotations loadFalls,
      Schedulable shaderModel50 (block.instrs.map DepInstr.toInstr)) ∧
    ∃ out run, assignAndSchedule shaderModel50 loadFalls = .ok out ∧ Run out run ∧
      ¬ Covered shaderModel50 out run := by
  refine ⟨?_, [{ label := ⟨0⟩, instrs := [signalling loadInstr 0] },
    { label := ⟨1⟩, instrs := [signalling addInstr 0, draining exitInstr] }], [⟨0, 0⟩, ⟨1, 0⟩], by rfl, ?_, ?_⟩
  · intro block member
    apply load_schedulable
    revert block
    decide
  · constructor
    · intro p first
      cases first
      exact .here rfl
    · exact .cons_cons (.fall rfl rfl rfl (.here rfl)) (.singleton _)
  · intro covered
    have hazard : (signalling loadInstr 0).WriteHazard (signalling addInstr 0).toInstr :=
      ⟨(.gpr, 0), by decide, .inr (.inl (by decide))⟩
    obtain ⟨bar, isBar, k, p, instr, above, upTo, atK, isInstr, waits⟩ :=
      (covered 0 1 ⟨0, 0⟩ ⟨1, 0⟩ _ _ Nat.zero_lt_one rfl rfl rfl rfl rfl).1 hazard
    have isOne : k = 1 := by omega
    subst isOne
    cases atK
    cases isInstr
    cases isBar
    revert waits
    decide

end CoralReef
