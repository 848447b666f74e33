import CoralReef.Codegen.OptInstrSched.Prepass
import CoralReef.Codegen.OptInstrSched.Prepass.Proofs.Graph
import CoralReef.Codegen.OptInstrSched.Proofs.Schedule

/-!
# The order picked for a unit

Whatever the scores say, an instruction is picked from one of the two queues. So if the search does
not give up, it ends with every instruction behind everything that its edges lead to.
-/

open List

namespace CoralReef.Prepass

open ListSchedule

variable {n : Nat} {heads : Nat → List Nat} {maxRegCount : RegCounts}
  {thresholds : ScheduleThresholds} {g : DepGraph} {instrs : List Instr}

/-- The instructions that wait in the two queues. -/
def OrderState.waiting (state : OrderState) : List Nat :=
  state.future.map FutureReadyInstr.index ++ state.ready.map ReadyInstr.index

/-- What holds between two rounds of the loop. -/
def Running (n : Nat) (heads : Nat → List Nat) (state : OrderState) : Prop :=
  Frontier n heads state.instrOrder state.waiting state.useCount

/-- Counting down the use along an edge of an instruction. -/
theorem releaseEdge_ok (state : OrderState) (e : Edge) (positive : 0 < state.useCount e.headIdx) :
    ∃ state', releaseEdge g state e = .ok state' ∧
      (state'.useCount, state'.waiting) = release (state.useCount, state.waiting) e.headIdx ∧
      state'.instrOrder = state.instrOrder := by
  let useCount := Function.update state.useCount e.headIdx (state.useCount e.headIdx - 1)
  let next : OrderState := { state with
    useCount
    future := if useCount e.headIdx = 0 then
        FutureReadyInstr.new g.label e.headIdx :: state.future
      else state.future }
  have waits : next.waiting = if state.useCount e.headIdx - 1 = 0 then
      e.headIdx :: state.waiting else state.waiting := by
    have isCount : useCount e.headIdx = state.useCount e.headIdx - 1 := Function.update_self ..
    by_cases zero : state.useCount e.headIdx - 1 = 0
    · have pushed : next.future = FutureReadyInstr.new g.label e.headIdx :: state.future :=
        if_pos (isCount.trans zero)
      rw [OrderState.waiting, pushed, if_pos zero]
      rfl
    · have same : next.future = state.future := if_neg (isCount ▸ zero)
      rw [OrderState.waiting, same, if_neg zero]
      rfl
  refine ⟨next, ?_, ?_, rfl⟩
  · rw [releaseEdge, decide_eq_true positive, assertThat_true, ok_bind]
    rfl
  · rw [waits]
    rfl

/-- The instruction picked comes out of one of the queues. -/
theorem pickNext_ok {state : OrderState} (some : state.ready ≠ [])
    (notYet : ∀ fri ∈ state.future, state.currentCycle < fri.readyCycle) :
    ∃ next state', pickNext maxRegCount thresholds state = .ok (next, state') ∧
      (next :: state'.waiting).Perm state.waiting ∧ state'.useCount = state.useCount ∧
      state'.instrOrder = state.instrOrder := by
  unfold pickNext
  split
  next =>
    cases popped : popMax ReadyInstr.lt state.ready with
    | none => exact absurd (popMax_eq_none.mp popped) some
    | some entry =>
      obtain ⟨next, ready⟩ := entry
      refine ⟨next.index, { state with ready }, rfl, ?_, rfl, rfl⟩
      exact perm_middle.symm.trans (((popMax_perm popped).map ReadyInstr.index).append_left _)
  next =>
    cases popped : popMax (scoredLt ReadyInstr.lt) (state.ready.map fun r =>
        (state.newScore maxRegCount thresholds r.index 0, r)) with
    | none => exact absurd (map_eq_nil_iff.mp (popMax_eq_none.mp popped)) some
    | some entry =>
      obtain ⟨⟨newScore, next⟩, others⟩ := entry
      rw [expect_some, ok_bind]
      dsimp only
      split
      next better =>
        rename_i s fri rest
        have inBetter := (popMax_perm better).subset mem_cons_self
        obtain ⟨fri', inFuture, same⟩ := mem_filterMap.mp inBetter
        split at same
        · cases same
          rw [decide_eq_true (notYet fri inFuture), assertThat_true, ok_bind]
          refine ⟨fri.index, _, rfl, ?_, rfl, rfl⟩
          have perm := (perm_cons_erase inFuture).symm.map FutureReadyInstr.index
          exact perm.append_right _
        · cases same
      next =>
        refine ⟨next.index, _, rfl, ?_, rfl, rfl⟩
        have perm := (popMax_perm popped).map Prod.snd
        rw [map_map] at perm
        have same : state.ready.map (Prod.snd ∘ fun r =>
            (state.newScore maxRegCount thresholds r.index 0, r)) = state.ready := by
          simp [Function.comp_def]
        rw [same] at perm
        exact perm_middle.symm.trans ((perm.map ReadyInstr.index).append_left _)

/-- Scheduling the instruction that was picked. -/
theorem Running.schedule {before state : OrderState} (forward : Forward n heads) {t : Nat}
    (running : Running n heads before) (picked : (t :: state.waiting).Perm before.waiting)
    (sameCount : state.useCount = before.useCount) (sameOrder : state.instrOrder = before.instrOrder)
    (edges : ∀ u, (g.heads t).count u = (heads u).count t) (inside : n = instrs.length) :
    ∃ state', scheduleInstr g instrs state t = .ok state' ∧ Running n heads state' ∧
      state'.instrOrder = before.instrOrder ++ [t] := by
  have inRange := ((running.waits t).mp (picked.subset mem_cons_self)).1
  obtain ⟨enough, placed⟩ := Frontier.schedule running forward picked edges
  rw [← sameCount] at enough placed
  obtain ⟨released, runs, isRelease, order⟩ :=
    foldlM_release Edge.headIdx (fun s : OrderState => (s.useCount, s.waiting)) OrderState.instrOrder
      (@releaseEdge_ok g) (g.outgoingEdges t) state enough
  have here : instrs[t]? = some instrs[t] := List.getElem?_eq_getElem (inside ▸ inRange)
  refine ⟨{ released.updateLive instrs[t] with
    instrOrder := released.instrOrder ++ [t], currentCycle := released.currentCycle + 1 },
    ?_, ?_, ?_⟩
  · rw [scheduleInstr, runs, ok_bind, here, expect_some, ok_bind]
    rfl
  · show Frontier n heads (released.instrOrder ++ [t]) released.waiting released.useCount
    rw [DepGraph.heads, ← isRelease] at placed
    rw [order, sameOrder]
    exact placed
  · show released.instrOrder ++ [t] = _
    rw [order, sameOrder]

/-- Moving instructions from one queue to the other. -/
theorem Running.move {state : OrderState} (running : Running n heads state)
    {moved left : List FutureReadyInstr} (perm : (moved ++ left).Perm state.future)
    (label : Nat → NodeLabel) : Running n heads { state with
      ready := moved.map (fun fri => ReadyInstr.new label fri.index) ++ state.ready
      future := left } :=
  Frontier.perm running (waiting_move perm label)

/-- The loop gives up, or ends with all instructions in order. -/
theorem orderLoop_ok (forward : Forward n heads)
    (edges : ∀ t u, (g.heads t).count u = (heads u).count t) (inside : n = instrs.length) :
    ∀ (fuel : Nat) (state : OrderState), Running n heads state →
      2 * n + 2 ≤ fuel + 2 * state.instrOrder.length +
        (if state.ready = [] ∧ ∀ fri ∈ state.future, state.currentCycle < fri.readyCycle then 0 else 1) →
      ∃ result, orderLoop maxRegCount thresholds g instrs fuel state = .ok result ∧
        ∀ order, result = some order → order.Perm (List.range n) ∧ BottomUp heads order := by
  intro fuel
  induction fuel with
  | zero =>
    intro state running enough
    have placed := Frontier.length_le running
    split at enough <;> omega
  | succ fuel ih =>
    intro state running enough
    obtain ⟨moved, left, result, perm, -, notYet⟩ :=
      @moveReady_spec g.label state.currentCycle state.future.length state.ready state.future
        (Nat.le_refl _)
    have running₁ := running.move perm g.label
    rw [orderLoop, result]
    dsimp only
    split
    next empty =>
      rw [List.isEmpty_iff] at empty
      rw [empty] at running₁
      obtain ⟨noneMoved, noneReady⟩ := append_eq_nil_iff.mp empty
      cases first : popMax FutureReadyInstr.lt left with
      | none =>
        rw [popMax_eq_none] at first
        rw [first] at running₁
        refine ⟨some state.instrOrder, rfl, ?_⟩
        intro order same
        cases same
        exact ⟨running₁.all_placed forward, running₁.sorted⟩
      | some entry =>
        obtain ⟨fri, others⟩ := entry
        have inLeft : fri ∈ left := (popMax_perm first).subset mem_cons_self
        dsimp only
        rw [decide_eq_true (notYet fri inLeft), assertThat_true, ok_bind, empty]
        have running₂ : Running n heads { state with
          ready := [], future := left, currentCycle := fri.readyCycle } := running₁
        rw [map_eq_nil_iff] at noneMoved
        subst noneMoved
        exact ih _ running₂ (enough_forward noneReady
          (fun other member => notYet other (perm.symm.subset member)) inLeft enough)
    next some =>
      rw [List.isEmpty_iff] at some
      obtain ⟨next, state', picked, perm', sameCount, sameOrder⟩ :=
        @pickNext_ok maxRegCount thresholds { state with
          ready := moved.map (fun fri => ReadyInstr.new g.label fri.index) ++ state.ready
          future := left } some notYet
      rw [picked, ok_bind]
      dsimp only
      split
      next => exact ⟨none, rfl, fun order never => by cases never⟩
      next =>
        obtain ⟨state'', scheduled, running', order⟩ := running₁.schedule forward perm'
          sameCount sameOrder (edges next) inside
        rw [scheduled, ok_bind]
        apply ih state'' running'
        have length : state''.instrOrder.length = state.instrOrder.length + 1 := by
          rw [order, length_append]
          rfl
        rw [length]
        split at enough <;> split <;> omega

/-!
## Scheduling a unit

The graph, its statistics and the order together: a unit is scheduled or given up, and what is
scheduled keeps linked instructions in order.
-/

variable {sm : ShaderModel} {maxRegCount : RegCounts} {instrs : List Instr}

/-- An order of all instructions that keeps those that are linked. -/
def Keeps (instrs : List Instr) (order : List Nat) : Prop :=
  order.Perm (List.range instrs.length) ∧ ∀ i j, At Linked instrs i j → [i, j].Sublist order

theorem Keeps.reorders {order : List Nat} (keeps : Keeps instrs order) :
    Reorders Linked instrs (order.filterMap (instrs[·]?)) := by
  refine ⟨order, keeps.1, rfl, ?_⟩
  intro i j a b less here there linked
  exact keeps.2 i j ⟨less, a, b, here, there, linked⟩

/-- The order returned has every instruction behind everything that its edges lead to. -/
theorem generateOrder_ok {n : Nat} {heads : Nat → List Nat} {thresholds : ScheduleThresholds}
    {g : DepGraph} {liveOut : LiveSet} (forward : Forward n heads) {init : List Nat}
    (len : g.len = n) (inside : n = instrs.length)
    (counts : ∀ i, i < n → (g.label i).useCount = (heads i).length)
    (edges : ∀ t u, (g.heads t).count u = (heads u).count t) (nodup : init.Nodup)
    (ready : ∀ i, i ∈ init ↔ i < n ∧ heads i = []) :
    ∃ result, generateOrder maxRegCount instrs liveOut g init thresholds = .ok result ∧
      ∀ order, result = some order → order.Perm (List.range n) ∧ BottomUp heads order := by
  have waits : (init.map (ReadyInstr.new g.label)).map ReadyInstr.index = init := by
    rw [map_map]
    simp [Function.comp_def, ReadyInstr.new]
  have running : Running n heads {
      netLive := .new instrs liveOut
      live := liveOut
      useCount := fun i => (g.label i).useCount
      ready := init.map (ReadyInstr.new g.label) } := by
    show Frontier n heads [] ((init.map (ReadyInstr.new g.label)).map ReadyInstr.index) _
    rw [waits]
    exact .start nodup counts ready
  rw [generateOrder, len]
  apply orderLoop_ok forward edges inside _ _ running
  simp

theorem schedBuffer_ok (estimated : Estimated sm instrs)
    (unique : (instrs.flatMap Instr.ssaDefs).Nodup) (liveOut : LiveSet)
    (thresholds : ScheduleThresholds) :
    ∃ result, ScheduleUnit.schedBuffer sm maxRegCount instrs liveOut thresholds = .ok result ∧
      ∀ order, result = some order → Keeps instrs order := by
  obtain ⟨g, built, len, -, sound, complete⟩ := generateDepGraph_ok estimated unique
  have forward : Forward g.len g.heads := by
    intro t h isHead
    have linked := sound t h isHead
    exact ⟨linked.1, len ▸ linked.lt⟩
  have outside : ∀ i, g.len ≤ i → g.heads i = [] := by
    intro i above
    apply eq_nil_iff_forall_not_mem.mpr
    intro h isHead
    have := forward i h isHead
    omega
  obtain ⟨stats, counted, facts⟩ := DepGraph.calcStatistics_ok forward
  obtain ⟨result, runs, sorted⟩ := @generateOrder_ok maxRegCount instrs g.len g.heads thresholds
    stats.1.reverse liveOut forward stats.2 facts.len len
    (fun i inside => facts.counts i (Nat.zero_le i) inside) (facts.reversed outside) facts.nodup
    (fun i => by rw [facts.ready]; simp)
  refine ⟨result.map List.reverse, ?_, ?_⟩
  · rw [ScheduleUnit.schedBuffer, built, ok_bind, counted, ok_bind]
    show (generateOrder maxRegCount instrs liveOut stats.1.reverse stats.2 thresholds >>= _) = _
    rw [runs]
    rfl
  · intro order isOrder
    obtain ⟨placed, same, rfl⟩ := Option.map_eq_some_iff.mp isOrder
    obtain ⟨perm, bottomUp⟩ := sorted placed same
    refine ⟨(reverse_perm _).trans (len ▸ perm), ?_⟩
    intro i j linked
    apply bottomUp.precedes _ (complete i j linked)
    rw [perm.mem_iff, mem_range, len]
    exact Nat.lt_trans linked.1 linked.lt

namespace ScheduleUnit

variable {unit : ScheduleUnit}

/-- What scheduling leaves as it is, and the order it may enter. -/
structure Scheduled (before after : ScheduleUnit) : Prop where
  liveOut : after.liveOut = before.liveOut
  instrs : after.instrs = before.instrs
  phiDsts : after.phiDsts = before.phiDsts
  phiSrcs : after.phiSrcs = before.phiSrcs
  branch : after.branch = before.branch
  newOrder : ∀ order, after.newOrder = some order → Keeps before.instrs order

theorem schedule_ok (estimated : Estimated sm unit.instrs)
    (unique : (unit.instrs.flatMap Instr.ssaDefs).Nodup) (closed : unit.liveOut.isSome)
    (kept : ∀ order, unit.newOrder = some order → Keeps unit.instrs order)
    (scheduleType : ScheduleType) :
    ∃ unit', unit.schedule sm maxRegCount scheduleType = .ok unit' ∧ Scheduled unit unit' := by
  obtain ⟨liveOut, isLive⟩ := Option.isSome_iff_exists.mp closed
  obtain ⟨result, runs, keeps⟩ := @schedBuffer_ok sm maxRegCount unit.instrs estimated unique liveOut
    (scheduleType.thresholds maxRegCount unit)
  refine ⟨{ unit with
    lastTriedScheduleType := some scheduleType
    newOrder := if result.isSome then result else unit.newOrder }, ?_, rfl, rfl, rfl, rfl, rfl, ?_⟩
  · rw [schedule, isLive, expect_some, ok_bind, runs]
    rfl
  · intro order isOrder
    dsimp only at isOrder
    split at isOrder
    · exact keeps order isOrder
    · exact kept order isOrder

/-- A unit is put together: its instructions stand between its phis and its branch. -/
theorem toInstrs_ok (kept : ∀ order, unit.newOrder = some order → Keeps unit.instrs order) :
    ∃ mid, unit.toInstrs = .ok (unit.phiDsts.toList ++ mid ++ unit.phiSrcs.toList ++
        unit.branch.toList) ∧ Reorders Linked unit.instrs mid := by
  rw [toInstrs]
  cases isOrder : unit.newOrder with
  | none => exact ⟨unit.instrs, rfl, .refl _⟩
  | some order =>
    have keeps := kept order isOrder
    have length : order.length = unit.instrs.length := by
      rw [keeps.1.length_eq, length_range]
    obtain ⟨slots', taken⟩ := @Postpass.takeInstrs_ok unit.instrs order (unit.instrs.map some) []
      (keeps.1.nodup_iff.mpr nodup_range) (by
        intro i member
        have inside : i < unit.instrs.length := mem_range.mp (keeps.1.subset member)
        exact ⟨unit.instrs[i], by simp [inside], List.getElem?_eq_getElem inside⟩)
    refine ⟨_, ?_, keeps.reorders⟩
    dsimp only
    rw [decide_eq_true length, assertThat_true, ok_bind, taken]
    rfl

end ScheduleUnit

end CoralReef.Prepass
