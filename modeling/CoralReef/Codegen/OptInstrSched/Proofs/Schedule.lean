import CoralReef.Codegen.OptInstrSched.Proofs.Graph
import CoralReef.Codegen.OptInstrSched.Proofs.Statistics

/-!
# A run of the scheduler

The graph, its statistics and the order together: every block is scheduled, and its instructions
come out in an order that keeps all links.
-/

open List

namespace CoralReef.Postpass

/-!
## The order picked from the bottom

The loop counts the uses of each instruction down as they are scheduled. Every instruction is
scheduled, and behind everything that its edges lead to.
-/

open ListSchedule

variable {n : Nat} {heads : Nat → List Nat}

namespace OrderState

/-- The instructions that wait in the two queues. -/
def waiting (state : OrderState) : List Nat :=
  state.future.map FutureReadyInstr.index ++ state.ready.map ReadyInstr.index

def useCounts (state : OrderState) (i : Nat) : Nat := (state.g.label i).useCount

end OrderState

/-- What holds between two rounds of the loop. -/
structure Running (n : Nat) (heads : Nat → List Nat) (state : OrderState) : Prop where
  frontier : Frontier n heads state.instrOrder state.waiting state.useCounts
  edges : ∀ t u, t ∉ state.instrOrder → (state.g.heads t).count u = (heads u).count t

/-- Counting down the use along an edge of an instruction. -/
theorem releaseEdge_ok (state : OrderState) (e : Edge) (positive : 0 < state.useCounts e.headIdx) :
    ∃ state', releaseEdge state e = .ok state' ∧
      (state'.useCounts, state'.waiting) = release (state.useCounts, state.waiting) e.headIdx ∧
      (state'.instrOrder, state'.g.outgoingEdges) = (state.instrOrder, state.g.outgoingEdges) := by
  let depInstr := { state.g.label e.headIdx with
    readyCycle := max (state.g.label e.headIdx).readyCycle (state.currentCycle + e.latency)
    useCount := (state.g.label e.headIdx).useCount - 1 }
  let label := Function.update state.g.label e.headIdx depInstr
  let next : OrderState := { state with
    g := { state.g with label }
    future := if depInstr.useCount = 0 then
        FutureReadyInstr.new label e.headIdx :: state.future
      else state.future }
  have counts : next.useCounts =
      Function.update state.useCounts e.headIdx (state.useCounts e.headIdx - 1) := by
    funext i
    by_cases same : i = e.headIdx
    · subst same
      simp [next, label, depInstr, OrderState.useCounts]
    · simp [next, label, OrderState.useCounts, Function.update_of_ne same]
  have waits : next.waiting = if state.useCounts e.headIdx - 1 = 0 then
      e.headIdx :: state.waiting else state.waiting := by
    by_cases zero : (state.g.label e.headIdx).useCount - 1 = 0
    · have pushed : next.future = FutureReadyInstr.new label e.headIdx :: state.future :=
        if_pos zero
      rw [OrderState.waiting, pushed]
      exact (if_pos zero).symm
    · have same : next.future = state.future := if_neg zero
      rw [OrderState.waiting, same]
      exact (if_neg zero).symm
  refine ⟨next, ?_, ?_, rfl⟩
  · rw [releaseEdge]
    dsimp only
    rw [decide_eq_true (p := 0 < (state.g.label e.headIdx).useCount) positive, assertThat_true,
      ok_bind]
    rfl
  · rw [counts, waits]
    rfl

/-- Scheduling an instruction that waits. -/
theorem Running.schedule {state : OrderState} (forward : Forward n heads) {t : Nat}
    (running : Running n heads state) {ready : List ReadyInstr}
    (picked : (t :: ready.map ReadyInstr.index).Perm (state.ready.map ReadyInstr.index)) :
    ∃ state', scheduleInstr { state with ready } t = .ok state' ∧ Running n heads state' ∧
      state'.instrOrder = state.instrOrder ++ [t] := by
  have waits : state.waiting.Perm (t :: (state.future.map FutureReadyInstr.index ++
      ready.map ReadyInstr.index)) :=
    ((picked.symm.append_left _).trans perm_middle)
  have fresh := ((running.frontier.waits t).mp (waits.symm.subset mem_cons_self)).2.1
  let start : OrderState := { state with
    g := { state.g with outgoingEdges := Function.update state.g.outgoingEdges t [] }
    ready
    instrOrder := state.instrOrder ++ [t]
    currentCycle := state.currentCycle + (state.g.label t).execLatency }
  have isStart : scheduleInstr { state with ready } t =
      (state.g.outgoingEdges t).foldlM releaseEdge start := rfl
  obtain ⟨enough, placed⟩ := running.frontier.schedule forward waits.symm
    fun u => running.edges t u fresh
  obtain ⟨state', runs, released, same⟩ := foldlM_release Edge.headIdx
    (fun s : OrderState => (s.useCounts, s.waiting)) (fun s => (s.instrOrder, s.g.outgoingEdges))
    releaseEdge_ok (state.g.outgoingEdges t) start enough
  obtain ⟨order, graph⟩ := Prod.mk.inj same
  refine ⟨state', isStart.trans runs, ⟨?_, ?_⟩, order⟩
  · have isRelease : ((state.g.heads t).foldl release (state.useCounts,
        state.future.map FutureReadyInstr.index ++ ready.map ReadyInstr.index)) =
        (state'.useCounts, state'.waiting) := released.symm
    rw [isRelease] at placed
    rw [order]
    exact placed
  · intro v u absent
    rw [order, mem_append, mem_singleton, not_or] at absent
    rw [DepGraph.heads, graph]
    simp only [start, Function.update_of_ne absent.2]
    exact running.edges v u absent.1

/-- Moving instructions from one queue to the other. -/
theorem Running.move {state : OrderState} (running : Running n heads state)
    {moved left : List FutureReadyInstr} (perm : (moved ++ left).Perm state.future)
    (label : Nat → NodeLabel) : Running n heads { state with
      ready := moved.map (fun fri => ReadyInstr.new label fri.index) ++ state.ready
      future := left } := by
  exact ⟨running.frontier.perm (waiting_move perm label), running.edges⟩

/-- A property of the states of the loop. -/
structure Kept (n : Nat) (heads : Nat → List Nat) (I : OrderState → Prop) : Prop where
  move : ∀ state moved left, Running n heads state → I state → (moved ++ left).Perm state.future →
    (∀ fri ∈ moved, fri.readyCycle ≤ state.currentCycle) →
      I { state with
        ready := moved.map (fun fri => ReadyInstr.new state.g.label fri.index) ++ state.ready
        future := left }
  schedule : ∀ state next ready state', Running n heads state → I state →
    (next :: ready).Perm state.ready → scheduleInstr { state with ready } next.index = .ok state' →
      I state'
  forward : ∀ state fri, Running n heads state → I state → state.ready = [] → fri ∈ state.future →
    (∀ other ∈ state.future, state.currentCycle < other.readyCycle) →
      I { state with currentCycle := fri.readyCycle }

/-- The loop ends with all instructions in order. -/
theorem orderLoop_ok (forward : Forward n heads) {I : OrderState → Prop} (kept : Kept n heads I) :
    ∀ (fuel : Nat) (state : OrderState), Running n heads state → I state →
      2 * n + 2 ≤ fuel + 2 * state.instrOrder.length +
        (if state.ready = [] ∧ ∀ fri ∈ state.future, state.currentCycle < fri.readyCycle then 0 else 1) →
      ∃ final, orderLoop fuel state = .ok (final.instrOrder, final.currentCycle) ∧
        final.instrOrder.Perm (List.range n) ∧ BottomUp heads final.instrOrder ∧ I final := by
  intro fuel
  induction fuel with
  | zero =>
    intro state running _ enough
    have placed := running.frontier.length_le
    split at enough <;> omega
  | succ fuel ih =>
    intro state running holds enough
    obtain ⟨moved, left, result, perm, areReady, notYet⟩ :=
      @moveReady_spec state.g.label state.currentCycle state.future.length state.ready state.future
        (Nat.le_refl _)
    have running₁ := running.move perm state.g.label
    have holds₁ := kept.move state moved left running holds perm areReady
    rw [orderLoop, result]
    dsimp only
    cases popped : popMax ReadyInstr.lt
        (moved.map (fun fri => ReadyInstr.new state.g.label fri.index) ++ state.ready) with
    | some entry =>
      obtain ⟨next, ready⟩ := entry
      have picked := popMax_perm popped
      obtain ⟨state', scheduled, running', order⟩ :=
        running₁.schedule forward (picked.map ReadyInstr.index)
      have holds' := kept.schedule _ next ready state' running₁ holds₁ picked scheduled
      dsimp only
      rw [scheduled, ok_bind]
      apply ih state' running' holds'
      have length : state'.instrOrder.length = state.instrOrder.length + 1 := by
        rw [order, length_append]
        rfl
      rw [length]
      split at enough <;> split <;> omega
    | none =>
      rw [popMax_eq_none, append_eq_nil_iff] at popped
      have noneMoved : moved = [] := map_eq_nil_iff.mp popped.1
      rw [noneMoved, map_nil, nil_append, popped.2] at running₁ holds₁
      rw [noneMoved, nil_append] at perm
      dsimp only
      cases first : popMax FutureReadyInstr.lt left with
      | none =>
        rw [popMax_eq_none] at first
        rw [first] at running₁
        refine ⟨{ state with ready := [], future := left }, rfl,
          running₁.frontier.all_placed forward, running₁.frontier.sorted, holds₁⟩
      | some entry =>
        obtain ⟨fri, others⟩ := entry
        have inLeft : fri ∈ left := (popMax_perm first).subset mem_cons_self
        have later := notYet fri inLeft
        have holds' := kept.forward _ fri running₁ holds₁ rfl inLeft notYet
        dsimp only
        rw [decide_eq_true later, assertThat_true, ok_bind, noneMoved, map_nil,
          nil_append, popped.2]
        have running' : Running n heads { state with
            ready := [], future := left, currentCycle := fri.readyCycle } :=
          ⟨running₁.frontier, running₁.edges⟩
        exact ih _ running' holds' (enough_forward popped.2
          (fun other member => notYet other (perm.symm.subset member)) inLeft enough)

/-- The order returned has every instruction behind everything that it leads to. -/
theorem generateOrder_ok {g : DepGraph} (forward : Forward n heads) {init : List Nat}
    (len : g.len = n) (counts : ∀ i, i < n → (g.label i).useCount = (heads i).length)
    (edges : ∀ t u, (g.heads t).count u = (heads u).count t) (nodup : init.Nodup)
    (ready : ∀ i, i ∈ init ↔ i < n ∧ heads i = []) {I : OrderState → Prop}
    (kept : Kept n heads I) (holds : I { g, future := init.map (FutureReadyInstr.new g.label) }) :
    ∃ final, generateOrder g init = .ok (final.instrOrder, final.currentCycle) ∧
      final.instrOrder.Perm (List.range n) ∧ BottomUp heads final.instrOrder ∧ I final := by
  have waits : OrderState.waiting { g, future := init.map (FutureReadyInstr.new g.label) } = init := by
    rw [OrderState.waiting, map_map]
    simp [Function.comp_def, FutureReadyInstr.new]
  have running : Running n heads { g, future := init.map (FutureReadyInstr.new g.label) } := by
    refine ⟨?_, fun t u _ => edges t u⟩
    rw [waits]
    exact .start nodup counts ready
  rw [generateOrder, len]
  exact orderLoop_ok forward kept _ _ running holds (by simp)

variable {sm : ShaderModel} {instrs : List Instr}

/-- A run of the scheduler up to the order, with a property of the loop's states carried along. -/
theorem newOrder_ok (schedulable : Schedulable sm instrs) : ∃ g stats,
    g.len = instrs.length ∧
    (∀ i instr, instrs[i]? = some instr → NodeBuilt sm instrs g i instr) ∧
    (∀ i, instrs.length ≤ i → g.outgoingEdges i = [] ∧ g.label i = {}) ∧
    Forward instrs.length g.heads ∧ DepGraph.Counted g 0 stats ∧
    ∀ I, Kept instrs.length g.heads I →
      I { g := stats.1.reverse, future := stats.2.map (FutureReadyInstr.new stats.1.label) } →
      ∃ final, newOrder sm instrs = .ok (final.instrOrder.reverse, final.currentCycle) ∧
        final.instrOrder.Perm (List.range instrs.length) ∧ BottomUp g.heads final.instrOrder ∧
        I final := by
  obtain ⟨g, built, len, nodes, outside⟩ := generateDepGraph_ok schedulable
  have forward : Forward g.len g.heads := by
    intro t h isHead
    by_cases inside : t < instrs.length
    · have linked := linked_of_edge nodes (List.getElem?_eq_getElem inside) isHead
      exact ⟨linked.1, len ▸ linked.lt⟩
    · rw [DepGraph.heads, (outside t (Nat.le_of_not_lt inside)).1] at isHead
      cases isHead
  obtain ⟨stats, counted, facts⟩ := DepGraph.calcStatistics_ok forward
  rw [len] at forward
  refine ⟨g, stats, len, nodes, outside, forward, facts, ?_⟩
  intro I kept start
  have edges := facts.reversed fun i above => by
    rw [DepGraph.heads, (outside i (len ▸ above)).1]
    rfl
  have ready : ∀ i, i ∈ stats.2 ↔ i < instrs.length ∧ g.heads i = [] := by
    intro i
    rw [facts.ready, len]
    simp
  have counts : ∀ i, i < instrs.length → (stats.1.reverse.label i).useCount = (g.heads i).length :=
    fun i inside => facts.counts i (Nat.zero_le i) (len ▸ inside)
  obtain ⟨final, runs, perm, sorted, holds⟩ := generateOrder_ok forward (g := stats.1.reverse)
    (facts.len.trans len) counts edges facts.nodup ready kept start
  refine ⟨final, ?_, perm, sorted, holds⟩
  rw [newOrder, built, ok_bind, counted, ok_bind]
  show (generateOrder stats.1.reverse stats.2 >>= _) = _
  rw [runs]
  rfl

/-- The order is one of all instructions, and keeps every chain of links. -/
theorem newOrder_keeps (schedulable : Schedulable sm instrs) : ∃ order cycles,
    newOrder sm instrs = .ok (order, cycles) ∧ order.Perm (List.range instrs.length) ∧
      ∀ i j, Relation.TransGen (At Instr.Linked instrs) i j → [i, j].Sublist order := by
  obtain ⟨g, stats, -, nodes, -, -, -, runs⟩ := newOrder_ok schedulable
  have nothing : Kept instrs.length g.heads fun _ => True := by
    constructor <;> intros <;> trivial
  obtain ⟨final, ordered, perm, sorted, -⟩ := runs (fun _ => True) nothing trivial
  refine ⟨_, _, ordered, (reverse_perm _).trans perm, ?_⟩
  intro i j chain
  have path : Relation.TransGen (ListSchedule.Edge g.heads) i j :=
    Relation.TransGen.closed (fun _ _ linked => path_of_linked nodes linked) _ _ chain
  apply sorted.precedes _ path
  obtain ⟨k, linked, -⟩ := Relation.TransGen.head'_iff.mp chain
  rw [perm.mem_iff, mem_range]
  exact Nat.lt_trans linked.1 linked.lt

/-- Each instruction is taken once. -/
theorem takeInstrs_ok : ∀ (order : List Nat) (slots : List (Option Instr)) (out : List Instr),
    order.Nodup → (∀ i ∈ order, ∃ instr, slots[i]? = some (some instr) ∧ instrs[i]? = some instr) →
      ∃ slots', order.foldlM takeInstr (slots, out) =
        .ok (slots', out ++ order.filterMap fun i => instrs[i]?) := by
  intro order
  induction order with
  | nil =>
    intro slots out _ _
    exact ⟨slots, by rw [filterMap_nil, append_nil]; rfl⟩
  | cons i order ih =>
    intro slots out nodup present
    obtain ⟨fresh, nodup⟩ := nodup_cons.mp nodup
    obtain ⟨instr, here, isInstr⟩ := present i mem_cons_self
    obtain ⟨slots', rest⟩ := ih (slots.set i none) (out ++ [instr]) nodup (by
      intro j member
      obtain ⟨other, there, isOther⟩ := present j (mem_cons_of_mem i member)
      have apart : i ≠ j := by
        rintro rfl
        exact fresh member
      exact ⟨other, by rw [List.getElem?_set_ne apart, there], isOther⟩)
    refine ⟨slots', ?_⟩
    rw [foldlM_cons, takeInstr, here]
    show (List.foldlM takeInstr (slots.set i none, out ++ [instr]) order) = _
    rw [rest, filterMap_cons_some isInstr, append_assoc]
    rfl

/-- The buffer comes out in the new order. -/
theorem schedBuffer_ok {order : List Nat} {cycles : Nat}
    (ordered : newOrder sm instrs = .ok (order, cycles))
    (perm : order.Perm (List.range instrs.length)) :
    schedBuffer sm instrs = .ok (order.filterMap fun i => instrs[i]?, cycles) := by
  obtain ⟨slots', taken⟩ := @takeInstrs_ok instrs order (instrs.map some) []
    (perm.nodup_iff.mpr nodup_range) (by
      intro i member
      have inside : i < instrs.length := mem_range.mp (perm.subset member)
      exact ⟨instrs[i], by simp [inside], List.getElem?_eq_getElem inside⟩)
  rw [schedBuffer, ordered, ok_bind]
  show (order.foldlM takeInstr (instrs.map some, []) >>= _) = _
  rw [taken]
  rfl

end CoralReef.Postpass
