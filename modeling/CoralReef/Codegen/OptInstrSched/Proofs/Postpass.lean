import CoralReef.Codegen.OptInstrSched.Proofs.Schedule
import Mathlib.Data.Nat.Find

/-!
# The scheduler keeps the meaning of a block

The graph has an edge from a guarded instruction to no later write of its guard register. The
order of two instructions that conflict is kept on every target exactly when other dependencies
keep each guarded instruction before the writes of its guard.
-/

/-!
## A guard that is overtaken

When no path keeps a guarded instruction before a later write of its guard, there are latencies for
which the write is moved above it: the op that writes is slow and all others are instant.
-/

open List
open Function (update update_of_ne update_self)

namespace CoralReef.Postpass

open ListSchedule

/-- A target on which one op is slow and everything else takes no time. -/
def slowWrites (slow : Op) : ShaderModel where
  sm := 0
  opNeedsScoreboard _ := false
  execLatency _ := 0
  rawLatency write _ _ _ := if write = slow then 1 else 0
  warLatency read _ _ _ := if read = slow then 1 else 0
  wawLatency a _ _ _ _ := if a = slow then 1 else 0
  pawLatency write _ := if write = slow then 1 else 0
  worstLatency write _ := if write = slow then 1 else 0

section Slow

variable {instrs : List Instr} {slow : Op}

theorem slow_estimate (op : Op) : estimateVariableLatency (slowWrites slow) op = .ok 0 := rfl

theorem slow_schedulable (inFiles : ∀ instr ∈ instrs, instr.InFiles) :
    Schedulable (slowWrites slow) instrs :=
  ⟨inFiles, fun instr _ => ⟨0, slow_estimate instr.op⟩⟩

/-- The edges of the other ops take no time. -/
theorem slow_nodeEdges {ip : Nat} {instr : Instr} {dsts srcs : List (Nat × Slot)}
    {state : GraphState} (other : instr.op ≠ slow) {e : Edge}
    (member : e ∈ nodeEdges (slowWrites slow) instrs ip instr 0 dsts srcs state) :
    e.latency = 0 := by
  rw [nodeEdges, mem_append, mem_append, mem_flatMap, mem_flatMap] at member
  rcases member with (order | ⟨⟨i, slot⟩, -, write⟩) | ⟨⟨i, slot⟩, -, read⟩
  · rw [orderEdges, mem_append] at order
    rcases order with bar | class_
    · split at bar
      · rw [mem_singleton] at bar
        rw [bar]
      · cases bar
    · split at class_
      · cases class_
      · obtain ⟨i, -, rfl⟩ := mem_map.mp class_
        rfl
      · split at class_
        · rw [mem_singleton] at class_
          rw [class_]
        · cases class_
  · change e ∈ dstEdges _ _ _ _ _ i slot at write
    rw [dstEdges, mem_append] at write
    rcases write with next | pending
    · split at next
      · rw [mem_singleton] at next
        rw [next]
        exact if_neg other
      · cases next
    · obtain ⟨⟨r, src⟩, -, rfl⟩ := mem_map.mp pending
      cases src with
      | none | some src => simp [slowWrites, other]
  · change e ∈ srcEdges _ _ _ _ i slot at read
    rw [srcEdges] at read
    split at read
    · rw [mem_singleton] at read
      rw [read]
      exact if_neg other
    · cases read

theorem foldl_max_zero (indices : List Nat) : indices.foldl (fun cycle _ => max cycle 0) 0 = 0 := by
  induction indices with
  | nil => rfl
  | cons i indices ih => exact ih

theorem slow_nodeLabel {instr : Instr} : (nodeLabel (slowWrites slow) instrs instr 0 {}).execLatency = 0 ∧
    (instr.op ≠ slow → (nodeLabel (slowWrites slow) instrs instr 0 {}).readyCycle = 0) ∧
    (instr.op = slow → instr.dsts ≠ [] →
      0 < (nodeLabel (slowWrites slow) instrs instr 0 {}).readyCycle) := by
  refine ⟨rfl, ?_, ?_⟩
  · intro other
    show max ((List.range instr.dsts.length).foldl
      (fun cycle _ => max cycle (if instr.op = slow then 1 else 0)) 0) 0 = 0
    rw [if_neg other, foldl_max_zero]
    rfl
  · intro isSlow some
    have positive := length_pos_iff.mpr some
    obtain ⟨k, length⟩ := Nat.exists_eq_succ_of_ne_zero (Nat.ne_of_gt positive)
    show 0 < max ((List.range instr.dsts.length).foldl
      (fun cycle _ => max cycle (if instr.op = slow then 1 else 0)) 0) 0
    rw [if_pos isSlow, length, range_succ, foldl_append]
    exact Nat.lt_of_lt_of_le Nat.zero_lt_one
      (Nat.le_trans (Nat.le_max_right ..) (Nat.le_max_left ..))

end Slow

/-- What counting down along edges does to the labels and the queue. -/
theorem releaseEdges_labels : ∀ (edges : List Edge) {state state' : OrderState},
    edges.foldlM releaseEdge state = .ok state' →
      (∀ u, (state'.g.label u).execLatency = (state.g.label u).execLatency) ∧
      (∀ u, (state.g.label u).readyCycle ≤ (state'.g.label u).readyCycle) ∧
      (∀ u B, (state.g.label u).readyCycle ≤ B →
        (∀ e ∈ edges, e.headIdx = u → state.currentCycle + e.latency ≤ B) →
          (state'.g.label u).readyCycle ≤ B) ∧
      (∀ e ∈ edges, state.currentCycle + e.latency ≤ (state'.g.label e.headIdx).readyCycle) ∧
      (∀ u, (state.g.label u).useCount = 0 → state'.g.label u = state.g.label u) ∧
      state'.ready = state.ready ∧ state'.currentCycle = state.currentCycle ∧
      state'.g.outgoingEdges = state.g.outgoingEdges ∧ state'.instrOrder = state.instrOrder := by
  intro edges
  induction edges with
  | nil =>
    intro state state' runs
    cases runs
    exact ⟨fun _ => rfl, fun _ => Nat.le_refl _, fun _ _ bound _ => bound, by simp, fun _ _ => rfl,
      rfl, rfl, rfl, rfl⟩
  | cons e edges ih =>
    intro state state' runs
    rw [foldlM_cons] at runs
    obtain ⟨next, first, rest⟩ := bind_eq_ok.mp runs
    obtain ⟨exec, mono, bound, reach, fixed, ready, cycle, graph, order⟩ := ih rest
    rw [releaseEdge] at first
    obtain ⟨⟨⟩, positive, isNext⟩ := bind_eq_ok.mp first
    rw [assertThat_eq_ok, decide_eq_true_eq] at positive
    cases isNext
    dsimp only at exec mono bound reach fixed ready cycle graph order
    refine ⟨?_, ?_, ?_, ?_, ?_, ready, cycle, graph, order⟩
    · intro u
      rw [exec]
      by_cases same : u = e.headIdx
      · rw [same, update_self]
      · rw [update_of_ne same]
    · intro u
      refine Nat.le_trans ?_ (mono u)
      by_cases same : u = e.headIdx
      · rw [same, update_self]
        exact Nat.le_max_left ..
      · rw [update_of_ne same]
    · intro u B within later
      refine bound u B ?_ fun e' member => later e' (mem_cons_of_mem e member)
      by_cases same : u = e.headIdx
      · rw [same, update_self]
        exact Nat.max_le.mpr ⟨same ▸ within, later e mem_cons_self same.symm⟩
      · rw [update_of_ne same]
        exact within
    · intro e' member
      rcases mem_cons.mp member with rfl | member
      · refine Nat.le_trans ?_ (mono e'.headIdx)
        rw [update_self]
        exact Nat.le_max_right ..
      · exact reach e' member
    · intro u none
      have apart : u ≠ e.headIdx := by
        rintro rfl
        omega
      rw [fixed u (by rw [update_of_ne apart, none]), update_of_ne apart]

/-- The queue holds the cycles of the labels. -/
def QueueTrue (state : OrderState) : Prop :=
  ∀ fri ∈ state.future, fri = FutureReadyInstr.new state.g.label fri.index ∧
    (state.g.label fri.index).useCount = 0

theorem releaseEdges_queue : ∀ (edges : List Edge) {state state' : OrderState},
    edges.foldlM releaseEdge state = .ok state' → QueueTrue state → QueueTrue state' := by
  intro edges
  induction edges with
  | nil =>
    intro state state' runs isTrue
    cases runs
    exact isTrue
  | cons e edges ih =>
    intro state state' runs isTrue
    rw [foldlM_cons] at runs
    obtain ⟨next, first, rest⟩ := bind_eq_ok.mp runs
    apply ih rest
    rw [releaseEdge] at first
    obtain ⟨⟨⟩, positive, isNext⟩ := bind_eq_ok.mp first
    rw [assertThat_eq_ok, decide_eq_true_eq] at positive
    cases isNext
    have old : ∀ fri ∈ state.future, fri.index ≠ e.headIdx := by
      intro fri member same
      have := (isTrue fri member).2
      rw [same] at this
      omega
    intro fri member
    dsimp only at member ⊢
    split at member
    next zero =>
      rcases mem_cons.mp member with rfl | member
      · refine ⟨rfl, ?_⟩
        show (update state.g.label e.headIdx _ e.headIdx).useCount = 0
        rw [update_self]
        exact zero
      · rw [FutureReadyInstr.new, update_of_ne (old fri member)]
        exact isTrue fri member
    next =>
      rw [FutureReadyInstr.new, update_of_ne (old fri member)]
      exact isTrue fri member

theorem opAt_eq {instrs : List Instr} {t : Nat} {instr : Instr} (here : instrs[t]? = some instr) :
    opAt instrs t = instr.op := by
  rw [opAt, here]
  rfl

/-- The write at `w` by `b` is slow, and no path leads from `i` to it. -/
structure Overtakable (instrs : List Instr) (g : DepGraph) (i w : Nat) (slot : Slot) (b : Instr) :
    Prop where
  nodes : ∀ t instr, instrs[t]? = some instr → NodeBuilt (slowWrites b.op) instrs g t instr
  outside : ∀ t, instrs.length ≤ t → g.outgoingEdges t = [] ∧ g.label t = {}
  here : instrs[w]? = some b
  written : slot ∈ b.writes
  below : i < w
  unreached : ¬ Relation.TransGen (ListSchedule.Edge g.heads) i w

/-- The next write after `w`. -/
def NextWrite (instrs : List Instr) (w : Nat) (slot : Slot) (x : Nat) : Prop :=
  FirstFrom (w + 1) (Has instrs fun instr => slot ∈ instr.writes) (some x)

/-- The instructions that `i` has to stay above, and `i`. -/
def Reached (g : DepGraph) (i s : Nat) : Prop :=
  s = i ∨ Relation.TransGen (ListSchedule.Edge g.heads) i s

/-- While the write waits, everything that `i` leads to gets its turn. -/
structure Overtaking (instrs : List Instr) (g : DepGraph) (i w : Nat) (slot : Slot) (b : Instr)
    (state : OrderState) : Prop where
  exec : ∀ t, (state.g.label t).execLatency = 0
  instant : ∀ t, t ∉ state.instrOrder → ∀ e ∈ state.g.outgoingEdges t,
    opAt instrs e.headIdx ≠ b.op → e.latency = 0
  slow : ∀ x, NextWrite instrs w slot x → x ∉ state.instrOrder →
    ∃ e ∈ state.g.outgoingEdges x, e.headIdx = w ∧ 1 ≤ e.latency
  queue : QueueTrue state
  ready : ∀ r ∈ state.ready, (state.g.label r.index).readyCycle ≤ state.currentCycle
  early : ∀ t, opAt instrs t ≠ b.op → (state.g.label t).readyCycle ≤ state.currentCycle
  late : (∀ x, NextWrite instrs w slot x → x ∈ state.instrOrder) →
    state.currentCycle < (state.g.label w).readyCycle ∨ ∀ s, Reached g i s → s ∈ state.instrOrder
  placed : w ∈ state.instrOrder → [i, w].Sublist state.instrOrder

namespace Overtakable

variable {instrs : List Instr} {g : DepGraph} {i w : Nat} {slot : Slot} {b : Instr}
  (setting : Overtakable instrs g i w slot b)
include setting

theorem path_of_edge {t h : Nat} (edge : ListSchedule.Edge g.heads t h) :
    At Instr.Linked instrs t h := by
  by_cases inside : t < instrs.length
  · exact linked_of_edge setting.nodes (getElem?_eq_getElem inside) edge
  · rw [ListSchedule.Edge, DepGraph.heads, (setting.outside t (Nat.le_of_not_lt inside)).1] at edge
    cases edge

theorem reached_lt {s : Nat} (reached : Reached g i s) : s < instrs.length := by
  rcases reached with rfl | path
  · have := (List.getElem?_eq_some_iff.mp setting.here).1
    exact Nat.lt_trans setting.below this
  · obtain ⟨t, -, last⟩ := Relation.TransGen.tail'_iff.mp path
    exact (setting.path_of_edge last).lt

theorem reached_step {s h : Nat} (reached : Reached g i s) (edge : h ∈ g.heads s) :
    Reached g i h := by
  rcases reached with rfl | path
  · exact .inr (.single edge)
  · exact .inr (path.tail edge)

/-- Another instruction with the slow op that `i` leads to is below the next write, or is it. -/
theorem clone_below {s : Nat} (reached : Reached g i s) (isSlow : opAt instrs s = b.op) :
    ∃ x, NextWrite instrs w slot x ∧
      (s = x ∨ Relation.TransGen (ListSchedule.Edge g.heads) x s) := by
  have inside := setting.reached_lt reached
  have there : instrs[s]? = some instrs[s] := getElem?_eq_getElem inside
  rw [opAt_eq there] at isSlow
  have writes : slot ∈ (instrs[s]).writes := by
    have := setting.written
    rwa [Instr.writes, Instr.dsts, ← isSlow] at this
  have apart : s ≠ w := by
    rintro rfl
    rcases reached with rfl | path
    · exact Nat.lt_irrefl _ setting.below
    · exact setting.unreached path
  by_cases above : s < w
  · have linked : At Instr.Linked instrs s w :=
      ⟨above, _, _, there, setting.here, .inl ⟨slot, writes, .inl setting.written⟩⟩
    have path := path_of_linked setting.nodes linked
    refine absurd ?_ setting.unreached
    rcases reached with rfl | earlier
    · exact path
    · exact earlier.trans path
  · have later : Has instrs (fun instr => slot ∈ instr.writes) s := ⟨_, there, writes⟩
    have first : ∃ x, w + 1 ≤ x ∧ Has instrs (fun instr => slot ∈ instr.writes) x :=
      ⟨s, by omega, later⟩
    classical
    obtain ⟨fromX, hasX⟩ := Nat.find_spec first
    have least : ∀ j, w + 1 ≤ j → Has instrs (fun instr => slot ∈ instr.writes) j →
        Nat.find first ≤ j := fun j from_ has => Nat.find_min' first ⟨from_, has⟩
    refine ⟨Nat.find first, ?_, ?_⟩
    · constructor
      · intro x same
        cases same
        exact ⟨fromX, hasX, least⟩
      · intro empty
        cases empty
    · by_cases same : s = Nat.find first
      · exact .inl same
      · obtain ⟨c, between, written⟩ := hasX
        have upTo := least s (by omega) later
        exact .inr (path_of_linked setting.nodes
          ⟨by omega, c, _, between, there, .inl ⟨slot, written, .inl writes⟩⟩)

/-- When time moves on, all that `i` leads to has been placed. -/
theorem all_placed {state : OrderState} (running : Running instrs.length g.heads state)
    (overtaking : Overtaking instrs g i w slot b state) (stalled : state.ready = [])
    (notYet : ∀ fri ∈ state.future, state.currentCycle < fri.readyCycle)
    (next : ∀ x, NextWrite instrs w slot x → x ∈ state.instrOrder) :
    ∀ s, Reached g i s → s ∈ state.instrOrder := by
  have down : ∀ k s, instrs.length ≤ s + k → Reached g i s → s ∈ state.instrOrder := by
    intro k
    induction k with
    | zero =>
      intro s enough reached
      have := setting.reached_lt reached
      omega
    | succ k ih =>
      intro s enough reached
      by_contra absent
      have headsPlaced : ∀ h ∈ g.heads s, h ∈ state.instrOrder := by
        intro h isHead
        have := (setting.path_of_edge isHead).1
        exact ih h (by omega) (setting.reached_step reached isHead)
      have waits := (running.frontier.waits s).mpr
        ⟨setting.reached_lt reached, absent, remaining_eq_zero.mpr headsPlaced⟩
      rw [OrderState.waiting, stalled, map_nil, append_nil, mem_map] at waits
      obtain ⟨fri, inFuture, isS⟩ := waits
      by_cases isSlow : opAt instrs s = b.op
      · obtain ⟨x, isNext, same | path⟩ := setting.clone_below reached isSlow
        · exact absent (same ▸ next x isNext)
        · obtain ⟨pre, post, split⟩ := append_of_mem (next x isNext)
          have := running.frontier.sorted.mem_of_path path split
          exact absent (by rw [split]; exact mem_append_left _ this)
      · have late := notYet fri inFuture
        have early := overtaking.early s isSlow
        rw [(overtaking.queue fri inFuture).1, FutureReadyInstr.new, isS, overtaking.exec] at late
        dsimp only at late
        omega
  exact fun s => down instrs.length s (by omega)

/-- When the write is picked, `i` has been placed. -/
theorem placed_first {state : OrderState} (running : Running instrs.length g.heads state)
    (overtaking : Overtaking instrs g i w slot b state) {r : ReadyInstr} (picked : r ∈ state.ready)
    (isWrite : r.index = w) : i ∈ state.instrOrder := by
  have waits : w ∈ state.waiting :=
    mem_append_right _ (mem_map.mpr ⟨r, picked, isWrite⟩)
  have headsPlaced := remaining_eq_zero.mp ((running.frontier.waits w).mp waits).2.2
  have next : ∀ x, NextWrite instrs w slot x → x ∈ state.instrOrder := by
    intro x isNext
    obtain ⟨above, ⟨c, there, written⟩, -⟩ := isNext.some x rfl
    have path := path_of_linked setting.nodes (i := w) (j := x)
      ⟨above, b, c, setting.here, there, .inl ⟨slot, setting.written, .inl written⟩⟩
    rcases Relation.TransGen.head'_iff.mp path with ⟨h, first, rest⟩
    have isPlaced := headsPlaced h first
    rcases Relation.reflTransGen_iff_eq_or_transGen.mp rest with same | path
    · exact same ▸ isPlaced
    · obtain ⟨pre, post, split⟩ := append_of_mem isPlaced
      have := running.frontier.sorted.mem_of_path path split
      rw [split]
      exact mem_append_left _ this
  rcases overtaking.late next with late | all
  · have := overtaking.ready r picked
    rw [isWrite] at this
    omega
  · exact all i (.inl rfl)

theorem schedule {state state' : OrderState} (running : Running instrs.length g.heads state)
    (overtaking : Overtaking instrs g i w slot b state) {r : ReadyInstr} {ready : List ReadyInstr}
    (picked : (r :: ready).Perm state.ready)
    (scheduled : scheduleInstr { state with ready } r.index = .ok state') :
    Overtaking instrs g i w slot b state' := by
  have isReady : r ∈ state.ready := picked.subset mem_cons_self
  have waits : r.index ∈ state.waiting :=
    mem_append_right _ (mem_map_of_mem isReady)
  have fresh := ((running.frontier.waits r.index).mp waits).2.1
  obtain ⟨exec, mono, bound, reach, fixed, ready', cycle, graph, order⟩ :=
    releaseEdges_labels _ scheduled
  dsimp only at exec mono bound reach fixed ready' cycle graph order
  rw [overtaking.exec, Nat.add_zero] at cycle bound reach
  have zero : ∀ r' ∈ state.ready, (state.g.label r'.index).useCount = 0 := by
    intro r' member
    have waits' : r'.index ∈ state.waiting :=
      mem_append_right _ (mem_map_of_mem member)
    obtain ⟨inside, absent, none⟩ := (running.frontier.waits _).mp waits'
    exact (running.frontier.counted _ inside absent).trans none
  refine ⟨?_, ?_, ?_, ?_, ?_, ?_, ?_, ?_⟩
  · exact fun t => (exec t).trans (overtaking.exec t)
  · intro t absent e member other
    rw [order, mem_append, mem_singleton, not_or] at absent
    rw [graph, update_of_ne absent.2] at member
    exact overtaking.instant t absent.1 e member other
  · intro x isNext absent
    rw [order, mem_append, mem_singleton, not_or] at absent
    rw [graph, update_of_ne absent.2]
    exact overtaking.slow x isNext absent.1
  · exact releaseEdges_queue _ scheduled overtaking.queue
  · intro r' member
    rw [ready'] at member
    have inReady := picked.subset (mem_cons_of_mem r member)
    rw [fixed _ (zero r' inReady), cycle]
    exact overtaking.ready r' inReady
  · intro t other
    rw [cycle]
    refine bound t _ (overtaking.early t other) ?_
    rintro e member rfl
    rw [overtaking.instant _ fresh e member other]
    exact Nat.le_refl _
  · intro next
    rw [order, cycle]
    by_cases before : ∀ x, NextWrite instrs w slot x → x ∈ state.instrOrder
    · rcases overtaking.late before with late | all
      · exact .inl (Nat.lt_of_lt_of_le late (mono w))
      · exact .inr fun s reached => mem_append_left _ (all s reached)
    · push Not at before
      obtain ⟨x, isNext, absent⟩ := before
      have isPicked := next x isNext
      rw [order, mem_append, mem_singleton] at isPicked
      have same := isPicked.resolve_left absent
      obtain ⟨e, member, isWrite, slow⟩ := overtaking.slow x isNext absent
      rw [same] at member
      have := reach e member
      rw [isWrite] at this
      left
      omega
  · intro isPlaced
    rw [order] at isPlaced ⊢
    rcases mem_append.mp isPlaced with earlier | last
    · exact (overtaking.placed earlier).trans (sublist_append_left ..)
    · rw [mem_singleton] at last
      have := setting.placed_first running overtaking isReady last.symm
      rw [← last]
      exact (singleton_sublist.mpr this).append_right [w]

/-- The invariant of the loop. -/
theorem kept : Kept instrs.length g.heads (Overtaking instrs g i w slot b) := by
  constructor
  · intro state moved left running overtaking perm areReady
    refine ⟨overtaking.exec, overtaking.instant, overtaking.slow, ?_, ?_, overtaking.early,
      overtaking.late, overtaking.placed⟩
    · exact fun fri member =>
        overtaking.queue fri (perm.subset (mem_append_right _ member))
    · intro r member
      rcases mem_append.mp member with fresh | old
      · obtain ⟨fri, inMoved, rfl⟩ := mem_map.mp fresh
        have inFuture := perm.subset (mem_append_left left inMoved)
        have := areReady fri inMoved
        rw [(overtaking.queue fri inFuture).1, FutureReadyInstr.new, overtaking.exec] at this
        exact this
      · exact overtaking.ready r old
  · exact fun state r ready state' running overtaking picked scheduled =>
      setting.schedule running overtaking picked scheduled
  · intro state fri running overtaking stalled inFuture notYet
    have later := notYet fri inFuture
    refine ⟨overtaking.exec, overtaking.instant, overtaking.slow, overtaking.queue, ?_, ?_, ?_,
      overtaking.placed⟩
    · intro r member
      rw [stalled] at member
      cases member
    · exact fun t other => Nat.le_trans (overtaking.early t other) (Nat.le_of_lt later)
    · intro next
      have all : ∀ s, Reached g i s → s ∈ state.instrOrder :=
        setting.all_placed running overtaking stalled notYet next
      exact .inr all

end Overtakable

/-- Whatever the queues hold at first, nothing is placed. -/
theorem Overtakable.start {instrs : List Instr} {g : DepGraph} {i w : Nat} {slot : Slot} {b : Instr}
    (setting : Overtakable instrs g i w slot b) (len : g.len = instrs.length)
    {stats : DepGraph × List Nat} (counted : DepGraph.Counted g 0 stats) :
    Overtaking instrs g i w slot b
      { g := stats.1.reverse, future := stats.2.map (FutureReadyInstr.new stats.1.label) } := by
  have labels : ∀ t, (g.label t).execLatency = 0 ∧
      (opAt instrs t ≠ b.op → (g.label t).readyCycle = 0) := by
    intro t
    by_cases inside : t < instrs.length
    · have there : instrs[t]? = some instrs[t] := getElem?_eq_getElem inside
      obtain ⟨estimate, dsts, srcs, state, estimated, -, -, -, -, label⟩ := setting.nodes t _ there
      rw [slow_estimate] at estimated
      cases estimated
      rw [label, opAt_eq there]
      exact ⟨slow_nodeLabel.1, slow_nodeLabel.2.1⟩
    · rw [(setting.outside t (Nat.le_of_not_lt inside)).2]
      exact ⟨rfl, fun _ => rfl⟩
  have inside := (List.getElem?_eq_some_iff.mp setting.here).1
  obtain ⟨estimate, dsts, srcs, state, estimated, isWrites, -, behind, edges, label⟩ :=
    setting.nodes w b setting.here
  rw [slow_estimate] at estimated
  cases estimated
  refine ⟨?_, ?_, ?_, ?_, ?_, ?_, ?_, ?_⟩
  · exact fun t => (counted.labels t).2.trans (labels t).1
  · intro t _ e member other
    obtain ⟨tail, inRange, found⟩ := mem_flatMap.mp member
    obtain ⟨e', inEdges, same⟩ := mem_filterMap.mp found
    rw [counted.edges] at inEdges
    split at same
    · cases same
      rw [mem_range, counted.len, len] at inRange
      have there : instrs[tail]? = some instrs[tail] := getElem?_eq_getElem inRange
      obtain ⟨estimate, dsts, srcs, state, estimated, -, -, -, edges, -⟩ := setting.nodes tail _ there
      rw [slow_estimate] at estimated
      cases estimated
      rw [edges] at inEdges
      rw [opAt_eq there] at other
      have silent : e'.latency = 0 := slow_nodeEdges other inEdges
      exact silent
    · cases same
  · intro x isNext _
    obtain ⟨entry, inDsts, isSlot⟩ := mem_map.mp (isWrites ▸ setting.written)
    have write : (state.uses slot).write.map Prod.fst = some x := by
      obtain ⟨fromX, has, -⟩ := isNext.some x rfl
      obtain ⟨first, isFirst, fromFirst, hasFirst, upTo⟩ := (behind.write slot).exists_le fromX has
      have := (isNext.some x rfl).2.2 first fromFirst hasFirst
      rw [isFirst]
      congr 1
      omega
    obtain ⟨next, isWrite, isX⟩ := Option.map_eq_some_iff.mp write
    have inNode : (⟨1, x⟩ : Edge) ∈ g.outgoingEdges w := by
      rw [edges, nodeEdges]
      apply mem_append_left
      apply mem_append_right
      refine mem_flatMap.mpr ⟨entry, inDsts, ?_⟩
      show _ ∈ dstEdges (slowWrites b.op) instrs b 0 state.uses entry.1 entry.2
      rw [dstEdges, isSlot, isWrite]
      apply mem_append_left
      rw [mem_singleton, ← isX]
      simp [slowWrites]
    refine ⟨⟨1, w⟩, ?_, rfl, Nat.le_refl 1⟩
    refine mem_flatMap.mpr ⟨w, ?_, mem_filterMap.mpr ⟨⟨1, x⟩, ?_, if_pos rfl⟩⟩
    · rw [mem_range, counted.len, len]
      exact inside
    · rw [counted.edges]
      exact inNode
  · intro fri member
    obtain ⟨t, inReady, rfl⟩ := mem_map.mp member
    obtain ⟨-, below, none⟩ := (counted.ready t).mp inReady
    refine ⟨rfl, ?_⟩
    show (stats.1.label t).useCount = 0
    rw [counted.counts t (Nat.zero_le t) below, none]
    rfl
  · intro r member
    cases member
  · intro t other
    show (stats.1.label t).readyCycle ≤ 0
    rw [(counted.labels t).1, (labels t).2 other]
  · intro _
    left
    show 0 < (stats.1.label w).readyCycle
    have some : b.dsts ≠ [] := by
      intro none
      have := setting.written
      rw [Instr.writes, none] at this
      cases this
    rw [(counted.labels w).1, label]
    exact slow_nodeLabel.2.2 rfl some
  · intro isPlaced
    cases isPlaced

variable {sm : ShaderModel} {instrs : List Instr}

/-- The scheduler ends, each instruction comes out once, and no two that conflict change places. -/
def KeepsOrder (sm : ShaderModel) (instrs : List Instr) : Prop :=
  ∃ order cycles, newOrder sm instrs = .ok (order, cycles) ∧
    schedBuffer sm instrs = .ok (order.filterMap fun i => instrs[i]?, cycles) ∧
    order.Perm (List.range instrs.length) ∧
    ∀ i j, At (fun a b => a.DataConflict b ∨ a.OrderConflict b) instrs i j → [i, j].Sublist order

/-- A chain of other dependencies leads from each guarded instruction to every later write of its
guard. -/
def GuardsOrdered (instrs : List Instr) : Prop :=
  ∀ i j, At Instr.GuardConflict instrs i j → Relation.TransGen (At Instr.Linked instrs) i j

/-- Chains of dependencies are kept. -/
theorem keepsOrder_of_guardsOrdered (schedulable : Schedulable sm instrs)
    (guarded : GuardsOrdered instrs) : KeepsOrder sm instrs := by
  obtain ⟨order, cycles, ordered, perm, keeps⟩ := newOrder_keeps schedulable
  refine ⟨order, cycles, ordered, schedBuffer_ok ordered perm, perm, ?_⟩
  rintro i j ⟨below, a, b, here, there, conflict⟩
  apply keeps
  rcases Instr.conflict_iff.mp conflict with linked | guard
  · exact .single ⟨below, a, b, here, there, linked⟩
  · exact guarded i j ⟨below, a, b, here, there, guard⟩

/-- Without a chain, a write that is slow enough comes out before the instruction it guards. -/
theorem guardsOrdered_of_keepsOrder (inFiles : ∀ instr ∈ instrs, instr.InFiles)
    (keeps : ∀ sm, Schedulable sm instrs → KeepsOrder sm instrs) : GuardsOrdered instrs := by
  intro i w guard
  obtain ⟨below, a, b, here, there, slot, written, isGuard⟩ := guard
  by_contra apart
  have schedulable : Schedulable (slowWrites b.op) instrs := slow_schedulable inFiles
  obtain ⟨g, stats, len, nodes, outside, forward, counted, runs⟩ := newOrder_ok schedulable
  have unreached : ¬ Relation.TransGen (ListSchedule.Edge g.heads) i w := by
    intro path
    apply apart
    refine Relation.TransGen.mono ?_ _ _ path
    intro t h edge
    have inside : t < instrs.length := Nat.lt_trans (forward t h edge).1 (forward t h edge).2
    exact linked_of_edge nodes (getElem?_eq_getElem inside) edge
  have setting : Overtakable instrs g i w slot b :=
    ⟨nodes, outside, there, written, below, unreached⟩
  obtain ⟨final, ordered, perm, -, overtaking⟩ :=
    runs (Overtaking instrs g i w slot b) setting.kept (setting.start len counted)
  obtain ⟨order, cycles, ordered', -, -, kept⟩ := keeps _ schedulable
  rw [ordered'] at ordered
  cases ordered
  have first := kept i w
    ⟨below, a, b, here, there, .inl (.inr ⟨slot, written, .inr isGuard⟩)⟩
  have isPlaced : w ∈ final.instrOrder := by
    rw [perm.mem_iff, mem_range]
    exact (List.getElem?_eq_some_iff.mp there).1
  have second : [w, i].Sublist final.instrOrder.reverse :=
    reverse_sublist.mpr (overtaking.placed isPlaced)
  have nodup : final.instrOrder.reverse.Nodup :=
    nodup_reverse.mpr (perm.nodup_iff.mpr nodup_range)
  exact precedes_asymm nodup first second

/-- A block is scheduled without harm on every target exactly when the writes of guards are kept
behind by other dependencies. -/
theorem keepsOrder_iff_guardsOrdered (inFiles : ∀ instr ∈ instrs, instr.InFiles) :
    (∀ sm, Schedulable sm instrs → KeepsOrder sm instrs) ↔ GuardsOrdered instrs :=
  ⟨guardsOrdered_of_keepsOrder inFiles,
    fun guarded _ schedulable => keepsOrder_of_guardsOrdered schedulable guarded⟩

/-- The blocks so far are scheduled, each by itself, and the others are as they were. -/
structure ScheduledTo (sm : ShaderModel) (f : Function) (n : Nat) (f' : Function) : Prop where
  edges : f'.blocks.edges = f.blocks.edges
  len : f'.blocks.len = f.blocks.len
  done : ∀ b < n, ∃ cycles, schedBuffer sm (f.instrs b) = .ok (f'.instrs b, cycles)
  rest : ∀ b, n ≤ b → f'.instrs b = f.instrs b

theorem ScheduledTo.block {f f' : Function} {n cycles : Nat} {instrs : List Instr}
    (scheduled : ScheduledTo sm f n f') (inside : n < f.blocks.len)
    (sched : schedBuffer sm (f'.instrs n) = .ok (instrs, cycles)) :
    ScheduledTo sm f (n + 1) { f' with blocks := { f'.blocks with
      blocks := f'.blocks.blocks.modify n fun block => { block with instrs } } } := by
  have others : ∀ b, b ≠ n → Function.instrs { f' with blocks := { f'.blocks with
      blocks := f'.blocks.blocks.modify n fun block => { block with instrs } } } b =
        f'.instrs b := by
    intro b other
    simp [Function.instrs, Ne.symm other]
  have here : Function.instrs { f' with blocks := { f'.blocks with
      blocks := f'.blocks.blocks.modify n fun block => { block with instrs } } } n = instrs := by
    have found : n < f'.blocks.blocks.length := Nat.lt_of_lt_of_eq inside scheduled.len.symm
    simp [Function.instrs, found]
  refine ⟨scheduled.edges, (length_modify ..).trans scheduled.len, ?_, ?_⟩
  · intro b below
    by_cases isLast : b = n
    · rw [isLast, here, ← scheduled.rest n (Nat.le_refl n)]
      exact ⟨cycles, sched⟩
    · rw [others b isLast]
      exact scheduled.done b (by omega)
  · intro b beyond
    rw [others b (by omega)]
    exact scheduled.rest b (by omega)

/-- The pass schedules each block by itself and leaves the edges as they are. -/
theorem optInstrSchedPostpass_scheduled {f f' : Function} {count : Nat}
    {estimateBlockWeight : CFG BasicBlock → Nat → Except Fault Nat}
    (returned : f.optInstrSchedPostpass sm estimateBlockWeight = .ok (f', count)) :
    ScheduledTo sm f f.blocks.len f' := by
  refine foldlM_range_returned (fun n state => ScheduledTo sm f n state.1)
    ⟨rfl, rfl, fun b below => absurd below (Nat.not_lt_zero b), fun _ _ => rfl⟩ returned ?_
  rintro n ⟨g, count⟩ next inside scheduled step
  obtain ⟨⟨instrs, cycles⟩, sched, step⟩ := bind_eq_ok.mp step
  obtain ⟨-, -, step⟩ := bind_eq_ok.mp step
  obtain ⟨weight, -, step⟩ := bind_eq_ok.mp step
  obtain ⟨-, -, step⟩ := bind_eq_ok.mp step
  cases step
  exact scheduled.block inside sched

/-- A register of one component. -/
def oneReg (file : RegFile) (idx : Nat)
    (inRange : idx ≤ RegRef.maxIdx := by
      first
      | exact Nat.zero_le _
      | exact RegRef.one_le
      | exact RegRef.two_le
      | exact RegRef.three_le
      | decide) : RegRef :=
  ⟨file, idx, 1, inRange, RegRef.single⟩

/-- `@p0 mov r1 r2`, and `p0` is written from `r1` later. -/
def tiedGuard : List Instr :=
  [⟨⟨.reg (oneReg .pred 0), false⟩,
      .other ⟨"Mov", true⟩ [.reg (oneReg .gpr 1)] [.ofReg (oneReg .gpr 2)]⟩,
    .new (.other ⟨"ISetP", true⟩ [.reg (oneReg .pred 0)]
      [.ofReg (oneReg .gpr 1), .ofReg (oneReg .gpr 4)]),
    .new .exit]

/-- The same without the tie, and `p0` is used after it is written. -/
def looseGuard : List Instr :=
  [⟨⟨.reg (oneReg .pred 0), false⟩,
      .other ⟨"Mov", true⟩ [.reg (oneReg .gpr 1)] [.ofReg (oneReg .gpr 2)]⟩,
    .new (.other ⟨"ISetP", true⟩ [.reg (oneReg .pred 0)]
      [.ofReg (oneReg .gpr 3), .ofReg (oneReg .gpr 4)]),
    .new (.other ⟨"Sel", true⟩ [.reg (oneReg .gpr 5)]
      [.ofReg (oneReg .pred 0), .ofReg (oneReg .gpr 6), .ofReg (oneReg .gpr 7)]),
    .new .exit]

theorem tiedGuard_inFiles : ∀ instr ∈ tiedGuard, instr.InFiles := by
  simp [tiedGuard, Instr.InFiles, Instr.new, Instr.dsts, Instr.srcs, Op.dsts, Op.srcs, Dst.asReg,
    Src.ofReg, SrcRef.getReg, RegRef.InFile, oneReg]
  decide

/-- The comparison reads what the guarded move writes. -/
theorem tiedGuard_ordered : GuardsOrdered tiedGuard := by
  intro i j guard
  obtain ⟨below, a, b, here, there, slot, written, -⟩ := guard
  have inside : j < 3 := (List.getElem?_eq_some_iff.mp there).1
  have last : j ≠ 2 := by
    rintro rfl
    cases there
    cases written
  have first : i = 0 ∧ j = 1 := by omega
  rcases first with ⟨rfl, rfl⟩
  refine .single ⟨Nat.zero_lt_one, _, _, rfl, rfl, .inl ⟨(.gpr, 1), ?_, .inr (.inl ?_)⟩⟩
  · decide
  · decide

theorem keepsOrder_iff_guardsOrdered_tiedGuard : KeepsOrder shaderModel50 tiedGuard := by
  apply (keepsOrder_iff_guardsOrdered tiedGuard_inFiles).mpr tiedGuard_ordered
  refine ⟨tiedGuard_inFiles, ?_⟩
  intro instr member
  refine ⟨0, ?_⟩
  revert instr
  decide

/-- On SM50 the write of `p0` is moved above the instruction that `p0` guards. -/
theorem postpass_moves_guard : Schedulable shaderModel50 looseGuard ∧
    At Instr.DataConflict looseGuard 0 1 ∧ ¬ KeepsOrder shaderModel50 looseGuard := by
  have guarded : At Instr.DataConflict looseGuard 0 1 :=
    ⟨Nat.zero_lt_one, _, _, rfl, rfl, .inr ⟨(.pred, 0), by decide, .inr (by decide)⟩⟩
  refine ⟨⟨?_, ?_⟩, guarded, ?_⟩
  · simp [looseGuard, Instr.InFiles, Instr.new, Instr.dsts, Instr.srcs, Op.dsts, Op.srcs, Dst.asReg,
      Src.ofReg, SrcRef.getReg, RegRef.InFile, oneReg]
    decide
  · intro instr member
    refine ⟨0, ?_⟩
    revert instr
    decide
  · rintro ⟨order, cycles, ordered, -, -, kept⟩
    have moved : newOrder shaderModel50 looseGuard = .ok ([1, 0, 2, 3], 27) := by rfl
    rw [moved] at ordered
    cases ordered
    obtain ⟨below, a, b, here, there, conflict⟩ := guarded
    have first := kept 0 1 ⟨below, a, b, here, there, .inl conflict⟩
    revert first
    decide

end CoralReef.Postpass
