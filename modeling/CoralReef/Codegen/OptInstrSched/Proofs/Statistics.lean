import CoralReef.Codegen.OptInstrSched
import CoralReef.Misc.ListSchedule

/-!
# Statistics and queues

`calc_statistics` counts the edges of each node and finds those without any; the reversed graph has
the same edges; taking from a queue yields its greatest element.
-/

open List

namespace CoralReef

namespace DepGraph

variable {g : DepGraph}

/-- What `calc_statistics` has done for the nodes from `k` on. -/
structure Counted (g : DepGraph) (k : Nat) (state : DepGraph × List Nat) : Prop where
  len : state.1.len = g.len
  edges : state.1.outgoingEdges = g.outgoingEdges
  counts : ∀ i, k ≤ i → i < g.len → (state.1.label i).useCount = (g.heads i).length
  labels : ∀ i, (state.1.label i).readyCycle = (g.label i).readyCycle ∧
    (state.1.label i).execLatency = (g.label i).execLatency
  nodup : state.2.Nodup
  ready : ∀ i, i ∈ state.2 ↔ k ≤ i ∧ i < g.len ∧ g.heads i = []

theorem Counted.step (forward : ListSchedule.Forward g.len g.heads) {k : Nat}
    {state : DepGraph × List Nat} (inside : k < g.len) (counted : Counted g (k + 1) state) :
    ∃ state', calcNode state k = .ok state' ∧ Counted g k state' := by
  have up : ((state.1.outgoingEdges k).all fun e => decide (k < e.headIdx)) = true := by
    rw [all_eq_true, counted.edges]
    intro e member
    exact decide_eq_true (forward k e.headIdx (mem_map_of_mem member)).1
  let maxDelay := (state.1.outgoingEdges k).foldl
    (fun delay e => max delay ((state.1.label e.headIdx).cyclesToEnd + e.latency)) 0
  let useCount := (state.1.outgoingEdges k).length
  let label := Function.update state.1.label k
    { state.1.label k with cyclesToEnd := maxDelay, useCount }
  refine ⟨({ state.1 with label }, if useCount = 0 then state.2 ++ [k] else state.2), ?_, ?_⟩
  · rw [calcNode]
    dsimp only
    rw [up, assertThat_true, ok_bind]
    rfl
  · have isCount : useCount = (g.heads k).length := by
      simp only [useCount, heads, counted.edges, length_map]
    refine ⟨counted.len, counted.edges, ?_, ?_, ?_, ?_⟩
    · intro i from_ below
      by_cases same : i = k
      · subst same
        simp only [label, Function.update_self]
        exact isCount
      · simp only [label, Function.update_of_ne same]
        exact counted.counts i (by omega) below
    · intro i
      by_cases same : i = k
      · subst same
        simp only [label, Function.update_self]
        exact counted.labels i
      · simp only [label, Function.update_of_ne same]
        exact counted.labels i
    · split
      · rw [← concat_eq_append, nodup_concat]
        refine ⟨?_, counted.nodup⟩
        intro member
        have := ((counted.ready k).mp member).1
        omega
      · exact counted.nodup
    · intro i
      have zero : useCount = 0 ↔ g.heads k = [] := by rw [isCount, length_eq_zero_iff]
      by_cases same : i = k
      · subst same
        have absent : i ∉ state.2 := by
          intro member
          have := ((counted.ready i).mp member).1
          omega
        split
        next none => simp [inside, zero.mp none]
        next some =>
          simp only [absent, false_iff]
          rintro ⟨-, -, none⟩
          exact some (zero.mpr none)
      · have shift : (k ≤ i ∧ i < g.len ∧ g.heads i = []) ↔
            (k + 1 ≤ i ∧ i < g.len ∧ g.heads i = []) := by
          constructor
          · exact fun ⟨from_, rest⟩ => ⟨by omega, rest⟩
          · exact fun ⟨from_, rest⟩ => ⟨by omega, rest⟩
        rw [shift, ← counted.ready]
        split
        · simp [same]
        · rfl

/-- On a graph whose edges go up, `calc_statistics` returns. -/
theorem calcStatistics_ok (forward : ListSchedule.Forward g.len g.heads) :
    ∃ state, g.calcStatistics = .ok state ∧ Counted g 0 state := by
  have loop : ∀ k, k ≤ g.len → ∀ state, Counted g k state →
      ∃ state', (List.range k).reverse.foldlM calcNode state = .ok state' ∧ Counted g 0 state' := by
    intro k
    induction k with
    | zero => exact fun _ state counted => ⟨state, rfl, counted⟩
    | succ k ih =>
      intro inside state counted
      obtain ⟨state₁, first, counted₁⟩ := counted.step forward inside
      obtain ⟨state', rest, counted'⟩ := ih (by omega) state₁ counted₁
      refine ⟨state', ?_, counted'⟩
      rw [range_succ, reverse_append, reverse_singleton, singleton_append,
        foldlM_cons, first, ok_bind]
      exact rest
  apply loop g.len (Nat.le_refl _)
  refine ⟨rfl, rfl, fun i from_ below => by omega, fun i => ⟨rfl, rfl⟩, nodup_nil, ?_⟩
  intro i
  simp only [not_mem_nil, false_iff]
  omega

/-- The reversed graph has an edge to the tail for each edge to the head. -/
theorem count_reverse {tail head : Nat} (inside : tail < g.len) :
    (g.reverse.heads head).count tail = (g.heads tail).count head := by
  have one : ∀ t, (((g.outgoingEdges t).filterMap fun e =>
      if e.headIdx = head then some { e with headIdx := t } else none).map Edge.headIdx).count tail =
        if t = tail then (g.heads tail).count head else 0 := by
    intro t
    split
    next same =>
      subst same
      unfold heads
      induction g.outgoingEdges t with
      | nil => rfl
      | cons e edges ih =>
        by_cases isHead : e.headIdx = head
        · simp [isHead, ih]
        · simp [isHead, ih]
    next other =>
      rw [count_eq_zero]
      intro member
      obtain ⟨e, inEdges, isTail⟩ := mem_map.mp member
      obtain ⟨e', -, same⟩ := mem_filterMap.mp inEdges
      split at same
      · cases same
        exact other isTail
      · cases same
  have sum : ∀ n, ((List.range n).flatMap fun t => ((g.outgoingEdges t).filterMap fun e =>
      if e.headIdx = head then some { e with headIdx := t } else none).map Edge.headIdx).count tail =
        if tail < n then (g.heads tail).count head else 0 := by
    intro n
    induction n with
    | zero => rfl
    | succ n ih =>
      rw [range_succ, flatMap_append, count_append, ih, flatMap_singleton, one]
      split <;> split <;> split <;> omega
  rw [heads, reverse, map_flatMap, sum, if_pos inside]

/-- The reversed graph, with its statistics, has the edges of the graph turned around. -/
theorem Counted.reversed {state : DepGraph × List Nat} (counted : Counted g 0 state)
    (outside : ∀ i, g.len ≤ i → g.heads i = []) (t u : Nat) :
    (state.1.reverse.heads t).count u = (g.heads u).count t := by
  have sameHeads : state.1.heads = g.heads := by
    funext i
    rw [heads, counted.edges]
    rfl
  by_cases inside : u < state.1.len
  · rw [count_reverse inside, sameHeads]
  · rw [counted.len] at inside
    rw [outside u (Nat.le_of_not_lt inside), count_nil, count_eq_zero]
    intro member
    obtain ⟨e, inEdges, isTail⟩ := mem_map.mp member
    obtain ⟨tail, inRange, found⟩ := mem_flatMap.mp inEdges
    obtain ⟨e', -, same⟩ := mem_filterMap.mp found
    rw [mem_range, counted.len] at inRange
    split at same
    · cases same
      exact inside (isTail ▸ inRange)
    · cases same

end DepGraph

section Queues

variable {α : Type} {lt : α → α → Bool} {r : α → α → Prop}

theorem popMax_eq_none {items : List α} : popMax lt items = none ↔ items = [] := by
  cases items with
  | nil => exact ⟨fun _ => rfl, fun _ => rfl⟩
  | cons a rest =>
    rw [popMax]
    constructor
    · intro empty
      split at empty
      · cases empty
      · split at empty <;> cases empty
    · intro empty
      cases empty

/-- The element taken out and the others are those that were there. -/
theorem popMax_perm {items : List α} : ∀ {m : α} {others : List α},
    popMax lt items = some (m, others) → (m :: others).Perm items := by
  induction items with
  | nil =>
    intro m others popped
    cases popped
  | cons a rest ih =>
    intro m others popped
    rw [popMax] at popped
    split at popped
    next empty =>
      cases popped
      rw [popMax_eq_none.mp empty]
    next m' others' inRest =>
      split at popped
      · cases popped
        exact (List.Perm.swap a m others').trans ((ih inRest).cons a)
      · cases popped
        exact (ih inRest).cons a

/-- None of the others is above the element taken out. -/
theorem popMax_max (trans : ∀ a b c, r a b → r b c → r a c) (refl : ∀ a, r a a)
    (isLt : ∀ a b, lt a b = true → r a b) (notLt : ∀ a b, lt a b = false → r b a)
    {items : List α} : ∀ {m : α} {others : List α}, popMax lt items = some (m, others) →
      ∀ a ∈ items, r a m := by
  induction items with
  | nil =>
    intro m others popped
    cases popped
  | cons a rest ih =>
    intro m others popped
    rw [popMax] at popped
    split at popped
    next empty =>
      cases popped
      rw [popMax_eq_none.mp empty]
      simp [refl]
    next m' others' inRest =>
      split at popped
      next below =>
        cases popped
        intro b member
        rcases mem_cons.mp member with rfl | inside
        · exact isLt b m below
        · exact ih inRest b inside
      next above =>
        cases popped
        intro b member
        rcases mem_cons.mp member with rfl | inside
        · exact refl b
        · exact trans b m' a (ih inRest b inside) (notLt a m' (by simpa using above))

/-- The instruction that is ready first comes out of the queue first. -/
theorem FutureReadyInstr.popMax_first {future others : List FutureReadyInstr}
    {fri : FutureReadyInstr} (popped : popMax FutureReadyInstr.lt future = some (fri, others)) :
    ∀ other ∈ future, fri.readyCycle ≤ other.readyCycle := by
  refine popMax_max (r := fun a b => b.readyCycle ≤ a.readyCycle) ?_ ?_ ?_ ?_ popped
  · exact fun a b c first second => Nat.le_trans second first
  · exact fun a => Nat.le_refl _
  · intro a b isLt
    simp only [FutureReadyInstr.lt, Bool.or_eq_true, Bool.and_eq_true, decide_eq_true_eq] at isLt
    omega
  · intro a b notLt
    simp only [FutureReadyInstr.lt, Bool.or_eq_false_iff, decide_eq_false_iff_not] at notLt
    omega

end Queues

/-- The instructions moved are ready, and those left are not. -/
theorem moveReady_spec {label : Nat → NodeLabel} {cycle : Nat} : ∀ (fuel : Nat)
    (ready : List ReadyInstr) (future : List FutureReadyInstr), future.length ≤ fuel →
      ∃ moved left, moveReady label cycle fuel ready future =
          (moved.map (fun fri => ReadyInstr.new label fri.index) ++ ready, left) ∧
        (moved ++ left).Perm future ∧ (∀ fri ∈ moved, fri.readyCycle ≤ cycle) ∧
        ∀ fri ∈ left, cycle < fri.readyCycle := by
  intro fuel
  induction fuel with
  | zero =>
    intro ready future enough
    have empty := length_eq_zero_iff.mp (Nat.le_zero.mp enough)
    subst empty
    exact ⟨[], [], rfl, .refl _, by simp, by simp⟩
  | succ fuel ih =>
    intro ready future enough
    rw [moveReady]
    cases popped : popMax FutureReadyInstr.lt future with
    | none =>
      rw [popMax_eq_none] at popped
      subst popped
      exact ⟨[], [], rfl, .refl _, by simp, by simp⟩
    | some entry =>
      obtain ⟨fri, rest⟩ := entry
      have perm := popMax_perm popped
      have first := FutureReadyInstr.popMax_first popped
      dsimp only
      split
      next notYet =>
        refine ⟨[], future, rfl, .refl _, by simp, ?_⟩
        intro other member
        exact Nat.lt_of_lt_of_le notYet (first other member)
      next isReady =>
        have length := perm.length_eq
        rw [length_cons] at length
        obtain ⟨moved, left, result, perm', areReady, notYet⟩ :=
          ih (ReadyInstr.new label fri.index :: ready) rest (by omega)
        refine ⟨moved ++ [fri], left, ?_, ?_, ?_, notYet⟩
        · rw [result, map_append, append_assoc]
          rfl
        · refine List.Perm.trans ?_ perm
          rw [append_assoc]
          exact perm_middle.trans (perm'.cons fri)
        · intro other member
          rcases mem_append.mp member with earlier | last
          · exact areReady other earlier
          · rw [mem_singleton] at last
            exact last ▸ Nat.le_of_not_lt isReady

/-- Moving instructions from one queue to the other. -/
theorem waiting_move {ready : List ReadyInstr} {future moved left : List FutureReadyInstr}
    (perm : (moved ++ left).Perm future) (label : Nat → NodeLabel) :
    (future.map FutureReadyInstr.index ++ ready.map ReadyInstr.index).Perm
      (left.map FutureReadyInstr.index ++
        (moved.map (fun fri => ReadyInstr.new label fri.index) ++ ready).map ReadyInstr.index) := by
  rw [map_append, map_map, ← append_assoc]
  refine List.Perm.append_right _ ?_
  have both := perm.symm.map FutureReadyInstr.index
  rw [map_append] at both
  exact both.trans perm_append_comm

/-- Where no instruction is ready, the cycle goes on to that of one that will be. -/
theorem enough_forward {ready : List ReadyInstr} {future left : List FutureReadyInstr}
    {fri : FutureReadyInstr} {cycle bound fuel placed : Nat} (none : ready = [])
    (later : ∀ other ∈ future, cycle < other.readyCycle) (inLeft : fri ∈ left)
    (enough : bound ≤ fuel + 1 + placed +
      (if ready = [] ∧ ∀ other ∈ future, cycle < other.readyCycle then 0 else 1)) :
    bound ≤ fuel + placed + (if ([] : List ReadyInstr) = [] ∧
      ∀ other ∈ left, fri.readyCycle < other.readyCycle then 0 else 1) := by
  rw [if_pos ⟨none, later⟩] at enough
  rw [if_neg fun ⟨_, all⟩ => Nat.lt_irrefl _ (all fri inLeft)]
  omega

end CoralReef
