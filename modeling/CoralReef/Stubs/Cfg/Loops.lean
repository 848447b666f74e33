import CoralReef.Stubs.Cfg.Preorder
import Mathlib.Data.Set.Card

/-!
# Loop depths and loop headers

`compute_loop_depth` takes one back edge of every header, the first in the order of a hash map, and
`loop_header_index` climbs from a block to the next header above it, without asking whether the
block is in its loop.
-/

open List

namespace CoralReef.CFG

variable {α : Type} {cfg : CFG α} {keys rpo : List Nat} {doms : List (Option Nat)} {b h u x : Nat}
variable {edge : Nat × Nat} {edges : List (Nat × Nat)}

/-- A back edge of the graph. -/
def Back (cfg : CFG α) (u h : Nat) : Prop := BackEdge cfg.Edge 0 u h

/-- The block is in the natural loop of the header. -/
def LoopOf (cfg : CFG α) (h b : Nat) : Prop := InLoop cfg.Edge 0 h b

/-- The edges in the order in which the map of successors is iterated. -/
def edgeOrder (cfg : CFG α) (keys : List Nat) : List (Nat × Nat) :=
  keys.flatMap fun source => (cfg.successors source).map fun target => (source, target)

/-- The first back edge to the header in a list of edges. -/
def FirstBack (cfg : CFG α) (edges : List (Nat × Nat)) (h u : Nat) : Prop :=
  ∃ pre post, edges = pre ++ (u, h) :: post ∧ cfg.Back u h ∧ ∀ e ∈ pre, e.2 = h → ¬ cfg.Back e.1 h

/-- Some back edge leads to a block that can be reached. -/
def ReachesLoop (cfg : CFG α) : Prop := ∃ u h, cfg.Back u h ∧ cfg.Reached h

theorem mem_edgeOrder (listed : ∀ edge ∈ cfg.edges, edge.1 ∈ keys) :
    edge ∈ cfg.edgeOrder keys ↔ edge ∈ cfg.edges := by
  rcases edge with ⟨u, v⟩
  simp only [edgeOrder, mem_flatMap, mem_map, Prod.mk.injEq, mem_successors]
  constructor
  · rintro ⟨source, _, target, member, rfl, rfl⟩
    exact member
  · exact fun member => ⟨u, listed _ member, v, member, rfl, rfl⟩

theorem edge_iff (inside : cfg.EdgesIn) : cfg.Edge u x ↔ (u, x) ∈ cfg.edges :=
  ⟨fun edge => edge.1, fun member => ⟨member, inside _ member⟩⟩

theorem LoopOf.header (inLoop : cfg.LoopOf h b) : ∃ u, cfg.Back u h := inLoop.imp fun _ => And.left

theorem loopOf_self (back : cfg.Back u h) : cfg.LoopOf h h := ⟨u, back, .inl rfl⟩

/-- The header dominates the reachable blocks of its loop. -/
theorem LoopOf.dom (inLoop : cfg.LoopOf h b) : cfg.Dom h b := by
  rcases inLoop with ⟨u, back, rfl | ⟨apart, walk⟩⟩
  · exact .refl b
  · rcases back.2 with rfl | ⟨_, dom⟩
    · rcases Relation.ReflTransGen.cases_tail walk with same | ⟨_, _, step⟩
      · exact absurd same.symm apart
      · exact absurd rfl step.2
    · exact dom.of_walk walk (by simp)

theorem LoopOf.reaches (inLoop : cfg.LoopOf h b) (reach : cfg.Reached b) : cfg.Reached h :=
  inLoop.dom.reachable reach

/-! ## The blocks of a loop -/

theorem countP_predecessors (edges : List (Nat × Nat)) (inLoop : List Nat) {node : Nat}
    (fresh : node ∉ inLoop) :
    (edges.filterMap fun edge => if edge.2 = node then some edge.1 else none).length +
        edges.countP (fun edge => edge.2 ∉ node :: inLoop) =
      edges.countP (fun edge => edge.2 ∉ inLoop) := by
  induction edges with
  | nil => rfl
  | cons edge edges ih =>
    by_cases same : edge.2 = node
    · simp only [filterMap_cons, same, if_true, length_cons, countP_cons,
        mem_cons, true_or, not_true_eq_false, decide_false, Bool.false_eq_true, if_false, fresh,
        not_false_eq_true, decide_true, ← ih]
      omega
    · simp only [filterMap_cons, same, if_false, countP_cons, mem_cons, false_or, ← ih]
      omega

/-- The work that is left: the blocks on the stack and the edges to blocks that are not found. -/
def loopWork (cfg : CFG α) (stack inLoop : List Nat) : Nat :=
  stack.length + cfg.edges.countP (fun edge => edge.2 ∉ inLoop)

theorem loopWork_insert (cfg : CFG α) (stack : List Nat) {node : Nat} {inLoop : List Nat}
    (fresh : node ∉ inLoop) :
    cfg.loopWork ((cfg.predecessors node).reverse ++ stack) (node :: inLoop) + 1 =
      cfg.loopWork (node :: stack) inLoop := by
  have := countP_predecessors cfg.edges inLoop fresh
  simp only [loopWork, predecessors, length_append, length_reverse, length_cons]
  omega

/-- Only blocks that reach the source of the back edge past the header are found. -/
theorem loopBlocks_sound (inside : cfg.EdgesIn) (fuel : Nat) : ∀ stack inLoop, h ∈ inLoop →
    (∀ x ∈ stack, LoopBody cfg.Edge u h x) → (∀ x ∈ inLoop, LoopBody cfg.Edge u h x) →
      ∀ x ∈ cfg.loopBlocks fuel stack inLoop, LoopBody cfg.Edge u h x := by
  induction fuel with
  | zero => exact fun _ _ _ _ found => found
  | succ fuel ih =>
    intro stack inLoop header onStack found
    cases stack with
    | nil => exact found
    | cons node stack =>
      have later := fun x member => onStack x (mem_cons_of_mem node member)
      rw [loopBlocks]
      split
      · exact ih stack inLoop header later found
      · next fresh =>
        have apart : node ≠ h := by
          rintro rfl
          exact fresh header
        have here := onStack node mem_cons_self
        refine ih _ _ (mem_cons_of_mem node header) ?_ ?_
        · intro x member
          rcases mem_append.mp member with pred | member
          · have edge := (edge_iff inside).mpr (mem_predecessors.mp (mem_reverse.mp pred))
            by_cases same : x = h
            · exact .inl same
            · exact .inr ⟨same, .head ⟨edge, apart⟩ (here.resolve_left apart).2⟩
          · exact later x member
        · intro x member
          rcases mem_cons.mp member with rfl | member
          · exact here
          · exact found x member

/-- What is found is closed under the predecessors of all blocks but the header. -/
theorem loopBlocks_closed (fuel : Nat) : ∀ stack inLoop, cfg.loopWork stack inLoop < fuel →
    h ∈ inLoop →
    (∀ x ∈ inLoop, x ≠ h → ∀ p ∈ cfg.predecessors x, p ∈ inLoop ∨ p ∈ stack) →
      (∀ x, x ∈ inLoop ∨ x ∈ stack → x ∈ cfg.loopBlocks fuel stack inLoop) ∧
      ∀ x ∈ cfg.loopBlocks fuel stack inLoop, x ≠ h →
        ∀ p ∈ cfg.predecessors x, p ∈ cfg.loopBlocks fuel stack inLoop := by
  induction fuel with
  | zero =>
    intro stack inLoop enough
    omega
  | succ fuel ih =>
    intro stack inLoop enough header closed
    cases stack with
    | nil =>
      rw [loopBlocks]
      · refine ⟨fun x found => found.resolve_right (by simp), ?_⟩
        exact fun x member apart p pred => (closed x member apart p pred).resolve_right (by simp)
      · exact Nat.succ_ne_zero fuel
    | cons node stack =>
      rw [loopBlocks]
      split
      · next known =>
        have fewer : cfg.loopWork stack inLoop < fuel := by
          simp only [loopWork, length_cons] at enough ⊢
          omega
        rcases ih stack inLoop fewer header (by
          intro x member apart p pred
          rcases closed x member apart p pred with found | onStack
          · exact .inl found
          · rcases mem_cons.mp onStack with rfl | onStack
            · exact .inl known
            · exact .inr onStack) with ⟨all, closed'⟩
        refine ⟨?_, closed'⟩
        rintro x (found | onStack)
        · exact all x (.inl found)
        · rcases mem_cons.mp onStack with rfl | onStack
          · exact all x (.inl known)
          · exact all x (.inr onStack)
      · next fresh =>
        have fewer := loopWork_insert cfg stack fresh
        rcases ih ((cfg.predecessors node).reverse ++ stack) (node :: inLoop) (by omega) (mem_cons_of_mem node header) (by
          intro x member apart p pred
          rcases mem_cons.mp member with rfl | member
          · exact .inr (mem_append_left _ (mem_reverse.mpr pred))
          · rcases closed x member apart p pred with found | onStack
            · exact .inl (mem_cons_of_mem node found)
            · rcases mem_cons.mp onStack with rfl | onStack
              · exact .inl mem_cons_self
              · exact .inr (mem_append_right _ onStack)) with ⟨all, closed'⟩
        refine ⟨?_, closed'⟩
        rintro x (found | onStack)
        · exact all x (.inl (mem_cons_of_mem node found))
        · rcases mem_cons.mp onStack with rfl | onStack
          · exact all x (.inl mem_cons_self)
          · exact all x (.inr (mem_append_right _ onStack))

/-- The blocks found are those of the loop of the back edge. -/
theorem mem_loopBlocks (inside : cfg.EdgesIn) :
    x ∈ cfg.loopBlocks (cfg.edges.length + 2) [u] [h] ↔ LoopBody cfg.Edge u h x := by
  constructor
  · refine loopBlocks_sound inside _ _ _ mem_cons_self ?_ ?_ x
    · intro y member
      rw [mem_singleton.mp member]
      by_cases same : u = h
      · exact .inl same
      · exact .inr ⟨same, .refl⟩
    · exact fun y member => .inl (mem_singleton.mp member)
  · have few : cfg.edges.countP (fun edge => edge.2 ∉ [h]) ≤ cfg.edges.length :=
      countP_le_length
    rcases @loopBlocks_closed α cfg h (cfg.edges.length + 2) [u] [h]
      (by simp only [loopWork, length_singleton]; omega) mem_cons_self
      (fun y member apart => absurd (mem_singleton.mp member) apart) with ⟨all, closed⟩
    have walked : ∀ y, Within cfg.Edge (· ≠ h) y u →
        y ∈ cfg.loopBlocks (cfg.edges.length + 2) [u] [h] := by
      intro y walk
      induction walk using Relation.ReflTransGen.head_induction_on with
      | refl => exact all u (.inr mem_cons_self)
      | head step _ ih => exact closed _ ih step.2 _ (mem_predecessors.mpr step.1.1)
    rintro (rfl | ⟨_, walk⟩)
    · exact all x (.inl mem_cons_self)
    · exact walked x walk

/-! ## The depths -/

/-- The test of an edge finds the back edges. -/
theorem Exact.back_iff (exact : Exact cfg rpo doms) (order : IsOrder cfg rpo) (inside : cfg.EdgesIn)
    (member : edge ∈ cfg.edges) :
    domPathReaches doms (cfg.len + 1) edge.1 edge.2 = true ↔ cfg.Back edge.1 edge.2 := by
  rw [exact.reaches_iff order (Nat.lt_succ_self _)]
  exact ⟨fun found => ⟨(edge_iff inside).mpr member, found⟩, And.right⟩

theorem firstBack_snoc :
    cfg.FirstBack (edges ++ [edge]) h u ↔ cfg.FirstBack edges h u ∨
      (edge = (u, h) ∧ cfg.Back u h ∧ ∀ e ∈ edges, e.2 = h → ¬ cfg.Back e.1 h) := by
  constructor
  · rintro ⟨pre, post, split, back, fresh⟩
    rcases eq_nil_or_concat post with rfl | ⟨front, last, rfl⟩
    · rcases append_inj' split rfl with ⟨rfl, same⟩
      exact .inr ⟨(List.cons.inj same).1, back, fresh⟩
    · rw [concat_eq_append, ← cons_append, ← append_assoc] at split
      rcases append_inj' split rfl with ⟨rfl, _⟩
      exact .inl ⟨pre, front, rfl, back, fresh⟩
  · rintro (⟨pre, post, rfl, back, fresh⟩ | ⟨rfl, back, fresh⟩)
    · exact ⟨pre, post ++ [edge], by simp, back, fresh⟩
    · exact ⟨edges, [], rfl, back, fresh⟩

theorem FirstBack.mem (first : cfg.FirstBack edges h u) :
    (u, h) ∈ edges ∧ cfg.Back u h := by
  rcases first with ⟨pre, post, rfl, back, _⟩
  exact ⟨mem_append_right _ mem_cons_self, back⟩

/-- The headers whose first back edge has the block in its loop. -/
def countedLoops (cfg : CFG α) (edges : List (Nat × Nat)) (b : Nat) : Set Nat :=
  {h | ∃ u, cfg.FirstBack edges h u ∧ LoopBody cfg.Edge u h b}

theorem countedLoops_finite (edges : List (Nat × Nat)) (b : Nat) :
    (cfg.countedLoops edges b).Finite := by
  refine (finite_toSet (edges.map Prod.snd)).subset ?_
  rintro h ⟨u, first, _⟩
  exact mem_map.mpr ⟨(u, h), first.mem.1, rfl⟩

/-- The headers met and the depths after some edges. -/
structure Counted (cfg : CFG α) (edges : List (Nat × Nat)) (state : List Nat × List Nat) : Prop where
  processed : ∀ h, h ∈ state.1 ↔ ∃ e ∈ edges, e.2 = h ∧ cfg.Back e.1 h
  length : state.2.length = cfg.len
  depth : ∀ b, b < cfg.len → state.2.getD b 0 = (cfg.countedLoops edges b).ncard

/-- An edge that is not the first back edge to its header changes nothing. -/
theorem countedLoops_skip
    (skipped : cfg.Back edge.1 edge.2 → ∃ e ∈ edges, e.2 = edge.2 ∧ cfg.Back e.1 edge.2) (b : Nat) :
    cfg.countedLoops (edges ++ [edge]) b = cfg.countedLoops edges b := by
  ext h
  simp only [countedLoops, Set.mem_ofPred_eq]
  constructor
  · rintro ⟨u, first, body⟩
    rcases firstBack_snoc.mp first with first | ⟨rfl, back, fresh⟩
    · exact ⟨u, first, body⟩
    · rcases skipped back with ⟨e, early, same, back'⟩
      exact absurd back' (fresh e early same)
  · rintro ⟨u, first, body⟩
    exact ⟨u, firstBack_snoc.mpr (.inl first), body⟩

open Classical in
/-- The first back edge to a header counts its loop. -/
theorem countedLoops_first (back : cfg.Back u h) (fresh : ∀ e ∈ edges, e.2 = h → ¬ cfg.Back e.1 h)
    (b : Nat) :
    cfg.countedLoops (edges ++ [(u, h)]) b =
      if LoopBody cfg.Edge u h b then insert h (cfg.countedLoops edges b)
      else cfg.countedLoops edges b := by
  have other : ∀ v, ¬ cfg.FirstBack edges h v := fun v first =>
    fresh (v, h) first.mem.1 rfl first.mem.2
  ext g
  have shape : g ∈ cfg.countedLoops (edges ++ [(u, h)]) b ↔
      g ∈ cfg.countedLoops edges b ∨ g = h ∧ LoopBody cfg.Edge u h b := by
    simp only [countedLoops, Set.mem_ofPred_eq]
    constructor
    · rintro ⟨v, first, body⟩
      rcases firstBack_snoc.mp first with first | ⟨same, _, _⟩
      · exact .inl ⟨v, first, body⟩
      · cases same
        exact .inr ⟨rfl, body⟩
    · rintro (⟨v, first, body⟩ | ⟨rfl, body⟩)
      · exact ⟨v, firstBack_snoc.mpr (.inl first), body⟩
      · exact ⟨u, firstBack_snoc.mpr (.inr ⟨rfl, back, fresh⟩), body⟩
  rw [shape]
  split
  · next body => simp [body, or_comm]
  · next body => simp [body]

theorem Counted.step (exact : Exact cfg rpo doms) (order : IsOrder cfg rpo) (inside : cfg.EdgesIn)
    {state : List Nat × List Nat} (counted : Counted cfg edges state) (member : edge ∈ cfg.edges) :
    Counted cfg (edges ++ [edge]) (cfg.countLoop doms state edge) := by
  have bounds := inside edge member
  have test := exact.back_iff order inside member
  have split_mem : ∀ h, (∃ e ∈ edges ++ [edge], e.2 = h ∧ cfg.Back e.1 h) ↔
      (∃ e ∈ edges, e.2 = h ∧ cfg.Back e.1 h) ∨ edge.2 = h ∧ cfg.Back edge.1 h := by
    intro h
    simp only [mem_append, mem_singleton, or_and_right, exists_or, exists_eq_left]
  rw [countLoop]
  split
  · next skipped =>
    have skip : cfg.Back edge.1 edge.2 → edge.2 ∈ state.1 := by
      intro back
      rcases skipped with high | high | known | differs
      · omega
      · omega
      · exact known
      · rw [test.mpr back] at differs
        cases differs
    have skip' := fun back => (counted.processed edge.2).mp (skip back)
    refine ⟨?_, counted.length, ?_⟩
    · intro h
      rw [split_mem, counted.processed]
      refine ⟨.inl, ?_⟩
      rintro (early | ⟨rfl, back⟩)
      · exact early
      · exact skip' back
    · intro b below
      rw [countedLoops_skip skip' b, counted.depth b below]
  · next taken =>
    simp only [not_or, Bool.not_eq_false] at taken
    rcases taken with ⟨_, _, unknown, passes⟩
    have back := test.mp passes
    rcases edge with ⟨u, h⟩
    have fresh : ∀ e ∈ edges, e.2 = h → ¬ cfg.Back e.1 h := fun e early same back' =>
      unknown ((counted.processed h).mpr ⟨e, early, same, back'⟩)
    refine ⟨?_, ?_, ?_⟩
    · intro g
      rw [split_mem, mem_cons, counted.processed]
      constructor
      · rintro (rfl | early)
        · exact .inr ⟨rfl, back⟩
        · exact .inl early
      · rintro (early | ⟨same, _⟩)
        · exact .inr early
        · exact .inl same.symm
    · dsimp only
      rw [length_mapIdx]
      exact counted.length
    · intro b below
      have here : state.2[b]? = some (state.2.getD b 0) := by
        rw [getD_eq_getElem?_getD, List.getElem?_eq_getElem (by rw [counted.length]; exact below)]
        rfl
      have absent : h ∉ cfg.countedLoops edges b := by
        rintro ⟨v, first, _⟩
        exact fresh (v, h) first.mem.1 rfl first.mem.2
      dsimp only
      rw [countedLoops_first back fresh, getD_eq_getElem?_getD, List.getElem?_mapIdx, here]
      simp only [Option.map_some, Option.getD_some, counted.depth b below]
      split
      · next found =>
        rw [if_pos ((mem_loopBlocks inside).mp found),
          Set.ncard_insert_of_notMem absent (countedLoops_finite edges b)]
      · next missed => rw [if_neg (mt (mem_loopBlocks inside).mpr missed)]

/-- The depth of a block is the number of headers whose first back edge has it in its loop. -/
theorem getD_computeLoopDepth (exact : Exact cfg rpo doms) (order : IsOrder cfg rpo)
    (inside : cfg.EdgesIn) (listed : ∀ edge ∈ cfg.edges, edge.1 ∈ keys) (hasLoop : Bool)
    (below : b < cfg.len) : (cfg.computeLoopDepth keys doms hasLoop).getD b 0 =
      if hasLoop then (cfg.countedLoops (cfg.edgeOrder keys) b).ncard else 0 := by
  have start : Counted cfg [] ([], List.replicate cfg.len 0) := by
    refine ⟨by simp, length_replicate, ?_⟩
    intro b below
    have none : cfg.countedLoops [] b = ∅ := by
      ext h
      simp only [countedLoops, Set.mem_ofPred_eq, Set.mem_empty_iff_false, iff_false]
      rintro ⟨u, first, _⟩
      simpa using first.mem.1
    rw [none, Set.ncard_empty]
    simp [getD_eq_getElem?_getD, below]
  have run : ∀ todo edges state, (∀ e ∈ todo, e ∈ cfg.edges) → Counted cfg edges state →
      Counted cfg (edges ++ todo) (todo.foldl (cfg.countLoop doms) state) := by
    intro todo
    induction todo with
    | nil =>
      intro edges state _ counted
      rwa [append_nil]
    | cons edge todo ih =>
      intro edges state member counted
      have next := counted.step exact order inside (member edge mem_cons_self)
      have := ih (edges ++ [edge]) _ (fun e later => member e (mem_cons_of_mem edge later)) next
      rwa [append_assoc, singleton_append] at this
  have done := run (cfg.edgeOrder keys) [] _ (fun e member => (mem_edgeOrder listed).mp member) start
  rw [nil_append] at done
  rw [computeLoopDepth]
  split
  · exact done.depth b below
  · simp [getD_eq_getElem?_getD, below]

/-- `detect_back_edges` finds the loops that can be reached. -/
theorem detectBackEdges_iff (exact : Exact cfg rpo doms) (order : IsOrder cfg rpo)
    (inside : cfg.EdgesIn) : cfg.detectBackEdges doms = true ↔ cfg.ReachesLoop := by
  simp only [detectBackEdges, any_eq_true, Bool.and_eq_true, decide_eq_true_eq]
  constructor
  · rintro ⟨edge, member, ⟨_, isKnown⟩, passes⟩
    exact ⟨edge.1, edge.2, (exact.back_iff order inside member).mp passes,
      (exact.isSome_iff order).mp isKnown⟩
  · rintro ⟨u, h, back, reach⟩
    have member := back.1.1
    exact ⟨(u, h), member, ⟨⟨back.1.2.1, back.1.2.2⟩, (exact.isSome_iff order).mpr reach⟩,
      (exact.back_iff order inside member).mpr back⟩

/-! ## What an analysis says of loops -/

/-- The trees and depths of an analysis. -/
structure DomAnalysis.Loops (cfg : CFG α) (keys : List Nat) (analysis : DomAnalysis) : Prop where
  exact : Exact cfg cfg.reversePostOrder analysis.domParent
  counted : cfg.ReachesLoop → ∀ b, b < cfg.len →
    analysis.loopDepth.getD b 0 = (cfg.countedLoops (cfg.edgeOrder keys) b).ncard
  uncounted : ¬ cfg.ReachesLoop → ∀ b, b < cfg.len → analysis.loopDepth.getD b 0 = 0

theorem DomAnalysis.loops_of_computed {analysis : DomAnalysis} (nonempty : 0 < cfg.len)
    (inside : cfg.EdgesIn) (listed : ∀ edge ∈ cfg.edges, edge.1 ∈ keys)
    (computed : cfg.computeDomAnalysis keys = .ok analysis) : analysis.Loops cfg keys := by
  have order := isOrder_reversePostOrder cfg nonempty
  have notEmpty : cfg.reversePostOrder.isEmpty = false := by
    rcases order.first with ⟨rest, shape⟩
    rw [shape]
    rfl
  rw [computeDomAnalysis] at computed
  simp only [notEmpty, Bool.false_eq_true, if_false] at computed
  rcases bind_eq_ok.mp computed with ⟨doms, found, rest⟩
  cases rest
  have exact := computeDominators_exact nonempty found
  have detect := detectBackEdges_iff exact order inside
  refine ⟨exact, ?_, ?_⟩
  · intro some b below
    dsimp only
    rw [getD_computeLoopDepth exact order inside listed _ below, if_pos (detect.mpr some)]
  · intro none b below
    dsimp only
    rw [getD_computeLoopDepth exact order inside listed _ below, if_neg (mt detect.mp none)]

theorem countedLoops_subset : cfg.countedLoops (cfg.edgeOrder keys) b ⊆ {h | cfg.LoopOf h b} := by
  rintro h ⟨u, first, body⟩
  exact ⟨u, first.mem.2, body⟩

theorem loops_finite : {h | cfg.LoopOf h b}.Finite := by
  refine (Set.finite_lt_nat cfg.len).subset ?_
  rintro h ⟨u, back, _⟩
  exact back.1.2.2

/-- The loop of every header around the block is counted: the graph has a loop that can be reached,
and the block is in the loop of the first back edge to the header. -/
def AllCounted (cfg : CFG α) (keys : List Nat) (b : Nat) : Prop :=
  ∀ h, cfg.LoopOf h b →
    cfg.ReachesLoop ∧ ∃ u, cfg.FirstBack (cfg.edgeOrder keys) h u ∧ LoopBody cfg.Edge u h b

/-- `loop_depth` is the number of natural loops around the block exactly if each is counted. -/
theorem loopDepth_iff (inside : cfg.EdgesIn) (listed : ∀ edge ∈ cfg.edges, edge.1 ∈ keys)
    (below : b < cfg.len) :
    (Shallow cfg cfg.reversePostOrder 999 →
      ∃ analysis, cfg.computeDomAnalysis keys = .ok analysis) ∧
    ∀ analysis, cfg.computeDomAnalysis keys = .ok analysis →
      (analysis.answer cfg (.loopDepth b) = .number {h | cfg.LoopOf h b}.ncard ↔
        cfg.AllCounted keys b) := by
  refine ⟨computeDomAnalysis_ok keys, fun analysis computed => ?_⟩
  have loops := DomAnalysis.loops_of_computed (by omega) inside listed computed
  rw [DomAnalysis.answer, Answer.number.injEq]
  by_cases some : cfg.ReachesLoop
  · rw [loops.counted some b below]
    constructor
    · intro same h around
      have equal := Set.eq_of_subset_of_ncard_le (countedLoops_subset) same.ge
        loops_finite
      have member : h ∈ cfg.countedLoops (cfg.edgeOrder keys) b := equal ▸ around
      exact ⟨some, member⟩
    · intro all
      refine congrArg Set.ncard (Set.Subset.antisymm countedLoops_subset ?_)
      exact fun h around => (all h around).2
  · rw [loops.uncounted some b below]
    constructor
    · intro same h around
      rw [eq_comm, Set.ncard_eq_zero loops_finite] at same
      have member : h ∈ {h | cfg.LoopOf h b} := around
      rw [same] at member
      cases member
    · intro all
      rw [eq_comm, Set.ncard_eq_zero loops_finite]
      ext h
      exact ⟨fun around => absurd (all h around).1 some, fun member => by cases member⟩

/-! ## Headers -/

/-- The header of the innermost natural loop around the block. -/
def Innermost (cfg : CFG α) (h b : Nat) : Prop :=
  cfg.LoopOf h b ∧ ∀ h', cfg.LoopOf h' b → cfg.Dom h' h

/-- What `loop_header_index` is to return. -/
def HeaderOf (cfg : CFG α) (b : Nat) : Option Nat → Prop
  | some h => cfg.Innermost h b
  | none => ∀ h, ¬ cfg.LoopOf h b

/-- The next header above the block; the entry is above itself. -/
def NextHeader (cfg : CFG α) (h b : Nat) : Prop :=
  ((∃ u, cfg.Back u h) ∧ cfg.Dom h b ∧ (h ≠ b ∨ b = 0)) ∧
    ∀ h', (∃ u, cfg.Back u h') → cfg.Dom h' b → (h' ≠ b ∨ b = 0) → cfg.Dom h' h

theorem NextHeader.unique {h' : Nat} (next : cfg.NextHeader h b) (next' : cfg.NextHeader h' b)
    (reach : cfg.Reached b) : h = h' :=
  (next'.2 h next.1.1 next.1.2.1 next.1.2.2).antisymm
    (next.2 h' next'.1.1 next'.1.2.1 next'.1.2.2) (next'.1.2.1.reachable reach)

namespace DomAnalysis.Loops

variable {analysis : DomAnalysis} (loops : analysis.Loops cfg keys)
  (order : IsOrder cfg cfg.reversePostOrder) (inside : cfg.EdgesIn)

include loops order inside

theorem hasBackEdge_iff (below : h < cfg.len) :
    analysis.hasBackEdge cfg h = true ↔ ∃ u, cfg.Back u h := by
  simp only [hasBackEdge, any_eq_true, mem_predecessors]
  have each : ∀ u, (u, h) ∈ cfg.edges → (analysis.dominates h u = true ↔ cfg.Back u h) := by
    intro u member
    have bounds := inside _ member
    rw [dominates, loops.exact.length, if_neg (by omega),
      loops.exact.reaches_iff order (Nat.lt_succ_self _)]
    exact ⟨fun found => ⟨(edge_iff inside).mpr member, found⟩, And.right⟩
  constructor
  · rintro ⟨u, member, dom⟩
    exact ⟨u, (each u member).mp dom⟩
  · rintro ⟨u, back⟩
    exact ⟨u, back.1.1, (each u back.1.1).mpr back⟩

/-- At the entry the climb finds the entry or nothing, without end. -/
theorem climbToHeader_zero (nonempty : 0 < cfg.len) (none : ¬ ∃ u, cfg.Back u 0) (fuel : Nat) :
    analysis.climbToHeader cfg fuel 0 = .never := by
  induction fuel with
  | zero => rfl
  | succ fuel ih =>
    have notHeader : analysis.hasBackEdge cfg 0 = false := by
      rw [Bool.eq_false_iff]
      exact mt (loops.hasBackEdge_iff order inside nonempty).mp none
    rw [climbToHeader, loops.exact.root]
    simp [notHeader, ih]

/-- The climb from a reachable block returns the next header above it, or does not return. -/
theorem climbToHeader_spec (fuel : Nat) : ∀ b, cfg.Reached b →
    rpoNumber cfg.reversePostOrder b < fuel →
      (∃ h, analysis.climbToHeader cfg fuel b = .node (some h) ∧ cfg.NextHeader h b) ∨
      (analysis.climbToHeader cfg fuel b = .never ∧
        ∀ h, (∃ u, cfg.Back u h) → cfg.Dom h b → h = b ∧ b ≠ 0) := by
  induction fuel with
  | zero =>
    intro b _ enough
    omega
  | succ fuel ih =>
    intro b reach enough
    have inB := (order.mem b).mpr reach
    have nonempty : 0 < cfg.len := Nat.lt_of_le_of_lt (Nat.zero_le b) (order.inside b inB)
    by_cases entry : b = 0
    · subst entry
      by_cases some : ∃ u, cfg.Back u 0
      · refine .inl ⟨0, ?_, ⟨some, .refl 0, .inr rfl⟩, fun h' _ dom _ => dom⟩
        have header := (loops.hasBackEdge_iff order inside nonempty).mpr some
        rw [climbToHeader, loops.exact.root]
        simp [header]
      · refine .inr ⟨loops.climbToHeader_zero order inside nonempty some _, ?_⟩
        intro h header dom
        rw [dom.eq_entry] at header
        exact absurd header some
    · rcases exists_up (loops.exact.all b inB) entry with ⟨p, up⟩
      have lower := loops.exact.falls b p up
      have inP := loops.exact.inOrder p (loops.exact.known b p up)
      have domP : cfg.Dom p b := (loops.exact.climb b inB p).mp (.single up)
      have apart : p ≠ b := by
        rintro rfl
        omega
      have above : ∀ h, cfg.Dom h b → h ≠ b → cfg.Dom h p := fun h dom apart =>
        loops.exact.keeps b p h up dom apart
      have test := loops.hasBackEdge_iff order inside (order.inside p inP)
      rw [climbToHeader, up.1]
      dsimp only
      by_cases header : ∃ u, cfg.Back u p
      · rw [if_pos (test.mpr header)]
        refine .inl ⟨p, rfl, ⟨header, domP, .inl apart⟩, ?_⟩
        exact fun h' _ dom other => above h' dom (other.resolve_right entry)
      · rw [if_neg (mt test.mp header)]
        have notHeader : ∀ h, (∃ u, cfg.Back u h) → h ≠ p := fun h isHeader same =>
          header (same ▸ isHeader)
        rcases ih p ((order.mem p).mp inP) (by omega) with ⟨h, found, next⟩ | ⟨never, none⟩
        · refine .inl ⟨h, found, ⟨next.1.1, next.1.2.1.trans domP, ?_⟩, ?_⟩
          · refine .inl ?_
            rintro rfl
            exact notHeader _ next.1.1 (next.1.2.1.antisymm domP ((order.mem p).mp inP))
          · intro h' isHeader dom other
            exact next.2 h' isHeader (above h' dom (other.resolve_right entry))
              (.inl (notHeader h' isHeader))
        · refine .inr ⟨never, ?_⟩
          intro h isHeader dom
          by_cases same : h = b
          · exact ⟨same, entry⟩
          · exact absurd (none h isHeader (above h dom same)).1 (notHeader h isHeader)

end DomAnalysis.Loops

/-- A block in a loop gets the right header: it can be reached, it is not a header itself unless it
is the entry, the next header above it has it in its loop, and one of its loops is counted. -/
def HeaderFound (cfg : CFG α) (keys : List Nat) (b : Nat) : Prop :=
  (∃ h, cfg.LoopOf h b) →
    cfg.Reached b ∧ (b ≠ 0 → ∀ u, ¬ cfg.Back u b) ∧ (∀ h, cfg.NextHeader h b → cfg.LoopOf h b) ∧
      ∃ h u, cfg.FirstBack (cfg.edgeOrder keys) h u ∧ LoopBody cfg.Edge u h b

/-- `loop_header_index` returns the header of the innermost loop around the block exactly if it is
the next header above it and the block is counted. -/
theorem loopHeaderIndex_iff (inside : cfg.EdgesIn) (listed : ∀ edge ∈ cfg.edges, edge.1 ∈ keys)
    (below : b < cfg.len) :
    (Shallow cfg cfg.reversePostOrder 999 →
      ∃ analysis, cfg.computeDomAnalysis keys = .ok analysis) ∧
    ∀ analysis, cfg.computeDomAnalysis keys = .ok analysis →
      ((∃ header, analysis.answer cfg (.loopHeaderIndex b) = .node header ∧ cfg.HeaderOf b header) ↔
        cfg.HeaderFound keys b) := by
  refine ⟨computeDomAnalysis_ok keys, fun analysis computed => ?_⟩
  have loops := DomAnalysis.loops_of_computed (by omega) inside listed computed
  have order := isOrder_reversePostOrder cfg (by omega)
  -- The depth is 0 exactly if no loop around the block is counted.
  have deep : cfg.Reached b → (analysis.loopDepth.getD b 0 ≠ 0 ↔
      ∃ h u, cfg.FirstBack (cfg.edgeOrder keys) h u ∧ LoopBody cfg.Edge u h b) := by
    intro reach
    by_cases some : cfg.ReachesLoop
    · rw [loops.counted some b below, ne_eq, Set.ncard_eq_zero (countedLoops_finite _ b),
        ← ne_eq, ← Set.nonempty_iff_ne_empty]
      exact Iff.rfl
    · rw [loops.uncounted some b below]
      refine iff_of_false (by simp) ?_
      rintro ⟨h, u, first, body⟩
      have around : cfg.LoopOf h b := ⟨u, first.mem.2, body⟩
      exact some ⟨u, h, first.mem.2, around.reaches reach⟩
  have climbed : analysis.answer cfg (.loopHeaderIndex b) =
      if analysis.loopDepth.getD b 0 = 0 then .node none
      else analysis.climbToHeader cfg (analysis.domParent.length + 1) b := rfl
  rw [climbed]
  by_cases around : ∃ h, cfg.LoopOf h b
  · constructor
    · rintro ⟨header, answered, right⟩ _
      cases header with
      | none => exact absurd around (not_exists.mpr right)
      | some h =>
        split at answered
        · cases answered
        · next counted =>
          by_cases reach : cfg.Reached b
          · have few := order.rpoNumber_lt ((order.mem b).mpr reach)
            rcases loops.climbToHeader_spec order inside (analysis.domParent.length + 1) b reach
              (by rw [loops.exact.length]; omega) with ⟨h', found, next⟩ | ⟨never, _⟩
            · rw [found] at answered
              cases answered
              refine ⟨reach, ?_, ?_, (deep reach).mp counted⟩
              · intro notEntry u back
                have same := (right.2 b (loopOf_self back)).antisymm right.1.dom (right.1.reaches reach)
                exact next.1.2.2.elim (fun apart => apart same.symm) notEntry
              · intro h₁ next₁
                rw [next₁.unique next reach]
                exact right.1
            · rw [never] at answered
              cases answered
          · have absent : CFG.domParent analysis.domParent b = none := by
              rw [← Option.not_isSome_iff_eq_none, loops.exact.isSome_iff order]
              exact reach
            rw [DomAnalysis.climbToHeader, absent] at answered
            cases answered
    · intro found
      rcases found around with ⟨reach, notHeader, next_in, counted⟩
      have few := order.rpoNumber_lt ((order.mem b).mpr reach)
      have other : ∀ h, cfg.LoopOf h b → h ≠ b ∨ b = 0 := by
        intro h inLoop
        by_cases entry : b = 0
        · exact .inr entry
        · refine .inl ?_
          rintro rfl
          rcases inLoop.header with ⟨u, back⟩
          exact notHeader entry u back
      rw [if_neg ((deep reach).mpr counted)]
      rcases loops.climbToHeader_spec order inside (analysis.domParent.length + 1) b reach
        (by rw [loops.exact.length]; omega) with ⟨h, answered, next⟩ | ⟨_, none⟩
      · refine ⟨some h, answered, next_in h next, ?_⟩
        exact fun h' inLoop => next.2 h' inLoop.header inLoop.dom (other h' inLoop)
      · rcases around with ⟨h, inLoop⟩
        rcases none h inLoop.header inLoop.dom with ⟨same, notEntry⟩
        exact ((other h inLoop).elim (absurd same) notEntry).elim
  · refine iff_of_true ⟨none, ?_, not_exists.mp around⟩ fun inLoop => absurd inLoop around
    have shallow : analysis.loopDepth.getD b 0 = 0 := by
      by_cases some : cfg.ReachesLoop
      · rw [loops.counted some b below, Set.ncard_eq_zero (countedLoops_finite _ b)]
        ext h
        refine ⟨?_, fun member => by cases member⟩
        rintro ⟨u, first, body⟩
        exact absurd ⟨h, u, first.mem.2, body⟩ around
      · exact loops.uncounted some b below
    rw [if_pos shallow]

/-! ## Two graphs -/

/-- A loop from block 1 to block 2 and back. -/
def oneLoop : CFG Unit :=
  { blocks := [(), (), (), ()], edges := [(0, 1), (1, 2), (1, 3), (2, 1)] }

/-- The header of a loop that is not below another header is climbed from for ever. -/
theorem loopHeaderIndex_never : ∃ analysis, oneLoop.computeDomAnalysis [0, 1, 2] = .ok analysis ∧
    analysis.answer oneLoop (.loopHeaderIndex 1) = .never ∧
    analysis.answer oneLoop (.loopHeaderIndex 2) = .node (some 1) :=
  ⟨_, rfl, rfl, rfl⟩

theorem loopHeaderIndex_iff_oneLoop : 2 < oneLoop.len ∧
    ∀ analysis, oneLoop.computeDomAnalysis [0, 1, 2] = .ok analysis →
      ((∃ header, analysis.answer oneLoop (.loopHeaderIndex 2) = .node header ∧
        oneLoop.HeaderOf 2 header) ↔ oneLoop.HeaderFound [0, 1, 2] 2) :=
  ⟨by decide, (loopHeaderIndex_iff (by unfold EdgesIn; decide) (by decide) (by decide)).2⟩

/-- A loop with two blocks that lead back to its header. -/
def twoLatches : CFG Unit :=
  { blocks := [(), (), (), ()], edges := [(0, 1), (1, 2), (1, 3), (2, 1), (3, 1)] }

/-- The block of the second back edge is in the loop and has depth 0. -/
theorem loopDepth_second_latch : ∃ analysis,
    twoLatches.computeDomAnalysis [0, 1, 2, 3] = .ok analysis ∧
    analysis.answer twoLatches (.loopDepth 3) = .number 0 ∧ twoLatches.LoopOf 1 3 := by
  refine ⟨_, rfl, rfl, 3, ?_, .inr ⟨by decide, .refl⟩⟩
  have step : twoLatches.Edge 0 1 ∧ twoLatches.Edge 1 3 ∧ twoLatches.Edge 3 1 := by
    unfold Edge
    decide
  refine ⟨step.2.2, .inr ⟨⟨_, .step (.step .start step.1) step.2.1⟩, ?_⟩⟩
  intro nodes trail
  cases trail with
  | @step p _ nodes early edge =>
    have one : p = 1 := by
      have member := edge.1
      simp [twoLatches] at member
      omega
    subst one
    exact List.mem_cons_of_mem _ early.last_mem

theorem loopDepth_iff_twoLatches : 2 < twoLatches.len ∧
    ∀ analysis, twoLatches.computeDomAnalysis [0, 1, 2, 3] = .ok analysis →
      (analysis.answer twoLatches (.loopDepth 2) = .number {h | twoLatches.LoopOf h 2}.ncard ↔
        twoLatches.AllCounted [0, 1, 2, 3] 2) :=
  ⟨by decide, (loopDepth_iff (by unfold EdgesIn; decide) (by decide) (by decide)).2⟩

end CoralReef.CFG
