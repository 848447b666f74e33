import CoralReef.Codegen.LowerParCopies
import Mathlib.Data.Finset.Card

/-! # The copy graph as a pair of functions

`CopyGraph.src` and `CopyGraph.numReads` after each operation, and the invariant that the
second counts the edges of the first. -/

open List
open Function (update update_eq_self update_of_ne update_self)

namespace CoralReef.CopyGraph

variable {graph : CopyGraph} {src : Nat → Option Nat}

/-- The nodes that have to read `node`. -/
def readers (src : Nat → Option Nat) (size node : Nat) : Finset Nat :=
  (Finset.range size).filter fun i => src i = some node

/-- The nodes that have to read another. -/
def pending (src : Nat → Option Nat) (size : Nat) : Finset Nat :=
  (Finset.range size).filter fun i => (src i).isSome

/-- The graph has `size` nodes, its edges join two of them, and `numReads` counts them. -/
structure Ok (graph : CopyGraph) (size : Nat) : Prop where
  length : graph.nodes.length = size
  bounds : ∀ i j, graph.src i = some j → i < size ∧ j < size ∧ i ≠ j
  counted : ∀ j, graph.numReads j = (readers graph.src size j).card

@[simp] theorem setNode_length (graph : CopyGraph) (node : Nat) (value : CopyNode) :
    (graph.setNode node value).nodes.length = graph.nodes.length := by
  simp [setNode]

theorem src_setNode {node : Nat} (inside : node < graph.nodes.length) (value : CopyNode) :
    (graph.setNode node value).src = update graph.src node value.src := by
  funext k
  by_cases same : k = node
  · subst same
    simp [setNode, src, inside]
  · simp [setNode, src, getElem?_set_ne (Ne.symm same), update_of_ne same]

theorem numReads_setNode {node : Nat} (inside : node < graph.nodes.length) (value : CopyNode) :
    (graph.setNode node value).numReads = update graph.numReads node value.numReads := by
  funext k
  by_cases same : k = node
  · subst same
    simp [setNode, numReads, inside]
  · simp [setNode, numReads, getElem?_set_ne (Ne.symm same), update_of_ne same]

theorem mem_pending {size : Nat} (ok : graph.Ok size) (i : Nat) :
    i ∈ pending graph.src size ↔ (graph.src i).isSome := by
  simp only [pending, Finset.mem_filter, Finset.mem_range, and_iff_right_iff_imp]
  intro some
  obtain ⟨j, edge⟩ := Option.isSome_iff_exists.mp some
  exact (ok.bounds i j edge).1

theorem numReads_eq_zero {size : Nat} (ok : graph.Ok size) (j : Nat) :
    graph.numReads j = 0 ↔ ∀ k, graph.src k ≠ some j := by
  rw [ok.counted, Finset.card_eq_zero, readers, Finset.filter_eq_empty_iff]
  constructor
  · intro none k edge
    exact none (Finset.mem_range.mpr (ok.bounds k j edge).1) edge
  · intro none k _
    exact none k

theorem readers_update_none {size i j : Nat} (inside : i < size) (edge : src i = some j) (k : Nat) :
    (readers (update src i none) size k).card =
      if k = j then (readers src size k).card - 1 else (readers src size k).card := by
  split
  · rename_i same
    subst same
    rw [← Finset.card_erase_of_mem (s := readers src size k) (a := i)
      (by simp [readers, inside, edge])]
    congr 1
    ext l
    by_cases li : l = i <;> simp [readers, li]
  · rename_i other
    congr 1
    ext l
    by_cases li : l = i
    · subst li
      simp [readers, edge, Ne.symm other]
    · simp [readers, update_of_ne li]

theorem readers_update_some {size i : Nat} (inside : i < size) (free : src i = none) (j k : Nat) :
    (readers (update src i (some j)) size k).card =
      if k = j then (readers src size k).card + 1 else (readers src size k).card := by
  split
  · rename_i same
    subst same
    rw [← Finset.card_insert_of_notMem (s := readers src size k) (a := i) (by simp [readers, free])]
    congr 1
    ext l
    by_cases li : l = i
    · subst li
      simp [readers, inside]
    · simp [readers, li]
  · rename_i other
    congr 1
    ext l
    by_cases li : l = i
    · subst li
      simp [readers, free, Ne.symm other]
    · simp [readers, update_of_ne li]

theorem pending_update_none {size i j : Nat} (inside : i < size) (edge : src i = some j) :
    (pending (update src i none) size).card + 1 = (pending src size).card := by
  have member : i ∈ pending src size := by simp [pending, inside, edge]
  rw [← Finset.card_erase_add_one member]
  congr 2
  ext l
  by_cases li : l = i
  · subst li
    simp [pending]
  · simp [pending, li]

/-- `addEdge` between two distinct nodes, the first of which reads nothing yet. -/
theorem Ok.addEdge {size dst src : Nat} (ok : graph.Ok size) (dstIn : dst < size)
    (srcIn : src < size) (distinct : dst ≠ src) (free : graph.src dst = none) :
    ∃ result, graph.addEdge dst src = .ok result ∧ result.Ok size ∧
      result.src = update graph.src dst (some src) := by
  have dstLength : dst < graph.nodes.length := ok.length ▸ dstIn
  have srcLength : ∀ value, src < (graph.setNode dst value).nodes.length := by
    intro value
    rw [setNode_length, ok.length]
    exact srcIn
  refine ⟨_, by simp only [CopyGraph.addEdge, distinct, free, ne_eq, not_false_eq_true, decide_true,
    assertThat_true, ok_bind]; rfl, ?_, ?_⟩
  case refine_2 =>
    rw [src_setNode (srcLength _), update_eq_self, src_setNode dstLength]
  · have srcEq : ((graph.setNode dst ⟨graph.numReads dst, some src⟩).setNode src
        ⟨(graph.setNode dst ⟨graph.numReads dst, some src⟩).numReads src + 1,
          (graph.setNode dst ⟨graph.numReads dst, some src⟩).src src⟩).src =
        update graph.src dst (some src) := by
      rw [src_setNode (srcLength _), update_eq_self, src_setNode dstLength]
    refine ⟨by simp [ok.length], ?_, ?_⟩
    · rw [srcEq]
      intro i j edge
      by_cases same : i = dst
      · subst same
        rw [update_self] at edge
        cases edge
        exact ⟨dstIn, srcIn, distinct⟩
      · rw [update_of_ne same] at edge
        exact ok.bounds i j edge
    · intro j
      rw [srcEq, readers_update_some dstIn free, numReads_setNode (srcLength _),
        numReads_setNode dstLength, update_eq_self]
      by_cases same : j = src
      · subst same
        simp [ok.counted]
      · simp [same, ok.counted]

/-- `delEdge` on an edge of the graph; the flag tells whether the source is read any more. -/
theorem Ok.delEdge {size dst src : Nat} (ok : graph.Ok size) (edge : graph.src dst = some src) :
    ∃ result flag, graph.delEdge dst src = .ok (result, flag) ∧ result.Ok size ∧
      result.src = update graph.src dst none ∧
      (flag = true ↔ ∀ k, result.src k ≠ some src) := by
  obtain ⟨dstIn, srcIn, distinct⟩ := ok.bounds dst src edge
  have dstLength : dst < graph.nodes.length := ok.length ▸ dstIn
  have srcLength : ∀ value, src < (graph.setNode dst value).nodes.length := by
    intro value
    rw [setNode_length, ok.length]
    exact srcIn
  let result := (graph.setNode dst ⟨graph.numReads dst, none⟩).setNode src
    ⟨(graph.setNode dst ⟨graph.numReads dst, none⟩).numReads src - 1,
      (graph.setNode dst ⟨graph.numReads dst, none⟩).src src⟩
  have srcEq : result.src = update graph.src dst none := by
    rw [src_setNode (srcLength _), update_eq_self, src_setNode dstLength]
  have resultOk : result.Ok size := by
    refine ⟨by simp [result, ok.length], ?_, ?_⟩
    · rw [srcEq]
      intro i j h
      by_cases same : i = dst
      · subst same
        simp at h
      · rw [update_of_ne same] at h
        exact ok.bounds i j h
    · intro j
      rw [srcEq, readers_update_none dstIn edge, numReads_setNode (srcLength _),
        numReads_setNode dstLength, update_eq_self]
      by_cases same : j = src
      · subst same
        simp [ok.counted]
      · simp [same, ok.counted]
  refine ⟨result, result.numReads src == 0, ?_, resultOk, srcEq, ?_⟩
  · simp only [CopyGraph.delEdge, edge, Option.isSome_some, assertThat_true, ok_bind]
    rfl
  · rw [beq_iff_eq]
    exact numReads_eq_zero resultOk src

end CoralReef.CopyGraph
