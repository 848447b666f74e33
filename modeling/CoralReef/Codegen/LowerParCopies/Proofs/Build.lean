import CoralReef.Codegen.LowerParCopies.Proofs.Graph

/-!
# The graph of a parallel copy

The two loops over the entries give each register one node and each copy one edge.
-/

open List
open Function (update update_eq_self update_self)

namespace CoralReef

namespace CopyGraph

@[simp] theorem src_addNode (graph : CopyGraph) (i : Nat) : graph.addNode.src i = graph.src i := by
  unfold addNode src
  by_cases inside : i < graph.nodes.length
  · rw [getElem?_append_left inside]
  · rw [getElem?_append_right (by omega), getElem?_eq_none (l := graph.nodes) (by omega)]
    cases i - graph.nodes.length <;> rfl

@[simp] theorem numReads_addNode (graph : CopyGraph) (i : Nat) :
    graph.addNode.numReads i = graph.numReads i := by
  unfold addNode numReads
  by_cases inside : i < graph.nodes.length
  · rw [getElem?_append_left inside]
  · rw [getElem?_append_right (by omega), getElem?_eq_none (l := graph.nodes) (by omega)]
    cases i - graph.nodes.length <;> rfl

theorem Ok.addNode {graph : CopyGraph} {size : Nat} (ok : graph.Ok size) :
    graph.addNode.Ok (size + 1) where
  length := by simp [CopyGraph.addNode, ok.length]
  bounds := by
    intro i j edge
    rw [src_addNode] at edge
    obtain ⟨iIn, jIn, distinct⟩ := ok.bounds i j edge
    exact ⟨by omega, by omega, distinct⟩
  counted := by
    intro j
    have same : readers graph.addNode.src (size + 1) j = readers graph.src size j := by
      ext i
      simp only [readers, Finset.mem_filter, Finset.mem_range, src_addNode]
      constructor
      · exact fun h => ⟨(ok.bounds i j h.2).1, h.2⟩
      · exact fun h => ⟨by omega, h.2⟩
    rw [numReads_addNode, same, ok.counted]

end CopyGraph

namespace LowerParCopy

variable {pc : OpParCopy}

/-- Each register operand has one node, which `regToIdx` finds. -/
structure Named (pc : OpParCopy) (operands : Operands) : Prop where
  ok : operands.graph.Ok operands.vals.length
  names : ∀ reg (i : Nat),
    operands.regToIdx.lookup reg = some i ↔ operands.vals[i]? = some (.reg reg)
  scalar : ∀ (i : Nat) reg, operands.vals[i]? = some (.reg reg) → reg.comps = 1
  apart : ∀ (i : Nat) reg, operands.vals[i]? = some (.reg reg) → ¬ IsTmp pc reg.loc

theorem Named.empty : Named pc {} where
  ok := {
    length := rfl
    bounds := by
      intro i j edge
      simp [CopyGraph.src] at edge
    counted := by
      intro j
      simp [CopyGraph.numReads, CopyGraph.readers] }
  names := by simp
  scalar := by simp
  apart := by simp

theorem getElem?_snoc {α : Type} (xs : List α) (x y : α) (i : Nat) :
    (xs ++ [x])[i]? = some y ↔ xs[i]? = some y ∨ i = xs.length ∧ x = y := by
  rw [getElem?_append]
  split
  · rename_i inside
    have : i ≠ xs.length := by omega
    simp [this]
  · rename_i outside
    rw [getElem?_eq_none (l := xs) (by omega)]
    by_cases last : i = xs.length
    · simp [last]
    · have : i - xs.length ≠ 0 := by omega
      simp [last, this]

theorem Named.addReg {operands : Operands} (named : Named pc operands) {reg : RegRef}
    (fresh : operands.regToIdx.lookup reg = none) (scalar : reg.comps = 1)
    (apart : ¬ IsTmp pc reg.loc) :
    Named pc { operands.addVal (.reg reg) with
      regToIdx := (reg, operands.vals.length) :: operands.regToIdx } := by
  have member : ∀ (i : Nat) other, (operands.vals ++ [SrcRef.reg reg])[i]? = some (.reg other) →
      operands.vals[i]? = some (.reg other) ∨ i = operands.vals.length ∧ reg = other := by
    intro i other h
    simpa using (getElem?_snoc _ _ _ i).mp h
  refine ⟨?_, ?_, ?_, ?_⟩
  · simpa [Operands.addVal] using named.ok.addNode
  · intro other i
    simp only [Operands.addVal, getElem?_snoc, SrcRef.reg.injEq, lookup_cons]
    by_cases same : other = reg
    · subst same
      have absent : operands.vals[i]? ≠ some (.reg other) := by
        intro present
        rw [← named.names, fresh] at present
        cases present
      simp [absent, eq_comm]
    · have differs : (other == reg) = false := by simpa using same
      simp [differs, named.names, Ne.symm same]
  · intro i other h
    rcases member i other h with old | ⟨-, rfl⟩
    · exact named.scalar i other old
    · exact scalar
  · intro i other h
    rcases member i other h with old | ⟨-, rfl⟩
    · exact named.apart i other old
    · exact apart

theorem Named.addImm {operands : Operands} (named : Named pc operands) {src : SrcRef}
    (notReg : ∀ reg, src ≠ .reg reg) : Named pc (operands.addVal src) := by
  have member : ∀ (i : Nat) other, (operands.vals ++ [src])[i]? = some (.reg other) ↔
      operands.vals[i]? = some (.reg other) := by
    intro i other
    simp [getElem?_snoc, notReg]
  refine ⟨?_, ?_, ?_, ?_⟩
  · simpa [Operands.addVal] using named.ok.addNode
  · intro other i
    rw [show (operands.addVal src).vals = operands.vals ++ [src] from rfl, member]
    exact named.names other i
  · exact fun i other h => named.scalar i other ((member i other).mp h)
  · exact fun i other h => named.apart i other ((member i other).mp h)

/-- The nodes of the destinations of `entries` come first. -/
def DstsFirst (entries : List (Dst × Src)) (operands : Operands) : Prop :=
  ∀ (i : Nat) dst src, entries[i]? = some (dst, src) →
    ∃ reg, dst = .reg reg ∧ operands.vals[i]? = some (.reg reg)

/-- The loop over the destinations. -/
theorem addDsts_ok (scalar : Scalar pc) :
    ∀ (rest done : List (Dst × Src)) (operands : Operands), pc.dstsSrcs = done ++ rest →
      Named pc operands → DstsFirst done operands → operands.vals.length = done.length →
      (∀ i, operands.graph.src i = none) →
      ∃ result, rest.foldlM (fun operands pair => addDst operands pair.1) operands = .ok result ∧
        Named pc result ∧ DstsFirst pc.dstsSrcs result ∧ ∀ i, result.graph.src i = none := by
  intro rest
  induction rest with
  | nil =>
    intro done operands split named first _ isolated
    rw [append_nil] at split
    exact ⟨operands, rfl, named, split ▸ first, isolated⟩
  | cons pair rest ih =>
    intro done operands split named first length isolated
    obtain ⟨dst, src⟩ := pair
    obtain ⟨reg, rfl, single, apart⟩ := scalar.dst (dst, src) (by simp [split])
    have fresh : operands.regToIdx.lookup reg = none := by
      rw [Option.eq_none_iff_forall_ne_some]
      intro i found
      rw [named.names] at found
      have inside : i < done.length := by
        rw [← length]
        exact (List.getElem?_eq_some_iff.mp found).1
      obtain ⟨other, isReg, atI⟩ :=
        first i done[i].1 done[i].2 (by rw [getElem?_eq_getElem inside])
      rw [found] at atI
      cases atI
      have distinct := scalar.distinct
      rw [split, map_append, nodup_append] at distinct
      refine distinct.2.2 (.reg reg) ?_ (.reg reg) (by simp) rfl
      exact mem_map.mpr ⟨done[i], getElem_mem inside, isReg⟩
    have step : addDst operands (.reg reg) = .ok { operands.addVal (.reg reg) with
        regToIdx := (reg, operands.vals.length) :: operands.regToIdx } := by
      simp only [addDst, Dst.asReg, expect_some, ok_bind, fresh, single, decide_true,
        assertThat_true]
      rfl
    rw [foldlM_cons, step, ok_bind]
    refine ih (done ++ [(.reg reg, src)]) _ (by simp [split]) (named.addReg fresh single apart)
      ?_ (by simp [Operands.addVal, length]) (by simp [Operands.addVal, isolated])
    intro i dst' src' atI
    rw [getElem?_snoc] at atI
    rcases atI with old | ⟨last, new⟩
    · obtain ⟨other, isReg, atI⟩ := first i dst' src' old
      exact ⟨other, isReg, (getElem?_snoc _ _ _ i).mpr (Or.inl atI)⟩
    · cases new
      exact ⟨reg, rfl, (getElem?_snoc _ _ _ i).mpr (Or.inr ⟨by omega, rfl⟩)⟩

/-- A step of the second loop only adds nodes at the end. -/
theorem DstsFirst.mono {entries : List (Dst × Src)} {operands result : Operands}
    (first : DstsFirst entries operands)
    (kept : ∀ (i : Nat) val, operands.vals[i]? = some val → result.vals[i]? = some val) :
    DstsFirst entries result := by
  intro i dst src atI
  obtain ⟨reg, isReg, here⟩ := first i dst src atI
  exact ⟨reg, isReg, kept i _ here⟩

/-- The node of a source holds it. -/
theorem srcNode_ok (scalar : Scalar pc) {dst : Dst} {src : Src} (member : (dst, src) ∈ pc.dstsSrcs)
    {operands : Operands} (named : Named pc operands) :
    ∃ result idx, srcNode operands src.reference = .ok (result, idx) ∧ Named pc result ∧
      (∀ (i : Nat) val, operands.vals[i]? = some val → result.vals[i]? = some val) ∧
      (∀ i, result.graph.src i = operands.graph.src i) ∧
      result.vals[idx]? = some src.reference := by
  have kept : ∀ (i : Nat) val, operands.vals[i]? = some val →
      (operands.vals ++ [src.reference])[i]? = some val :=
    fun i val h => (getElem?_snoc _ _ _ i).mpr (Or.inl h)
  have here : (operands.vals ++ [src.reference])[operands.vals.length]? = some src.reference :=
    (getElem?_snoc _ _ _ _).mpr (Or.inr ⟨rfl, rfl⟩)
  by_cases isReg : ∃ reg, src.reference = .reg reg
  · obtain ⟨reg, isReg⟩ := isReg
    obtain ⟨-, single, apart⟩ := scalar.src (dst, src) member reg (by simp [isReg, SrcRef.getReg])
    cases found : operands.regToIdx.lookup reg with
    | some idx =>
      refine ⟨operands, idx, ?_, named, fun _ _ h => h, fun _ => rfl, ?_⟩
      · simp only [srcNode, isReg, single, decide_true, assertThat_true, ok_bind, found]
        rfl
      · rw [isReg]
        exact (named.names reg idx).mp found
    | none =>
      rw [isReg] at kept here
      rw [isReg]
      refine ⟨_, operands.vals.length, ?_, named.addReg found single apart, kept, ?_, here⟩
      · simp only [srcNode, single, decide_true, assertThat_true, ok_bind, found]
        rfl
      · simp [Operands.addVal]
  · have notReg : ∀ reg, src.reference ≠ .reg reg := fun reg h => isReg ⟨reg, h⟩
    have notBindless : src.reference.getReg = none := by
      by_contra some
      obtain ⟨reg, h⟩ := Option.ne_none_iff_exists'.mp some
      exact notReg reg (scalar.src (dst, src) member reg h).1
    refine ⟨operands.addVal src.reference, operands.vals.length, ?_, named.addImm notReg, kept, ?_,
      here⟩
    · cases isRef : src.reference with
      | reg reg => exact absurd isRef (notReg reg)
      | _ =>
        rw [isRef] at notBindless
        simp only [srcNode, notBindless, decide_true, assertThat_true, ok_bind]
        rfl
    · simp [Operands.addVal]

/-- The node that each of `entries` reads, or its own if it copies itself, holds its source. -/
def EdgesOf (entries : List (Dst × Src)) (operands : Operands) : Prop :=
  ∀ (i : Nat) dst src, entries[i]? = some (dst, src) →
    operands.vals[(operands.graph.src i).getD i]? = some src.reference

/-- The loop over the copies. -/
theorem addCopies_ok (scalar : Scalar pc) :
    ∀ (rest done : List (Dst × Src)) (operands : Operands), pc.dstsSrcs = done ++ rest →
      Named pc operands → DstsFirst pc.dstsSrcs operands → EdgesOf done operands →
      (∀ i, done.length ≤ i → operands.graph.src i = none) →
      ∃ result, (rest.zipIdx done.length).foldlM
          (fun operands entry => addCopy operands entry.2 entry.1.2) operands = .ok result ∧
        Named pc result ∧ DstsFirst pc.dstsSrcs result ∧ EdgesOf pc.dstsSrcs result ∧
        ∀ i, pc.dstsSrcs.length ≤ i → result.graph.src i = none := by
  intro rest
  induction rest with
  | nil =>
    intro done operands split named first edges later
    rw [append_nil] at split
    exact ⟨operands, rfl, named, first, split ▸ edges, split ▸ later⟩
  | cons pair rest ih =>
    intro done operands split named first edges later
    obtain ⟨dst, src⟩ := pair
    have member : (dst, src) ∈ pc.dstsSrcs := by simp [split]
    have atDone : pc.dstsSrcs[done.length]? = some (dst, src) := by simp [split]
    obtain ⟨mid, idx, node, namedMid, kept, sameSrc, atIdx⟩ := srcNode_ok scalar member named
    obtain ⟨reg, isReg, ownMid⟩ := first.mono kept done.length dst src atDone
    have edgesMid : EdgesOf done mid := by
      intro i dst' src' atI
      rw [sameSrc]
      exact kept _ _ (edges i dst' src' atI)
    have free : mid.graph.src done.length = none := by rw [sameSrc, later _ le_rfl]
    have step : ∃ result, addCopy operands done.length src = .ok result ∧ Named pc result ∧
        result.vals = mid.vals ∧
        result.graph.src = update mid.graph.src done.length
          (if done.length = idx then none else some idx) := by
      have unmodified := scalar.unmodified _ member
      by_cases self : done.length = idx
      · refine ⟨mid, ?_, namedMid, rfl, ?_⟩
        · simp only [addCopy, unmodified, assertThat_true, ok_bind, node, ne_eq, self, not_true,
            ↓reduceIte]
          rfl
        · rw [if_pos self, ← free, update_eq_self]
      · obtain ⟨graph, added, ok, extended⟩ := namedMid.ok.addEdge
          (List.getElem?_eq_some_iff.mp ownMid).1 (List.getElem?_eq_some_iff.mp atIdx).1 self free
        refine ⟨{ mid with graph }, ?_, ⟨ok, namedMid.names, namedMid.scalar, namedMid.apart⟩,
          rfl, ?_⟩
        · simp only [addCopy, unmodified, assertThat_true, ok_bind, node, ne_eq, self,
            not_false_eq_true, ↓reduceIte, added]
          rfl
        · rw [if_neg self, extended]
    obtain ⟨next, stepped, namedNext, vals, srcNext⟩ := step
    rw [zipIdx_cons, foldlM_cons, stepped, ok_bind]
    have length : (done ++ [(dst, src)]).length = done.length + 1 := by simp
    rw [← length]
    refine ih (done ++ [(dst, src)]) next (by simp [split]) namedNext
      (first.mono (fun i val h => vals ▸ kept i val h)) ?_ ?_
    · intro i dst' src' atI
      rw [vals, srcNext]
      rcases (getElem?_snoc _ _ _ i).mp atI with old | ⟨rfl, new⟩
      · have before := (List.getElem?_eq_some_iff.mp old).1
        rw [Function.update_of_ne (by omega)]
        exact edgesMid i dst' src' old
      · cases new
        rw [update_self]
        split
        · rename_i self
          rw [Option.getD_none, self, atIdx]
        · exact atIdx
    · intro i after
      rw [length] at after
      rw [srcNext, Function.update_of_ne (by omega), sameSrc, later i (by omega)]

/-- The graph of a scalar parallel copy is built, and says what each destination has to read. -/
theorem build_ok (scalar : Scalar pc) :
    ∃ operands, build pc = .ok operands ∧ Named pc operands ∧ DstsFirst pc.dstsSrcs operands ∧
      EdgesOf pc.dstsSrcs operands ∧
      ∀ i, pc.dstsSrcs.length ≤ i → operands.graph.src i = none := by
  obtain ⟨start, first, named, dsts, isolated⟩ := addDsts_ok scalar pc.dstsSrcs [] {} rfl
    Named.empty (by simp [DstsFirst]) rfl (by simp [CopyGraph.src])
  obtain ⟨operands, second, rest⟩ := addCopies_ok scalar pc.dstsSrcs [] start rfl named dsts
    (by simp [EdgesOf]) (fun i _ => isolated i)
  refine ⟨operands, ?_, rest⟩
  simp only [build, first, ok_bind]
  exact second

end LowerParCopy

end CoralReef
