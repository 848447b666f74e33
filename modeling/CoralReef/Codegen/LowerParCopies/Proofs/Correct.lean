import CoralReef.Codegen.LowerParCopies.Proofs.Build
import CoralReef.Codegen.LowerParCopies.Proofs.Loops

/-!
# The lowering of parallel copies is correct

The emitted copies and swaps assign all the sources at once.
-/

open List

namespace CoralReef.LowerParCopy

open ParallelMove CopyGraph

variable {pc : OpParCopy}

theorem Named.placed {operands : Operands} (named : Named pc operands)
    (first : DstsFirst pc.dstsSrcs operands) : Placed pc operands.vals where
  scalar := named.scalar
  unique := by
    intro i j reg atI atJ
    rw [← named.names] at atI atJ
    rw [atI] at atJ
    exact Option.some.inj atJ
  apart := named.apart
  dst := by
    intro i inside
    obtain ⟨reg, -, here⟩ := first i pc.dstsSrcs[i].1 pc.dstsSrcs[i].2
      (by rw [List.getElem?_eq_getElem inside])
    exact ⟨reg, here⟩

/-- The graph that `build` returns, with what `build_ok` says of it. -/
structure Built (pc : OpParCopy) (operands : Operands) : Prop where
  named : Named pc operands
  first : DstsFirst pc.dstsSrcs operands
  edges : EdgesOf pc.dstsSrcs operands
  later : ∀ i, pc.dstsSrcs.length ≤ i → operands.graph.src i = none

namespace Built

variable {operands : Operands}

/-- An edge is a copy between two different operands. -/
theorem edge (built : Built pc operands) {i j : Nat} (read : operands.graph.src i = some j) :
    ∃ dst src, pc.dstsSrcs[i]? = some (.reg dst, src) ∧ operands.vals[i]? = some (.reg dst) ∧
      operands.vals[j]? = some src.reference ∧ src.reference ≠ .reg dst := by
  have inside : i < pc.dstsSrcs.length := by
    by_contra outside
    rw [built.later i (by omega)] at read
    cases read
  have entry : pc.dstsSrcs[i]? = some (pc.dstsSrcs[i].1, pc.dstsSrcs[i].2) := by
    rw [List.getElem?_eq_getElem inside]
  obtain ⟨dst, isReg, atI⟩ := built.first i _ _ entry
  have atJ := built.edges i _ _ entry
  rw [read, Option.getD_some] at atJ
  refine ⟨dst, pc.dstsSrcs[i].2, by rw [entry, isReg], atI, atJ, ?_⟩
  intro self
  rw [self] at atJ
  exact (built.named.ok.bounds i j read).2.2
    ((built.named.placed built.first).unique i j dst atI atJ)

/-- An edge between two destinations is a read of one entry by another. -/
theorem reads (built : Built pc operands) {i j : Nat} (read : operands.graph.src i = some j)
    (inside : j < pc.dstsSrcs.length) : Reads pc i j := by
  obtain ⟨dst, src, entry, -, atJ, -⟩ := built.edge read
  have entryJ : pc.dstsSrcs[j]? = some (pc.dstsSrcs[j].1, pc.dstsSrcs[j].2) := by
    rw [List.getElem?_eq_getElem inside]
  obtain ⟨reg, isReg, here⟩ := built.first j _ _ entryJ
  rw [here] at atJ
  refine ⟨(built.named.ok.bounds i j read).2.2, .reg dst, src, reg, pc.dstsSrcs[j].2, entry, ?_, ?_⟩
  · rw [entryJ, isReg]
  · exact (Option.some.inj atJ).symm

theorem covers (built : Built pc operands) : Covers pc operands.vals operands.graph.src where
  dst := by
    intro i j read
    by_contra outside
    rw [built.later i (by omega)] at read
    cases read
  val := by
    intro i j read
    obtain ⟨-, src, -, -, atJ, -⟩ := built.edge read
    exact ⟨src.reference, atJ⟩

/-- The ready list the first phase starts with. -/
theorem ready (built : Built pc operands) :
    ReadyInv operands.graph.src operands.graph
      ((List.range pc.dstsSrcs.length).filter fun i => operands.graph.numReads i = 0).reverse
      operands.vals.length where
  ok := built.named.ok
  sub := fun _ _ read => read
  unread := by
    intro i member
    rw [mem_reverse, mem_filter, decide_eq_true_eq] at member
    exact (numReads_eq_zero built.named.ok i).mp member.2
  complete := by
    intro i isPending unread
    obtain ⟨j, read⟩ := Option.isSome_iff_exists.mp isPending
    rw [mem_reverse, mem_filter, mem_range, decide_eq_true_eq]
    exact ⟨built.covers.dst i j read, (numReads_eq_zero built.named.ok i).mpr unread⟩

theorem pending_card (built : Built pc operands) :
    (pending operands.graph.src operands.vals.length).card ≤ pc.dstsSrcs.length := by
  have inside : pending operands.graph.src operands.vals.length ⊆
      Finset.range pc.dstsSrcs.length := by
    intro i member
    obtain ⟨j, read⟩ := Option.isSome_iff_exists.mp ((mem_pending built.named.ok i).mp member)
    exact Finset.mem_range.mpr (built.covers.dst i j read)
  have := Finset.card_le_card inside
  rwa [Finset.card_range] at this

/-- What the ready loop leaves is cycles, each node of which is on a cycle of entries. -/
theorem cycles (built : Built pc operands) {graph : CopyGraph}
    (inv : ReadyInv operands.graph.src graph [] operands.vals.length) :
    Cyclic graph.src ∧ ∀ i, (graph.src i).isSome → OnCycle pc i := by
  have cyclic : Cyclic graph.src := by
    refine cyclic_of_read (pending graph.src operands.vals.length) (mem_pending inv.ok) ?_
    intro i member
    by_contra unread
    have := inv.complete i ((mem_pending inv.ok i).mp member) (fun k read => unread ⟨k, read⟩)
    cases this
  refine ⟨cyclic, ?_⟩
  intro i isPending
  refine Relation.TransGen.mono (p := Reads pc) ?_ i i
    (cyclic.transGen _ (mem_pending inv.ok) isPending)
  intro a b read
  obtain ⟨c, read'⟩ :=
    Option.isSome_iff_exists.mp ((cyclic.pending a b read).resolve_right id)
  exact built.reads (inv.sub a b read) (built.covers.dst b c (inv.sub b c read'))

theorem cycleInv (built : Built pc operands) (supplied : Supplied pc) {graph : CopyGraph}
    (inv : ReadyInv operands.graph.src graph [] operands.vals.length) :
    CycleInv pc operands.vals graph.src := by
  obtain ⟨cyclic, onCycle⟩ := built.cycles inv
  have entry : ∀ i a, (graph.src i).isSome → operands.vals[i]? = some (.reg a) →
      ∃ src, pc.dstsSrcs[i]? = some (.reg a, src) := by
    intro i a isPending atI
    obtain ⟨j, read⟩ := Option.isSome_iff_exists.mp isPending
    obtain ⟨dst, src, entry, here, -, -⟩ := built.edge (inv.sub i j read)
    rw [atI] at here
    cases here
    exact ⟨src, entry⟩
  refine ⟨fun i j read => built.covers.dst i j (inv.sub i j read), ?_, ?_, ?_⟩
  · intro i j a b read atI atJ
    have isPending : (graph.src i).isSome := by simp [read]
    have isPending' : (graph.src j).isSome := (cyclic.pending i j read).resolve_right id
    obtain ⟨k, read'⟩ := Option.isSome_iff_exists.mp isPending'
    obtain ⟨src, entryI⟩ := entry i a isPending atI
    obtain ⟨src', entryJ⟩ := entry j b isPending' atJ
    exact supplied.file i j a b src src' (onCycle i isPending)
      (built.reads (inv.sub i j read) (built.covers.dst j k (inv.sub j k read'))) entryI entryJ
  · intro i a tmp isPending atI
    obtain ⟨src, entryI⟩ := entry i a isPending atI
    exact supplied.gpr i a src tmp (onCycle i isPending) entryI
  · intro i a isPending atI
    obtain ⟨src, entryI⟩ := entry i a isPending atI
    exact supplied.mem i a src (onCycle i isPending) entryI

/-- Instructions that carry the whole graph to one without pending destinations perform the
parallel copy. -/
theorem refines (built : Built pc operands) {src' : Nat → Option Nat} {instrs : List Instr}
    (carries : Carries pc operands.vals operands.graph.src src' instrs)
    (done : ∀ i < pc.dstsSrcs.length, src' i = none) : Refines pc instrs := by
  intro V imm state
  constructor
  · intro dst src member
    obtain ⟨i, entry⟩ := mem_iff_getElem?.mp member
    have inside := (List.getElem?_eq_some_iff.mp entry).1
    obtain ⟨reg, isReg, atI⟩ := built.first i _ _ entry
    cases isReg
    have settled := carries.settles imm state
      (fun i => held operands.vals imm state ((operands.graph.src i).getD i)) (fun _ => rfl) i
    rw [done i inside, Option.getD_none, held_reg imm _ atI] at settled
    simp only [held, built.edges i _ _ entry, Option.map_some, Option.some.injEq] at settled
    exact settled
  · intro loc notDst notTmp
    apply carries.frame imm state loc
    refine ⟨?_, notTmp⟩
    intro i reg isPending atI
    obtain ⟨j, read⟩ := Option.isSome_iff_exists.mp isPending
    obtain ⟨dst, src, entry, here, -, -⟩ := built.edge read
    rw [atI] at here
    cases here
    exact notDst reg src (mem_of_getElem? entry)

end Built

/-- A scalar parallel copy that has the temporaries it needs is lowered to instructions that
assign all its sources at once. -/
theorem lowerParCopy_refines (scalar : Scalar pc) (supplied : Supplied pc) :
    ∃ instrs, lowerParCopy pc = .ok instrs ∧ Refines pc instrs := by
  obtain ⟨operands, returned, named, first, edges, later⟩ := build_ok scalar
  have built : Built pc operands := ⟨named, first, edges, later⟩
  have placed := named.placed first
  have tmp : ∀ (i j : Nat) dst val, operands.graph.src i = some j →
      operands.vals[i]? = some (.reg dst) → operands.vals[j]? = some val →
      copyNeedsTmp dst val → pc.tmp.isSome := by
    intro i j dst val read atI atJ needs
    obtain ⟨dst', src, entry, atI', atJ', other⟩ := built.edge read
    rw [atI] at atI'
    rw [atJ] at atJ'
    cases atI'
    cases atJ'
    exact supplied.copy i dst src entry other needs
  have few := built.pending_card
  have short : ((List.range pc.dstsSrcs.length).filter
      fun i => operands.graph.numReads i = 0).reverse.length ≤ pc.dstsSrcs.length := by
    rw [List.length_reverse]
    exact (List.length_filter_le _ _).trans_eq List.length_range
  obtain ⟨graph, copies, readied, inv, carries⟩ :=
    readyLoop_ok placed built.covers tmp (2 * pc.dstsSrcs.length) operands.graph _ built.ready
      (by omega)
  have fewer : (pending graph.src operands.vals.length).card ≤
      (pending operands.graph.src operands.vals.length).card := by
    apply Finset.card_le_card
    intro i member
    exact (mem_pending named.ok i).mpr (carries.fewer i ((mem_pending inv.ok i).mp member))
  obtain ⟨last, swaps, broken, outs, carries'⟩ :=
    cycleLoop_ok placed (pc.dstsSrcs.length + 1) (List.range pc.dstsSrcs.length) graph inv.ok
      (built.cycles inv).1 (built.cycleInv supplied inv) (by omega)
  refine ⟨copies ++ swaps, ?_, built.refines (carries.trans carries') ?_⟩
  · simp only [lowerParCopy, returned, ok_bind, readied, broken]
    rfl
  · intro i inside
    exact outs i (List.mem_range.mpr inside)

/-- A scalar register of a file. -/
def scalarReg (file : RegFile) (idx : Nat) (bound : idx ≤ RegRef.maxIdx) : RegRef :=
  ⟨file, idx, 1, bound, RegRef.single⟩

/-- The exchange of two registers, with a temporary or without. -/
def exchange (a b : RegRef) (tmp : Option RegRef) : OpParCopy :=
  { dstsSrcs := [(.reg a, .ofReg b), (.reg b, .ofReg a)], tmp }

theorem exchange_scalar {a b : RegRef} (ha : a.comps = 1) (hb : b.comps = 1) (ab : a ≠ b)
    {tmp : Option RegRef} (apartA : ¬ IsTmp (exchange a b tmp) a.loc)
    (apartB : ¬ IsTmp (exchange a b tmp) b.loc) : Scalar (exchange a b tmp) where
  dst := by
    intro pair member
    simp only [exchange, mem_cons, not_mem_nil, or_false] at member
    rcases member with rfl | rfl
    · exact ⟨a, rfl, ha, apartA⟩
    · exact ⟨b, rfl, hb, apartB⟩
  distinct := by simpa [exchange] using ab
  unmodified := by
    intro pair member
    simp only [exchange, mem_cons, not_mem_nil, or_false] at member
    rcases member with rfl | rfl <;> rfl
  src := by
    intro pair member reg read
    simp only [exchange, mem_cons, not_mem_nil, or_false] at member
    rcases member with rfl | rfl
    · cases read
      exact ⟨rfl, hb, apartB⟩
    · cases read
      exact ⟨rfl, ha, apartA⟩

/-- A cycle across two register files, and a memory cycle with one temporary, are not lowered. -/
theorem lowerParCopy_cycle_faults :
    (∃ pc, Scalar pc ∧ lowerParCopy pc = .error (.panic "x.file() == y.file()")) ∧
      ∃ pc, Scalar pc ∧ lowerParCopy pc = .error (.panic "Memory cycles need 2 temporaries") := by
  let r₀ := scalarReg .gpr 0 (by decide)
  let p₀ := scalarReg .pred 0 (by decide)
  let m₀ := scalarReg .mem 0 (by decide)
  let m₁ := scalarReg .mem 1 (by decide)
  refine ⟨⟨exchange r₀ p₀ none, ?_, by rfl⟩, ⟨exchange m₀ m₁ (some r₀), ?_, by rfl⟩⟩
  · exact exchange_scalar rfl rfl (by decide) (by simp [IsTmp, exchange])
      (by simp [IsTmp, exchange])
  · exact exchange_scalar rfl rfl (by decide)
      (by simp [IsTmp, exchange, r₀, m₀, scalarReg, RegRef.loc])
      (by simp [IsTmp, exchange, r₀, m₁, scalarReg, RegRef.loc])

/-- The exchange of two general registers by a swap. -/
theorem lowerParCopy_refines_swap : ∃ pc, Scalar pc ∧ Supplied pc ∧
    ∃ instrs, lowerParCopy pc = .ok instrs ∧ Refines pc instrs := by
  let r₀ := scalarReg .gpr 0 (by decide)
  let r₁ := scalarReg .gpr 1 (by decide)
  have scalar : Scalar (exchange r₀ r₁ none) :=
    exchange_scalar rfl rfl (by decide) (by simp [IsTmp, exchange]) (by simp [IsTmp, exchange])
  have file : ∀ (i : Nat) dst src, (exchange r₀ r₁ none).dstsSrcs[i]? = some (.reg dst, src) →
      dst.file = .gpr ∧ ∃ reg, src.reference = .reg reg := by
    intro i dst src entry
    have member := List.mem_of_getElem? entry
    simp only [exchange, List.mem_cons, List.not_mem_nil, or_false, Prod.mk.injEq,
      Dst.reg.injEq] at member
    rcases member with ⟨rfl, rfl⟩ | ⟨rfl, rfl⟩
    · exact ⟨rfl, r₁, rfl⟩
    · exact ⟨rfl, r₀, rfl⟩
  have supplied : Supplied (exchange r₀ r₁ none) := by
    refine ⟨?_, ?_, ?_, ?_⟩
    · intro i dst src entry _ needs
      obtain ⟨isGpr, reg, isReg⟩ := file i dst src entry
      simp [copyNeedsTmp, isReg, SrcRef.asReg, isGpr] at needs
    · intro i j a b src src' _ _ entryI entryJ
      rw [(file i a src entryI).1, (file j b src' entryJ).1]
    · intro i dst src tmp _ _ _ present
      cases present
    · intro i dst src _ entry special
      rw [(file i dst src entry).1] at special
      simp at special
  exact ⟨_, scalar, supplied, lowerParCopy_refines scalar supplied⟩

end CoralReef.LowerParCopy
