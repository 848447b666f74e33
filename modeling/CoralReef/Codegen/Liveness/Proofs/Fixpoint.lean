import CoralReef.Codegen.Ir.Semantics
import CoralReef.Codegen.Liveness
import CoralReef.Stubs.Dataflow.Least
import Mathlib.Algebra.Order.BigOperators.Group.Finset

/-!
# The liveness fixpoint

The loop returns, since every pass that changes something adds a number to the set of a block.
-/

open List

namespace CoralReef

namespace SimpleLiveness

open ChaoticIteration (Ascending sweep sweep_closed sweep_of_notMem)

variable {cfg : CFG BasicBlock} {blocks : Nat → SimpleBlockLiveness} {order : List Nat}
variable {uses : Finset Nat}

/-- What is live into a block, from what is live into its successors. -/
def transfer (cfg : CFG BasicBlock) (blocks : Nat → SimpleBlockLiveness)
    (liveIn : Nat → Finset Nat) (node : Nat) : Finset Nat :=
  (outSet cfg liveIn node ∪ (blocks node).uses) \ (blocks node).defs

theorem mem_outSet {liveIn : Nat → Finset Nat} {node i : Nat} :
    i ∈ outSet cfg liveIn node ↔ ∃ succ ∈ cfg.successors node, i ∈ liveIn succ := by
  have folded : ∀ (succs : List Nat) (output : Finset Nat),
      i ∈ succs.foldl (fun output succ => output ∪ liveIn succ) output ↔
        i ∈ output ∨ ∃ succ ∈ succs, i ∈ liveIn succ := by
    intro succs
    induction succs with
    | nil => simp
    | cons s succs ih =>
      intro output
      rw [foldl_cons, ih, Finset.mem_union]
      simp [or_assoc]
  rw [outSet, folded]
  simp

/-- Only what is live into the successors of a block matters. -/
theorem transfer_mono_at {liveIn liveIn' : Nat → Finset Nat} {node : Nat}
    (more : ∀ succ ∈ cfg.successors node, liveIn succ ⊆ liveIn' succ) :
    transfer cfg blocks liveIn node ⊆ transfer cfg blocks liveIn' node := by
  apply Finset.sdiff_subset_sdiff ?_ subset_rfl
  apply Finset.union_subset_union ?_ subset_rfl
  intro i member
  obtain ⟨succ, isSucc, live⟩ := mem_outSet.mp member
  exact mem_outSet.mpr ⟨succ, isSucc, more succ isSucc live⟩

theorem transfer_mono : Monotone (transfer cfg blocks) := fun _ _ more _ =>
  transfer_mono_at fun succ _ => more succ

/-- No set has a number that is not among the uses. -/
theorem transfer_uses (known : ∀ b, (blocks b).uses ⊆ uses) (liveIn : Nat → Finset Nat)
    (below : ∀ b, liveIn b ⊆ uses) (b : Nat) : transfer cfg blocks liveIn b ⊆ uses := by
  intro i member
  rcases Finset.mem_union.mp (Finset.mem_sdiff.mp member).1 with out | used
  · obtain ⟨succ, -, live⟩ := mem_outSet.mp out
    exact below succ live
  · exact known b used

/-- How many numbers the sets of the first `n` blocks hold. -/
def size (n : Nat) (liveIn : Nat → Finset Nat) : Nat := ∑ b ∈ Finset.range n, (liveIn b).card

theorem size_le {n : Nat} {liveIn : Nat → Finset Nat} (below : ∀ b, liveIn b ⊆ uses) :
    size n liveIn ≤ n * uses.card := by
  have bound := Finset.sum_le_card_nsmul (Finset.range n) (fun b => (liveIn b).card) uses.card
    fun b _ => Finset.card_le_card (below b)
  rw [Finset.card_range] at bound
  exact bound

theorem size_mono {n : Nat} : Monotone (size n) := fun _ _ more =>
  Finset.sum_le_sum fun b _ => Finset.card_le_card (more b)

/-- A pass is a sweep over the equations. -/
theorem pass_liveIn : ∀ (order : List Nat) (sets : Sets),
    (order.foldl (update cfg blocks) sets).liveIn = sweep (transfer cfg blocks) order sets.liveIn
  | [], _ => rfl
  | node :: order, sets => pass_liveIn order (update cfg blocks sets node)

/-- A pass that changes a set makes the sets larger. -/
theorem pass_grows {n : Nat} : ∀ (order : List Nat) (sets : Sets), (∀ node ∈ order, node < n) →
    Ascending (transfer cfg blocks) sets.liveIn → sets.changed = false →
      (order.foldl (update cfg blocks) sets).changed = true →
        size n sets.liveIn < size n (order.foldl (update cfg blocks) sets).liveIn := by
  intro order
  induction order with
  | nil =>
    intro sets _ _ unchanged changed
    rw [foldl_nil, unchanged] at changed
    cases changed
  | cons node order ih =>
    intro sets inside ascending unchanged changed
    have grows := ascending.le_recompute node
    have later := ascending.recompute transfer_mono node
    cases first : (update cfg blocks sets node).changed with
    | true =>
      have differs : sets.liveIn node ≠ transfer cfg blocks sets.liveIn node := by
        simpa only [update, transfer, unchanged, Bool.false_or, decide_eq_true_eq] using first
      have larger : size n sets.liveIn < size n (update cfg blocks sets node).liveIn := by
        refine Finset.sum_lt_sum (fun b _ => Finset.card_le_card (grows b))
          ⟨node, Finset.mem_range.mpr (inside node mem_cons_self), Finset.card_lt_card ?_⟩
        refine Finset.ssubset_iff_subset_ne.mpr ⟨grows node, ?_⟩
        exact fun same => differs (same.trans (Function.update_self _ _ _))
      refine larger.trans_le (size_mono ?_)
      rw [foldl_cons, pass_liveIn]
      exact (later.sweep transfer_mono order).2
    | false =>
      refine (size_mono grows).trans_lt (ih (update cfg blocks sets node) ?_ later first changed)
      exact fun other member => inside other (mem_cons_of_mem node member)

variable (cfg order) in
theorem fixpoint_ok {n : Nat} (known : ∀ b, (blocks b).uses ⊆ uses)
    (inside : ∀ node ∈ order, node < n) : ∀ (fuel : Nat) (sets : Sets),
      Ascending (transfer cfg blocks) sets.liveIn → (∀ b, sets.liveIn b ⊆ uses) →
        n * uses.card < size n sets.liveIn + fuel →
          ∃ result, fixpoint cfg blocks order fuel sets = .ok result := by
  intro fuel
  induction fuel with
  | zero =>
    intro sets _ below enough
    have : size n sets.liveIn ≤ n * uses.card := size_le below
    omega
  | succ fuel ih =>
    intro sets ascending below enough
    rw [fixpoint]
    cases changed : (order.foldl (update cfg blocks) { sets with changed := false }).changed with
    | true =>
      have larger := pass_grows order { sets with changed := false } inside ascending rfl changed
      simp only [if_true]
      refine ih _ ?_ ?_ (by simp only at larger; omega)
      · rw [pass_liveIn]
        exact (ascending.sweep transfer_mono order).1
      · rw [pass_liveIn]
        exact sweep_closed (Q := fun _ set => set ⊆ uses) (transfer_uses known) order below
    | false => exact ⟨_, rfl⟩

theorem pass_liveOut {b : Nat} : ∀ {order : List Nat} (_ : b ∉ order) (sets : Sets),
    (order.foldl (update cfg blocks) sets).liveOut b = sets.liveOut b := by
  intro order
  induction order with
  | nil => exact fun _ _ => rfl
  | cons node order ih =>
    intro absent sets
    rw [mem_cons, not_or] at absent
    exact (ih absent.2 _).trans (Function.update_of_ne absent.1 _ _)

/-- A pass that changes nothing found the sets as it would have made them. -/
theorem pass_unchanged : ∀ (order : List Nat) (sets : Sets),
    (order.foldl (update cfg blocks) sets).changed = false → sets.changed = false ∧
      (order.foldl (update cfg blocks) sets).liveIn = sets.liveIn ∧
      ∀ b ∈ order, transfer cfg blocks sets.liveIn b = sets.liveIn b ∧
        (order.foldl (update cfg blocks) sets).liveOut b = outSet cfg sets.liveIn b := by
  intro order
  induction order with
  | nil => exact fun sets unchanged => ⟨unchanged, rfl, fun b member => nomatch member⟩
  | cons node order ih =>
    intro sets unchanged
    obtain ⟨first, later, solved⟩ := ih (update cfg blocks sets node) unchanged
    have flags := Bool.or_eq_false_iff.mp first
    have here : sets.liveIn node = transfer cfg blocks sets.liveIn node :=
      of_not_not (of_decide_eq_false flags.2)
    have same : (update cfg blocks sets node).liveIn = sets.liveIn :=
      Function.update_eq_self_iff.mpr here.symm
    rw [same] at later solved
    refine ⟨flags.1, later, ?_⟩
    intro b member
    by_cases again : b ∈ order
    · exact solved b again
    · obtain rfl : b = node := (mem_cons.mp member).resolve_right again
      exact ⟨here.symm, (pass_liveOut again _).trans (Function.update_self ..)⟩

/-- What the loop returns: the least solution on the blocks that it visits, and what was there
elsewhere. -/
structure Solved (cfg : CFG BasicBlock) (blocks : Nat → SimpleBlockLiveness) (order : List Nat)
    (start result : Sets) : Prop where
  liveIn : ∀ b ∈ order, transfer cfg blocks result.liveIn b = result.liveIn b
  liveOut : ∀ b, result.liveOut b = if b ∈ order then outSet cfg result.liveIn b
    else start.liveOut b
  kept : ∀ b, b ∉ order → result.liveIn b = start.liveIn b
  least : ∀ liveIn, (∀ b ∈ order, transfer cfg blocks liveIn b ≤ liveIn b) →
    start.liveIn ≤ liveIn → result.liveIn ≤ liveIn

theorem fixpoint_solved {result : Sets} : ∀ (fuel : Nat) (sets : Sets),
    fixpoint cfg blocks order fuel sets = .ok result → Solved cfg blocks order sets result := by
  intro fuel
  induction fuel with
  | zero => exact fun _ returned => nomatch returned
  | succ fuel ih =>
    intro sets returned
    rw [fixpoint] at returned
    have swept := @pass_liveIn cfg blocks order { sets with changed := false }
    cases changed : (order.foldl (update cfg blocks) { sets with changed := false }).changed with
    | true =>
      simp only [changed, if_true] at returned
      have solved := ih _ returned
      refine ⟨solved.liveIn, ?_, ?_, ?_⟩
      · intro b
        rw [solved.liveOut b]
        split
        · rfl
        next absent => exact pass_liveOut absent _
      · intro b absent
        rw [solved.kept b absent, swept]
        exact sweep_of_notMem absent _
      · intro liveIn solution below
        apply solved.least liveIn solution
        rw [swept]
        exact ChaoticIteration.sweep_le transfer_mono solution below
    | false =>
      simp only [changed, Bool.false_eq_true, if_false] at returned
      cases returned
      obtain ⟨-, same, solved⟩ := pass_unchanged order _ changed
      refine ⟨?_, ?_, fun b _ => congrFun same b, fun liveIn _ below => same.trans_le below⟩
      · intro b member
        rw [same]
        exact (solved b member).1
      · intro b
        rw [same]
        split
        next member => exact (solved b member).2
        next absent => exact pass_liveOut absent _

end SimpleLiveness

namespace SimpleBlockLiveness

theorem uses_foldl_addUse (ip : Nat) : ∀ (names : List SSAValue) (bl : SimpleBlockLiveness),
    (names.foldl (addUse ip) bl).uses = bl.uses ∪ (names.map SSAValue.idx).toFinset := by
  intro names
  induction names with
  | nil => simp
  | cons x names ih =>
    intro bl
    rw [foldl_cons, ih]
    ext i
    simp only [addUse, Finset.mem_union, Finset.mem_insert, mem_toFinset, map_cons,
      mem_cons]
    tauto

theorem uses_foldl_addDef : ∀ (names : List SSAValue) (bl : SimpleBlockLiveness),
    (names.foldl addDef bl).uses = bl.uses
  | [], _ => rfl
  | x :: names, bl => uses_foldl_addDef names (addDef bl x)

/-- The numbers of the names that a block uses. -/
theorem ofInstrs_uses (instrs : List Instr) :
    (ofInstrs instrs).uses = ((instrs.flatMap Instr.ssaUses).map SSAValue.idx).toFinset := by
  induction instrs using List.reverseRecOn with
  | nil => rfl
  | append_singleton instrs instr ih =>
    simp [ofInstrs, zipIdx_append, uses_foldl_addDef, uses_foldl_addUse, ← ih]

theorem defs_foldl_addDef : ∀ (names : List SSAValue) (bl : SimpleBlockLiveness),
    (names.foldl addDef bl).defs = bl.defs ∪ (names.map SSAValue.idx).toFinset := by
  intro names
  induction names with
  | nil => simp
  | cons x names ih =>
    intro bl
    rw [foldl_cons, ih]
    ext i
    simp only [addDef, Finset.mem_union, Finset.mem_insert, mem_toFinset, map_cons, mem_cons]
    tauto

theorem defs_foldl_addUse (ip : Nat) : ∀ (names : List SSAValue) (bl : SimpleBlockLiveness),
    (names.foldl (addUse ip) bl).defs = bl.defs
  | [], _ => rfl
  | x :: names, bl => defs_foldl_addUse ip names (addUse ip bl x)

/-- The numbers of the names that a block defines. -/
theorem ofInstrs_defs (instrs : List Instr) :
    (ofInstrs instrs).defs = ((instrs.flatMap Instr.ssaDefs).map SSAValue.idx).toFinset := by
  induction instrs using List.reverseRecOn with
  | nil => rfl
  | append_singleton instrs instr ih =>
    simp [ofInstrs, zipIdx_append, defs_foldl_addDef, defs_foldl_addUse, ← ih]

end SimpleBlockLiveness

namespace SimpleLiveness

theorem flatMap_zipIdx {α β : Type} (g : α → List β) (list : List α) :
    (list.zipIdx.flatMap fun entry => g entry.1) = list.flatMap g := by
  rw [← flatMap_map, zipIdx_map_fst]

theorem defSites_eq (f : Function) : defSites f =
    (f.blocks.blocks.zipIdx.flatMap fun entry => entry.1.instrs.zipIdx.flatMap fun instr =>
      instr.1.ssaDefs.map fun x => (x, entry.2, instr.2)).reverse := by
  rw [← append_nil (reverse _), ← foldl_flip_cons_eq_append']
  simp only [foldl_flatMap, foldl_map, defSites]

/-- The values with a place are those some instruction defines. -/
theorem map_fst_defSites (f : Function) : (defSites f).map Prod.fst = f.allDefs.reverse := by
  simp only [defSites_eq, map_reverse, map_flatMap, map_map, Function.comp_def, map_id',
    flatMap_zipIdx Instr.ssaDefs]
  exact congrArg reverse (flatMap_zipIdx (fun bb : BasicBlock => bb.instrs.flatMap Instr.ssaDefs) _)

theorem mem_defSites {f : Function} {x : SSAValue} :
    x ∈ (defSites f).map Prod.fst ↔ x ∈ f.allDefs := by
  rw [map_fst_defSites, mem_reverse]

/-- The uses and definitions of the blocks of a function. -/
def blocksOf (f : Function) (b : Nat) : SimpleBlockLiveness :=
  (f.blocks.blocks.map fun bb => SimpleBlockLiveness.ofInstrs bb.instrs).getD b {}

theorem blocksOf_eq (f : Function) (b : Nat) :
    blocksOf f b = SimpleBlockLiveness.ofInstrs (f.instrs b) := by
  rw [blocksOf, Function.instrs, getD_eq_getElem?_getD, getElem?_map]
  cases f.blocks.blocks[b]? <;> rfl

/-- The liveness of a function with these sets of its blocks. -/
def withSets (f : Function) (sets : Sets) : SimpleLiveness where
  ssaBlockIp := defSites f
  blocks := (f.blocks.blocks.map fun bb => SimpleBlockLiveness.ofInstrs bb.instrs).zipIdx.map
    fun entry => { entry.1 with liveIn := sets.liveIn entry.2, liveOut := sets.liveOut entry.2 }

/-- The liveness of a function is always found. -/
theorem forFunction_solved (f : Function) : ∃ sets, forFunction f = .ok (withSets f sets) ∧
    Solved f.blocks (blocksOf f) f.blocks.reversePostOrder.reverse {} sets := by
  let names := f.blocks.blocks.flatMap fun bb => bb.instrs.flatMap Instr.ssaUses
  let uses := (names.map SSAValue.idx).toFinset
  have few : uses.card ≤ names.length := by
    simpa using toFinset_card_le (names.map SSAValue.idx)
  have known : ∀ b, (blocksOf f b).uses ⊆ uses := by
    intro b i member
    rw [blocksOf_eq, SimpleBlockLiveness.ofInstrs_uses, mem_toFinset, mem_map] at member
    obtain ⟨x, used, same⟩ := member
    rw [mem_toFinset, mem_map]
    refine ⟨x, ?_, same⟩
    rw [Function.instrs] at used
    cases here : f.blocks.blocks[b]? with
    | none => simp [here] at used
    | some bb => exact mem_flatMap.mpr ⟨bb, mem_of_getElem? here, by simpa [here] using used⟩
  have inside : ∀ node ∈ f.blocks.reversePostOrder.reverse, node < f.blocks.len :=
    fun node member => ((Dataflow.enumerates_reversePostOrder f.blocks).reverse node |>.mp member).1
  obtain ⟨sets, returned⟩ := fixpoint_ok f.blocks f.blocks.reversePostOrder.reverse
    known inside (f.blocks.len * names.length + 1) {}
    (fun _ => Finset.empty_subset _) (fun _ => Finset.empty_subset _) (by
      have := Nat.mul_le_mul_left f.blocks.len few
      omega)
  refine ⟨sets, ?_, fixpoint_solved _ _ returned⟩
  unfold forFunction
  dsimp only
  rw [show (fun b => (f.blocks.blocks.map fun bb =>
    SimpleBlockLiveness.ofInstrs bb.instrs).getD b {}) = blocksOf f from rfl, returned]
  rfl

theorem forFunction_ok (f : Function) : ∃ live, forFunction f = .ok live ∧
    live.ssaBlockIp = defSites f ∧ live.blocks.length = f.blocks.len := by
  obtain ⟨sets, returned, -⟩ := forFunction_solved f
  refine ⟨_, returned, rfl, ?_⟩
  rw [withSets, length_map, length_zipIdx, length_map]
  rfl

end SimpleLiveness

end CoralReef
