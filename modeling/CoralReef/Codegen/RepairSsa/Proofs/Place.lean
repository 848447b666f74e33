import CoralReef.Codegen.RepairSsa.Proofs.Insert
import CoralReef.Codegen.RepairSsa.Proofs.Redundant

/-!
# Placing the phis

What the last loop makes of each block: the destinations of its phis at its head, what stands for
each use in its instructions, the sources for its successors at its tail.
-/

open List

namespace CoralReef.RepairSsa

variable {rep : SSAValue → SSAValue}
variable {uf : UnionFind SSAValue}

/-- The union-find still stands for `rep`. -/
structure Stands (rep : SSAValue → SSAValue) (uf : UnionFind SSAValue) : Prop where
  wf : uf.Wf
  rep : uf.rep = rep

theorem Stands.find_ok (stands : Stands rep uf) (v : SSAValue) :
    ∃ uf', uf.find v = .ok (rep v, uf') ∧ Stands rep uf' := by
  obtain ⟨uf', found, wf', rep'⟩ := stands.wf.find_ok v
  rw [stands.rep] at found rep'
  exact ⟨uf', found, wf', rep'⟩

theorem findAll_ok : ∀ (names : List SSAValue) (uf : UnionFind SSAValue), Stands rep uf →
    ∃ uf', findAll names uf = .ok (names.map rep, uf') ∧ Stands rep uf' := by
  intro names
  induction names with
  | nil => exact fun uf stands => ⟨uf, rfl, stands⟩
  | cons v names ih =>
    intro uf stands
    obtain ⟨uf₁, found, stands₁⟩ := stands.find_ok v
    obtain ⟨uf', rest, stands'⟩ := ih uf₁ stands₁
    refine ⟨uf', ?_, stands'⟩
    rw [findAll, found, ok_bind]
    dsimp only
    rw [rest]
    rfl

theorem remap_setUses (instr : Instr) :
    Remap rep instr (instr.setUses (instr.ssaUses.map rep)) where
  skeleton := Instr.skeleton_setUses _ (by simp)
  defs := Instr.ssaDefs_setUses ..
  uses := Instr.uses_rewriting.read_write _ _ (by simp)

theorem remapInstrs_ok : ∀ (instrs : List Instr) (uf : UnionFind SSAValue), Stands rep uf →
    ∃ out uf', remapInstrs instrs uf = .ok (out, uf') ∧ Stands rep uf' ∧
      List.Forall₂ (Remap rep) instrs out := by
  intro instrs
  induction instrs with
  | nil => exact fun uf stands => ⟨[], uf, rfl, stands, .nil⟩
  | cons instr instrs ih =>
    intro uf stands
    obtain ⟨uf₁, found, stands₁⟩ := findAll_ok instr.ssaUses uf stands
    obtain ⟨out, uf', rest, stands', remapped⟩ := ih uf₁ stands₁
    refine ⟨_ :: out, uf', ?_, stands', .cons (remap_setUses instr) remapped⟩
    rw [remapInstrs, found, ok_bind]
    dsimp only
    rw [rest]
    rfl

/-- Where nothing has been unified, every value stands for itself. -/
theorem Stands.eq_id (stands : Stands rep uf) (empty : uf.isEmpty = true) : rep = id := by
  rw [← stands.rep]
  funext v
  apply UnionFind.rep_of_none
  cases present : uf.idxMap v with
  | none => rfl
  | some i =>
    have bound := stands.wf.bound v i present
    rw [isEmpty_iff.mp empty] at bound
    exact absurd bound (Nat.not_lt_zero i)

theorem remapBlock_ok (bb : BasicBlock) (stands : Stands rep uf) :
    ∃ out uf', remapBlock bb uf = .ok (out, uf') ∧ Stands rep uf' ∧
      List.Forall₂ (Remap rep) bb.instrs out.instrs := by
  cases empty : uf.isEmpty with
  | true =>
    refine ⟨bb, uf, ?_, stands, ?_⟩
    · rw [remapBlock, empty]
      rfl
    · have same := stands.eq_id empty
      rw [forall₂_same]
      intro instr _
      exact ⟨rfl, rfl, by rw [same, map_id]⟩
  | false =>
    obtain ⟨out, uf', returned, stands', remapped⟩ := remapInstrs_ok bb.instrs uf stands
    refine ⟨{ bb with instrs := out }, uf', ?_, stands', remapped⟩
    rw [remapBlock, empty]
    simp only [Bool.false_eq_true, if_false]
    rw [returned]
    rfl

/-- The sources that block `b` contributes to phis. -/
def srcPairs (rep : SSAValue → SSAValue) (b : Nat) (trackers : List PhiTracker) :
    List (Phi × SSAValue) :=
  trackers.filterMap fun tracker => (tracker.srcs.lookup b).map fun u => (tracker.phi, rep u)

theorem phiSrcsFor_ok (b : Nat) : ∀ (trackers : List PhiTracker) (uf : UnionFind SSAValue),
    Stands rep uf → ∃ uf', phiSrcsFor b trackers uf =
      .ok (phiSrcsOf (srcPairs rep b trackers), uf') ∧ Stands rep uf' := by
  intro trackers
  induction trackers with
  | nil => exact fun uf stands => ⟨uf, rfl, stands⟩
  | cons tracker trackers ih =>
    intro uf stands
    cases found : tracker.srcs.lookup b with
    | none =>
      obtain ⟨uf', rest, stands'⟩ := ih uf stands
      have pairs : srcPairs rep b (tracker :: trackers) = srcPairs rep b trackers := by
        simp [srcPairs, found]
      refine ⟨uf', ?_, stands'⟩
      rw [phiSrcsFor, found, pairs]
      exact rest
    | some u =>
      obtain ⟨uf₁, first, stands₁⟩ := stands.find_ok u
      obtain ⟨uf', rest, stands'⟩ := ih uf₁ stands₁
      have pairs : srcPairs rep b (tracker :: trackers) =
          (tracker.phi, rep u) :: srcPairs rep b trackers := by simp [srcPairs, found]
      refine ⟨uf', ?_, stands'⟩
      rw [phiSrcsFor, found, pairs]
      dsimp only
      rw [first, ok_bind]
      dsimp only
      rw [rest]
      rfl

theorem Tailed.refl (instrs : List Instr) : Tailed [] instrs instrs where
  clean := id
  holds := fun _ holds _ => holds
  defs := rfl
  run := fun _ _ _ _ _ => ⟨rfl, rfl, rfl, rfl⟩

theorem Tailed.trans {first second : List (Phi × SSAValue)} {a b c : List Instr}
    (ab : Tailed first a b) (bc : Tailed second b c) : Tailed (first ++ second) a c where
  clean := bc.clean ∘ ab.clean
  holds := by
    intro defined holds known
    rw [map_append] at known
    apply bc.holds defined (ab.holds defined holds fun v member =>
      known v (mem_append_left _ member))
    intro v member
    rw [ab.defs]
    exact known v (mem_append_right _ member)
  defs := bc.defs.trans ab.defs
  run := by
    intro known hidden V interp machine
    have sameAB := ab.run known (fun entry member => hidden entry (mem_append_left _ member))
      interp machine
    have sameBC := bc.run known (fun entry member => hidden entry (mem_append_right _ member))
      interp machine
    refine ⟨sameBC.vals.trans sameAB.vals, sameBC.effects.trans sameAB.effects,
      sameBC.trace.trans sameAB.trace, ?_⟩
    rw [sameBC.phis, sameAB.phis, sameAB.vals, givePhis, givePhis, givePhis, foldl_append]

section Blocks

variable (cfg : CFG BasicBlock) (blocks : List DefTrackerBlock)

/-- The phi sources at the end of block `b`. -/
def tailPairs (rep : SSAValue → SSAValue) (phis : Nat → List PhiTracker) (b : Nat)
    (succs : List Nat) : List (Phi × SSAValue) :=
  succs.flatMap fun s => srcPairs rep b (phis s)

/-- The phi destinations at the start of a block. -/
def headPairs (trackers : List PhiTracker) : List (Phi × SSAValue) :=
  trackers.map fun tracker => (tracker.phi, tracker.dst)

theorem placeSrcs_ok {b : Nat} : ∀ (succs : List Nat) (bb : BasicBlock)
    (uf : UnionFind SSAValue), (∀ s ∈ succs, s < blocks.length) → Stands rep uf →
      ∃ bb' uf', succs.foldlM (placeSrcs blocks b) (bb, uf) = .ok (bb', uf') ∧ Stands rep uf' ∧
        Tailed (tailPairs rep (phisIn blocks) b succs) bb.instrs bb'.instrs := by
  intro succs
  induction succs with
  | nil => exact fun bb uf _ stands => ⟨bb, uf, rfl, stands, Tailed.refl _⟩
  | cons s succs ih =>
    intro bb uf inside stands
    have later : ∀ t ∈ succs, t < blocks.length := fun t member =>
      inside t (mem_cons_of_mem s member)
    obtain ⟨block, here⟩ : ∃ block, blocks[s]? = some block :=
      ⟨_, List.getElem?_eq_getElem (inside s mem_cons_self)⟩
    have phis : phisIn blocks s = block.phis := by simp [phisIn, here]
    by_cases empty : block.phis = []
    · obtain ⟨bb', uf', rest, stands', tailed⟩ := ih bb uf later stands
      refine ⟨bb', uf', ?_, stands', ?_⟩
      · rw [foldlM_cons, placeSrcs, here, expect_some, ok_bind, if_pos empty]
        exact rest
      · have none : srcPairs rep b (phisIn blocks s) = [] := by
          rw [phis, empty]
          rfl
        rw [tailPairs, flatMap_cons, none]
        exact tailed
    · obtain ⟨uf₁, found, stands₁⟩ := phiSrcsFor_ok b block.phis uf stands
      obtain ⟨bb', uf', rest, stands', tailed⟩ := ih
        (bb.insertPhiSrcs (phiSrcsOf (srcPairs rep b block.phis))) uf₁ later stands₁
      refine ⟨bb', uf', ?_, stands', ?_⟩
      · rw [foldlM_cons, placeSrcs, here, expect_some, ok_bind, if_neg empty]
        dsimp only
        rw [found]
        exact rest
      · rw [tailPairs, flatMap_cons, phis]
        exact (insertPhiSrcs_tailed bb _).trans tailed

/-- What the last loop makes of a block. -/
def Placed (rep : SSAValue → SSAValue) (phis : Nat → List PhiTracker) (cfg : CFG BasicBlock)
    (b : Nat) (instrs out : List Instr) : Prop :=
  ∃ base mid, List.Forall₂ (Remap rep) instrs base ∧ Headed (headPairs (phis b)) base mid ∧
    Tailed (tailPairs rep phis b (cfg.successors b)) mid out

theorem Headed.refl (instrs : List Instr) : Headed [] instrs instrs where
  clean := id
  holds := fun _ holds => holds.mono fun _ => by simp
  defs := List.Perm.refl _
  run := fun _ _ _ _ => rfl

theorem placeBlock_ok {bb : BasicBlock} {b : Nat} (done : List BasicBlock)
    {uf : UnionFind SSAValue} (inside : b < blocks.length)
    (edges : ∀ s ∈ cfg.successors b, s < blocks.length) (stands : Stands rep uf)
    (unguarded : ∀ instr ∈ bb.instrs, instr.isHead = true → instr.pred.iterSsa = []) :
    ∃ bb' uf', placeBlock cfg blocks (done, uf) (bb, b) = .ok (done ++ [bb'], uf') ∧
      Stands rep uf' ∧ Placed rep (phisIn blocks) cfg b bb.instrs bb'.instrs := by
  obtain ⟨block, here⟩ : ∃ block, blocks[b]? = some block :=
    ⟨_, List.getElem?_eq_getElem inside⟩
  have phis : phisIn blocks b = block.phis := by simp [phisIn, here]
  have dsts : (block.phis.map fun tracker => (tracker.phi, Dst.ofSsa tracker.dst)) =
      phiDstsOf (headPairs block.phis) := by
    rw [phiDstsOf, headPairs, map_map]
    rfl
  let headed := if block.phis = [] then bb
    else bb.insertPhiDsts (phiDstsOf (headPairs block.phis))
  obtain ⟨mid, uf₁, remap, stands₁, remapped⟩ := remapBlock_ok headed stands
  obtain ⟨bb', uf', tail, stands', tailed⟩ :=
    placeSrcs_ok blocks (b := b) (cfg.successors b) mid uf₁ edges stands₁
  refine ⟨bb', uf', ?_, stands', ?_⟩
  · rw [placeBlock]
    dsimp only
    rw [here, expect_some, ok_bind, dsts]
    show (remapBlock headed uf >>= _) = _
    rw [remap, ok_bind]
    dsimp only
    rw [tail]
    rfl
  · by_cases empty : block.phis = []
    · simp only [headed, empty, if_true] at remapped
      refine ⟨mid.instrs, mid.instrs, remapped, ?_, tailed⟩
      rw [phis, empty]
      exact Headed.refl _
    · simp only [headed, empty, if_false] at remapped
      obtain ⟨base, remapped', isHeaded⟩ := insertPhiDsts_remapped unguarded remapped
      refine ⟨base, mid.instrs, remapped', ?_, tailed⟩
      rwa [phis]

theorem placeBlocks_ok (bbs : List BasicBlock) {uf : UnionFind SSAValue} (stands : Stands rep uf)
    (length : bbs.length = blocks.length)
    (edges : ∀ b, ∀ s ∈ cfg.successors b, s < blocks.length)
    (unguarded : ∀ bb ∈ bbs, ∀ instr ∈ bb.instrs, instr.isHead = true →
      instr.pred.iterSsa = []) :
    ∃ out uf', bbs.zipIdx.foldlM (placeBlock cfg blocks) ([], uf) = .ok (out, uf') ∧
      out.length = bbs.length ∧ ∀ (b : Nat) bb, bbs[b]? = some bb →
        ∃ bb', out[b]? = some bb' ∧ Placed rep (phisIn blocks) cfg b bb.instrs bb'.instrs := by
  obtain ⟨⟨out, uf'⟩, returned, -, outLength, placed⟩ := foldlM_ok (placeBlock cfg blocks)
    (fun done state => Stands rep state.2 ∧ state.1.length = done.length ∧
      ∀ (i : Nat) entry, done[i]? = some entry → ∃ bb', state.1[i]? = some bb' ∧
        Placed rep (phisIn blocks) cfg entry.2 entry.1.instrs bb'.instrs)
    bbs.zipIdx [] ([], uf) ⟨stands, rfl, by simp⟩ (by
      rintro before ⟨bb, b⟩ ⟨done, uf₁⟩ member ⟨stands₁, length₁, placed⟩
      have at_ := mem_zipIdx_iff_getElem?.mp member
      obtain ⟨inside, -⟩ := List.getElem?_eq_some_iff.mp at_
      obtain ⟨bb', uf₂, step, stands₂, isPlaced⟩ := placeBlock_ok cfg blocks done
        (by omega) (edges b) stands₁ (unguarded bb (mem_of_getElem? at_))
      refine ⟨_, step, stands₂, by simp [length₁], ?_⟩
      intro i entry here
      rcases Nat.lt_trichotomy i before.length with less | rfl | more
      · rw [List.getElem?_append_left less] at here
        obtain ⟨bb'', here', isPlaced'⟩ := placed i entry here
        refine ⟨bb'', ?_, isPlaced'⟩
        simp only
        rw [List.getElem?_append_left (by simp only at length₁; omega)]
        exact here'
      · rw [List.getElem?_append_right le_rfl, Nat.sub_self] at here
        cases here
        refine ⟨bb', ?_, isPlaced⟩
        simp only at length₁ ⊢
        rw [← length₁, List.getElem?_append_right le_rfl, Nat.sub_self]
        rfl
      · rw [List.getElem?_eq_none (by
          rw [length_append, length_singleton]; omega)] at here
        cases here)
  refine ⟨out, uf', returned, by simpa using outLength, ?_⟩
  intro b bb here
  have at_ : (([] : List (BasicBlock × Nat)) ++ bbs.zipIdx)[b]? = some (bb, b) := by
    rw [nil_append, List.getElem?_zipIdx, here]
    simp
  exact placed b (bb, b) at_

end Blocks

/-- The undefs of a list that go in front of block `b`. -/
def undefsIn (entries : List (Nat × SSAValue)) (b : Nat) : List SSAValue :=
  ((entries.filter fun entry => entry.1 = b).map Prod.snd).reverse

def undefInstr (v : SSAValue) : Instr := .new (.undef (.ofSsa v))

theorem placeUndefs_ok : ∀ (entries : List (Nat × SSAValue)) (bbs : List BasicBlock),
    (entries.foldl placeUndef bbs).length = bbs.length ∧
      ∀ (b : Nat) bb, bbs[b]? = some bb → ∃ bb', (entries.foldl placeUndef bbs)[b]? = some bb' ∧
        bb'.instrs = (undefsIn entries b).map undefInstr ++ bb.instrs := by
  intro entries
  induction entries with
  | nil => exact fun bbs => ⟨rfl, fun b bb here => ⟨bb, here, rfl⟩⟩
  | cons entry entries ih =>
    intro bbs
    obtain ⟨length, placed⟩ := ih (placeUndef bbs entry)
    refine ⟨?_, ?_⟩
    · rw [foldl_cons, length, placeUndef, length_modify]
    · intro b bb here
      rw [foldl_cons]
      by_cases same : entry.1 = b
      · obtain ⟨bb', at_, instrs⟩ := placed b
          { bb with instrs := .new (.undef (.ofSsa entry.2)) :: bb.instrs } (by
            rw [placeUndef, same, List.getElem?_modify_eq, here]
            rfl)
        refine ⟨bb', at_, ?_⟩
        rw [instrs, undefsIn, undefsIn, filter_cons_of_pos (by simpa using same)]
        simp [undefInstr]
      · obtain ⟨bb', at_, instrs⟩ := placed b bb (by
          rw [placeUndef, List.getElem?_modify_ne _ _ same, here])
        refine ⟨bb', at_, ?_⟩
        rw [instrs, undefsIn, undefsIn, filter_cons_of_neg (by simpa using same)]

end CoralReef.RepairSsa
