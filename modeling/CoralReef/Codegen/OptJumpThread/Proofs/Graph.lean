import CoralReef.Codegen.OptJumpThread.Proofs.Run

/-!
# The graph that is made again

For each block, `rewrite_cfg` adds the transfers of the block's end. The transfers of the block are
those and, where the end can be reached, those of the branches before it.
-/

open List

namespace CoralReef

variable {f g h : Function} {instrs : List Instr}

theorem branchExits_append (last : List Instr) : ∀ front : List Instr,
    branchExits (front ++ last) =
      branchExits front ++ if passes front then branchExits last else [] := by
  intro front
  induction front with
  | nil => rfl
  | cons instr front ih =>
    rw [cons_append, branchExits, branchExits, passes, all_cons, ih]
    cases always : instr.isBranchAlwaysTaken with
    | true => rfl
    | false =>
      cases branch : instr.isBranch with
      | true => rfl
      | false => rfl

theorem passes_append (front last : List Instr) :
    passes (front ++ last) = (passes front && passes last) := all_append

/-- The exits of a block are those of its front, and those of its end if that is reached. -/
theorem exits_append (front last : List Instr) :
    exits (front ++ last) = branchExits front ++ if passes front then exits last else [] := by
  rw [exits, exits, branchExits_append, passes_append]
  cases passes front with
  | true => simp
  | false => simp

theorem frontOf_append (instrs : List Instr) : frontOf instrs ++ endOf instrs = instrs := by
  rw [frontOf, endOf]
  cases isLast : instrs.getLast? with
  | none =>
    rw [List.getLast?_eq_none_iff.mp isLast]
    rfl
  | some instr =>
    rw [Option.filter_some]
    split
    · exact dropLast_append_getLast? instr isLast
    · exact append_nil instrs

theorem endOf_concat {front : List Instr} {instr : Instr} (isBranch : instr.isBranch = true) :
    endOf (front ++ [instr]) = [instr] ∧ frontOf (front ++ [instr]) = front := by
  have isEnd : endOf (front ++ [instr]) = [instr] := by
    rw [endOf, List.getLast?_concat, Option.filter_some, if_pos isBranch]
    rfl
  refine ⟨isEnd, ?_⟩
  rw [frontOf, isEnd]
  exact dropLast_concat

theorem mem_endOf {instr : Instr} :
    instr ∈ endOf instrs ↔ instrs.getLast? = some instr ∧ instr.isBranch = true := by
  rw [endOf, Option.mem_toList, Option.filter_eq_some_iff]

namespace Function

/-- The transfers of a block by the branch at its end. -/
theorem mem_transfers_end {b s : Nat} {last : Option Instr}
    (isBranch : ∀ instr, last = some instr → instr.isBranch = true) :
    s ∈ f.transfers b (exits last.toList) ↔
      (s = b + 1 ∧ ∀ instr, last = some instr → instr.isBranchAlwaysTaken = false) ∨
        ∃ instr, last = some instr ∧
          ∃ target, instr.op.leave = .jump target ∧ f.labelToIdx target = some s := by
  have fall : s ∈ f.transfers b [.fall] ↔ s = b + 1 := by simp [transfers]
  have leave : ∀ {op : Op}, s ∈ f.transfers b [op.leave] ↔
      ∃ target, op.leave = .jump target ∧ f.labelToIdx target = some s := by
    intro op
    cases op <;> simp [transfers, Op.leave]
  have apart : ∀ {way way' : Leave}, s ∈ f.transfers b [way, way'] ↔
      s ∈ f.transfers b [way] ∨ s ∈ f.transfers b [way'] := by
    intro way way'
    rw [transfers, transfers, transfers, ← mem_append, ← filterMap_append]
    rfl
  cases last with
  | none => simpa [exits, branchExits, passes] using fall
  | some instr =>
    have branch := isBranch instr rfl
    rw [Option.toList_some, exits, branchExits, branchExits, passes]
    cases always : instr.isBranchAlwaysTaken with
    | true => simpa [always] using leave
    | false =>
      have both := (@apart instr.op.leave .fall).trans (or_comm.trans (or_congr fall leave))
      simpa [always, branch] using both

theorem mem_transfers_endOf {b s : Nat} : s ∈ f.transfers b (exits (endOf instrs)) ↔
    (s = b + 1 ∧ ∀ instr ∈ endOf instrs, instr.isBranchAlwaysTaken = false) ∨
      ∃ instr ∈ endOf instrs, ∃ target, instr.op.leave = .jump target ∧
        f.labelToIdx target = some s := by
  have branches : ∀ instr, instrs.getLast?.filter Instr.isBranch = some instr →
      instr.isBranch = true := fun instr member => (Option.filter_eq_some_iff.mp member).2
  rw [endOf, mem_transfers_end branches]
  simp only [Option.mem_toList]

end Function

namespace JumpThread

/-- The edges of a block are the transfers by the branch at its end. -/
theorem blockEdges_ok {i : Nat} {block : BasicBlock}
    (plain : ∀ instr, block.branch = some instr →
      instr.op = .exit ∨ ∃ target cond, instr.op = .bra target cond) :
    ∃ edges, blockEdges f i block = .ok edges ∧
      ∀ b s, (b, s) ∈ edges ↔ b = i ∧ s ∈ f.transfers i (exits (endOf block.instrs)) := by
  have branches : ∀ instr, block.branch = some instr → instr.isBranch = true :=
    fun instr member => (Option.filter_eq_some_iff.mp member).2
  have isEnd : endOf block.instrs = block.branch.toList := rfl
  rw [blockEdges, BasicBlock.fallsThrough, isEnd]
  simp only [Function.mem_transfers_end branches]
  cases isLast : block.branch with
  | none =>
    refine ⟨_, rfl, ?_⟩
    intro b s
    simp
  | some instr =>
    have fall : ∀ b s, ((b, s) ∈ if (!instr.isBranchAlwaysTaken) = true then [(i, i + 1)] else []) ↔
        b = i ∧ s = i + 1 ∧ instr.isBranchAlwaysTaken = false := by
      intro b s
      split <;> simp_all
    dsimp only
    rcases plain instr isLast with isExit | ⟨target, cond, isBra⟩
    · rw [isExit]
      refine ⟨_, rfl, ?_⟩
      intro b s
      rw [fall]
      simp [isExit, Op.leave]
    · rw [isBra]
      refine ⟨_, rfl, ?_⟩
      intro b s
      have jump : (b, s) ∈ ((f.labelToIdx target).toList.map fun s => (i, s)) ↔
          b = i ∧ f.labelToIdx target = some s := by
        simp [eq_comm, and_comm]
      rw [mem_append, fall, jump, ← and_or_left]
      simp [isBra, Op.leave]

/-- Lists that are related item by item, joined. -/
theorem mem_flatten_of_forall₂ {α β : Type} {P : α → β → Prop} {items : List α}
    {outs : List (List β)} (each : List.Forall₂ (fun a out => ∀ x, x ∈ out ↔ P a x) items outs)
    (x : β) : x ∈ outs.flatten ↔ ∃ a ∈ items, P a x := by
  induction each with
  | nil => simp
  | cons here _ ih => simp [here, ih]

/-- The graph is made of the transfers by the ends of the blocks. -/
theorem rewriteCfg_ok (plain : f.BranchesPlain) : ∃ edges,
    rewriteCfg f = .ok { f with blocks := { f.blocks with edges } } ∧
      ∀ b s, (b, s) ∈ edges ↔ b < f.blocks.len ∧
        s ∈ f.transfers b (exits (endOf (f.instrs b))) := by
  obtain ⟨outs, runs, each⟩ := @mapM_forall₂ _ _ (fun entry : BasicBlock × Nat =>
      blockEdges f entry.2 entry.1)
    (fun entry out => ∀ x : Nat × Nat, x ∈ out ↔ x.1 = entry.2 ∧
      x.2 ∈ f.transfers entry.2 (exits (endOf entry.1.instrs))) f.blocks.blocks.zipIdx (by
    intro entry member
    obtain ⟨edges, returned, isEdges⟩ := @blockEdges_ok f entry.2 entry.1 (by
      intro instr isLast
      obtain ⟨last, isBranch⟩ := Option.filter_eq_some_iff.mp isLast
      have inBlocks := mem_of_getElem? (mem_zipIdx_iff_getElem?.mp member)
      exact plain entry.1 inBlocks instr (mem_of_getLast? last) isBranch)
    exact ⟨edges, returned, fun x => isEdges x.1 x.2⟩)
  refine ⟨outs.flatten, ?_, ?_⟩
  · rw [rewriteCfg, runs]
    rfl
  · intro b s
    rw [mem_flatten_of_forall₂ each]
    constructor
    · rintro ⟨entry, member, rfl, isTransfer⟩
      have here := mem_zipIdx_iff_getElem?.mp member
      rw [Function.instrs_eq here]
      exact ⟨(List.getElem?_eq_some_iff.mp here).1, isTransfer⟩
    · rintro ⟨inside, isTransfer⟩
      obtain ⟨block, here⟩ : ∃ block, f.blocks.blocks[b]? = some block :=
        ⟨_, List.getElem?_eq_getElem inside⟩
      rw [Function.instrs_eq here] at isTransfer
      exact ⟨(block, b), mem_zipIdx_iff_getElem?.mpr here, rfl, isTransfer⟩

/-- The blocks of `h` are those of `g`, some without a last branch that leads to the next block. -/
structure Dropped (g h : CoralReef.Function) : Prop where
  labels : h.blocks.blocks.map BasicBlock.label = g.blocks.blocks.map BasicBlock.label
  edges : h.blocks.edges = g.blocks.edges
  instrs : ∀ b, h.instrs b = g.instrs b ∨ ∃ instr nextBlock cond,
    g.blocks.blocks[b + 1]? = some nextBlock ∧ instr.op = .bra nextBlock.label cond ∧
      g.instrs b = h.instrs b ++ [instr]

theorem optFallThrough_dropped : Dropped g (optFallThrough g) := by
  have block : ∀ b, (optFallThrough g).blocks.blocks[b]? = (g.blocks.blocks[b]?).map fun block =>
      ((g.blocks.blocks[b + 1]?).map fun next => dropFall next.label block).getD block := by
    intro b
    simp only [optFallThrough, List.getElem?_map, List.getElem?_zipIdx, Option.map_map]
    cases g.blocks.blocks[b]? with
    | none => rfl
    | some block =>
      rw [Option.map_some, Option.map_some, Function.comp_apply, Nat.zero_add]
      dsimp only
      cases g.blocks.blocks[b + 1]? <;> rfl
  have dropped : ∀ (label : Label) (block : BasicBlock),
      (dropFall label block).label = block.label ∧
        ((dropFall label block).instrs = block.instrs ∨ ∃ instr cond, instr.op = .bra label cond ∧
          block.instrs = (dropFall label block).instrs ++ [instr]) := by
    intro label block
    unfold dropFall
    split
    next instr isLast =>
      split
      next target cond isBra =>
        split
        next same =>
          refine ⟨rfl, .inr ⟨instr, cond, same ▸ isBra, ?_⟩⟩
          exact (dropLast_append_getLast? instr (Option.filter_eq_some_iff.mp isLast).1).symm
        next => exact ⟨rfl, .inl rfl⟩
      next => exact ⟨rfl, .inl rfl⟩
    next => exact ⟨rfl, .inl rfl⟩
  constructor
  · apply ext_getElem?
    intro b
    rw [List.getElem?_map, List.getElem?_map, block]
    cases g.blocks.blocks[b]? with
    | none => rfl
    | some here =>
      simp only [Option.map_some]
      cases g.blocks.blocks[b + 1]? with
      | none => rfl
      | some next => exact congrArg some (dropped next.label here).1
  · rfl
  · intro b
    rw [Function.instrs, block]
    cases here : g.blocks.blocks[b]? with
    | none =>
      left
      rw [Function.instrs, here]
      rfl
    | some bb =>
      rw [Function.instrs_eq here]
      simp only [Option.map_some, Option.getD_some]
      cases g.blocks.blocks[b + 1]? with
      | none => exact .inl rfl
      | some next =>
        rcases (dropped next.label bb).2 with same | ⟨instr, cond, isBra, whole⟩
        · exact .inl same
        · exact .inr ⟨instr, next, cond, rfl, isBra, whole⟩

theorem Dropped.len (dropped : Dropped g h) : h.blocks.len = g.blocks.len := by
  have := congrArg List.length dropped.labels
  rwa [length_map, length_map] at this

theorem Dropped.labelToIdx (dropped : Dropped g h) (label : Label) :
    h.labelToIdx label = g.labelToIdx label := by
  rw [Function.labelToIdx, Function.labelToIdx, dropped.labels]

theorem Dropped.enter {V : Type} (dropped : Dropped g h) (b : Nat) (machine : Machine V)
    (how : Leave) : h.enter b machine how = g.enter b machine how := by
  cases how with
  | jump target => rw [Function.enter, Function.enter, dropped.labelToIdx]
  | exit => rfl
  | fall => rw [Function.enter, Function.enter, dropped.len]

/-- Falling through to the next block is a branch to it. -/
theorem Dropped.next {V : Type} {interp : Interp V} {branching : Branching V}
    (dropped : Dropped g h) (unique : g.LabelsUnique) :
    h.next interp branching = g.next interp branching := by
  funext c
  cases c with
  | stopped => rfl
  | «at» b machine =>
    rcases dropped.instrs b with same | ⟨instr, nextBlock, cond, isNext, isBra, whole⟩
    · rw [Function.next, Function.next, same]
      dsimp only
      rw [dropped.enter]
    · rw [Function.next, Function.next, whole, branching.runBlock_append]
      generalize branching.runBlock interp (h.instrs b) machine = left
      obtain ⟨how, machine'⟩ := left
      have inside : b + 1 < g.blocks.len := (List.getElem?_eq_some_iff.mp isNext).1
      cases how with
      | jump => exact congrArg some (dropped.enter ..)
      | exit => rfl
      | fall =>
        have isBranch : instr.isBranch = true := by rw [Instr.isBranch, isBra]; rfl
        have onward : g.enter b machine' (.jump nextBlock.label) = g.enter b machine' .fall := by
          rw [Function.enter_jump unique isNext, Function.enter, if_pos inside]
        dsimp only
        rw [dropped.enter, Branching.runBlock, if_pos isBranch]
        split
        · rw [isBra]
          exact congrArg some onward.symm
        · rfl

/-- A branch to the next block and falling through are one transfer. -/
theorem Dropped.transfers (dropped : Dropped g h) (unique : g.LabelsUnique) (b s : Nat) :
    s ∈ h.transfers b (exits (h.instrs b)) ↔ s ∈ g.transfers b (exits (g.instrs b)) := by
  have same : h.transfers b (exits (h.instrs b)) = g.transfers b (exits (h.instrs b)) := by
    unfold Function.transfers
    apply filterMap_congr
    intro way _
    cases way with
    | jump target => exact dropped.labelToIdx target
    | exit => rfl
    | fall => rfl
  rw [same]
  rcases dropped.instrs b with isSame | ⟨instr, nextBlock, cond, isNext, isBra, whole⟩
  · rw [isSame]
  · have isBranch : instr.isBranch = true := by rw [Instr.isBranch, isBra]; rfl
    have onward : g.labelToIdx nextBlock.label = some (b + 1) :=
      (Function.labelToIdx_eq_some unique).mpr ⟨nextBlock, isNext, rfl⟩
    have last : s ∈ g.transfers b (exits [instr]) ↔ s = b + 1 := by
      have := @Function.mem_transfers_end g b s (some instr) (by rintro _ ⟨⟩; exact isBranch)
      rw [Option.toList_some] at this
      rw [this]
      simp only [Option.some.injEq, exists_eq_left', isBra, Op.leave, Leave.jump.injEq, onward]
      constructor
      · rintro (⟨isNext, -⟩ | isNext)
        · exact isNext
        · exact isNext.symm
      · exact fun isNext => .inr isNext.symm
    rw [whole, exits_append, exits]
    cases passes (h.instrs b) with
    | false => rfl
    | true =>
      simp only [if_true, Function.transfers, filterMap_append, mem_append]
      apply or_congr_right
      rw [show s ∈ List.filterMap _ (exits [instr]) ↔ _ from last]
      simp

end JumpThread

end CoralReef
