import CoralReef.Codegen.Nv.EncodeShader

/-!
# Where the blocks are placed

On every target the offset that is recorded for a block's label is that of the first instruction
from the block on, behind the words of the schedule.
-/

open List
open Function (update update_of_ne)

namespace CoralReef

variable (blocks : List CfBlock) {advance : CfBlock → Nat} {label : Label} {block : CfBlock}
  (entries : List (CfBlock × Nat))

/-- The instruction that a word stands for. -/
def CodeItem.real : CodeItem → Option (Nat × Nat × CfInstr)
  | .sched | .filling => none
  | .instr b i it => some (b, i, it)

/-- The instructions from a block on. -/
def laterItems (blocks : List CfBlock) (b : Nat) : List CodeItem :=
  (blocks.zipIdx.drop b).flatMap fun (block, b) => blockItems block b

/-- From a word on the instructions are those of a block and the later ones, and the word itself
is the first of them. -/
structure StartsAt (blocks : List CfBlock) (items : List CodeItem) (k b : Nat) : Prop where
  rest : (items.drop k).filterMap CodeItem.real =
    (laterItems blocks b).filterMap CodeItem.real
  first : laterItems blocks b ≠ [] → items[k]? = (laterItems blocks b).head?

/-! ## Labels -/

/-- The labels of a block: its own and those of its `Nop`s. -/
def CfBlock.labels (block : CfBlock) : List Label :=
  block.label :: block.instrs.filterMap fun instr =>
    match instr.op with
    | .nop label => label
    | _ => none

/-- No label is used twice. -/
def DistinctLabels (blocks : List CfBlock) : Prop := (blocks.flatMap CfBlock.labels).Nodup

theorem map_label_sublist :
    (blocks.map CfBlock.label).Sublist (blocks.flatMap CfBlock.labels) := by
  induction blocks with
  | nil => exact List.Sublist.refl _
  | cons block blocks hind =>
      rw [map_cons, flatMap_cons, CfBlock.labels, cons_append]
      exact (hind.trans (sublist_append_right ..)).cons_cons _

theorem foldLabels_other {offset : Nat → Nat} :
    ∀ {blocks : List CfBlock} (entry : Nat × Labels), label ∉ blocks.map CfBlock.label →
      (blocks.foldl
        (fun (ip, labels) block =>
          (ip + advance block, update labels block.label (some (offset ip))))
        entry).2 label = entry.2 label := by
  intro blocks
  induction blocks with
  | nil => exact fun _ _ => rfl
  | cons block blocks hind =>
      intro entry absent
      rw [map_cons, mem_cons, not_or] at absent
      rw [foldl_cons, hind _ absent.2]
      exact update_of_ne absent.1 ..

/-- The offset of a block is counted up from the blocks before it. -/
theorem foldLabels_eq {offset : Nat → Nat} {blocks : List CfBlock}
    (distinct : (blocks.map CfBlock.label).Nodup) {b : Nat} (found : blocks[b]? = some block) :
    foldLabels offset advance blocks block.label =
      some (offset ((blocks.take b).map advance).sum) := by
  have general : ∀ (blocks : List CfBlock) (b : Nat) (entry : Nat × Labels),
      (blocks.map CfBlock.label).Nodup → blocks[b]? = some block →
        (blocks.foldl
          (fun (ip, labels) block =>
            (ip + advance block, update labels block.label (some (offset ip))))
          entry).2 block.label =
            some (offset (entry.1 + ((blocks.take b).map advance).sum)) := by
    intro blocks
    induction blocks with
    | nil =>
        intro b entry _ found
        simp at found
    | cons first blocks hind =>
        intro b entry distinct found
        rw [map_cons, nodup_cons] at distinct
        rw [foldl_cons]
        cases b with
        | zero =>
            cases found
            rw [foldLabels_other _ distinct.1]
            simp
        | succ b =>
            rw [hind b _ distinct.2 found]
            simp [Nat.add_assoc]
  rw [foldLabels, general blocks b _ distinct found, Nat.zero_add]

theorem nopLabel_other :
    ∀ {instrs : List CfInstr} (entry : Nat × Labels),
      (∀ instr ∈ instrs, instr.op ≠ .nop (some label)) →
        (instrs.foldl nopLabel entry).2 label = entry.2 label := by
  intro instrs
  induction instrs with
  | nil => exact fun _ _ => rfl
  | cons instr instrs hind =>
      intro entry absent
      rw [foldl_cons, hind _ fun later member => absent later (mem_cons_of_mem _ member)]
      have other := absent instr mem_cons_self
      rw [nopLabel]
      cases op : instr.op with
      | nop named =>
          cases named with
          | none => rfl
          | some name =>
              rw [op] at other
              exact update_of_ne (fun same => other (by rw [same])) ..
      | bra | push | bssy | other => rfl

theorem nopLabel_count (instrs : List CfInstr) (entry : Nat × Labels) :
    (instrs.foldl nopLabel entry).1 = entry.1 + instrs.length * 4 := by
  induction instrs generalizing entry with
  | nil => rfl
  | cons instr instrs hind =>
      rw [foldl_cons, hind, nopLabel, length_cons]
      omega

theorem mem_labels_of_nop {instr : CfInstr} (member : instr ∈ block.instrs)
    (named : instr.op = .nop (some label)) :
    label ∈ block.labels := by
  rw [CfBlock.labels]
  refine mem_cons_of_mem _ (mem_filterMap.mpr ⟨instr, member, ?_⟩)
  rw [named]

theorem mem_labels (own : label ∈ block.labels) :
    label = block.label ∨ ∃ instr ∈ block.instrs, instr.op = .nop (some label) := by
  rw [CfBlock.labels, mem_cons, mem_filterMap] at own
  rcases own with named | ⟨instr, member, named⟩
  · exact .inl named
  · refine .inr ⟨instr, member, ?_⟩
    cases op : instr.op with
    | nop label' =>
        rw [op] at named
        exact congrArg CfOp.nop named
    | bra | push | bssy | other =>
        rw [op] at named
        cases named

theorem sm70Labels_other :
    ∀ {blocks : List CfBlock} (entry : Nat × Labels),
      label ∉ blocks.flatMap CfBlock.labels →
        (blocks.foldl
          (fun (ip, labels) block =>
            block.instrs.foldl nopLabel (ip, update labels block.label (some ip)))
          entry).2 label = entry.2 label := by
  intro blocks
  induction blocks with
  | nil => exact fun _ _ => rfl
  | cons block blocks hind =>
      intro entry absent
      rw [flatMap_cons, mem_append, not_or] at absent
      rw [foldl_cons, hind _ absent.2, nopLabel_other]
      · exact update_of_ne (fun same => absent.1 (by rw [same]; exact mem_cons_self)) ..
      · intro instr member named
        exact absent.1 (mem_labels_of_nop member named)

theorem foldLabels_absent {offset : Nat → Nat} {blocks : List CfBlock}
    (absent : label ∉ blocks.map CfBlock.label) :
    foldLabels offset advance blocks label = none :=
  foldLabels_other (0, fun _ => none) absent

theorem sm70Labels_absent {blocks : List CfBlock} (absent : label ∉ blocks.flatMap CfBlock.labels) :
    sm70Labels blocks label = none :=
  sm70Labels_other (0, fun _ => none) absent

/-- The offset of a `Nop` in a list of instructions. -/
theorem nopLabel_at :
    ∀ {instrs : List CfInstr} {i : Nat} {instr : CfInstr} (entry : Nat × Labels),
      (instrs.filterMap fun instr =>
        match instr.op with
        | .nop label => label
        | _ => none).Nodup →
      instrs[i]? = some instr → instr.op = .nop (some label) →
        (instrs.foldl nopLabel entry).2 label = some (entry.1 + i * 4) := by
  intro instrs
  induction instrs with
  | nil =>
      intro i instr _ _ inside
      simp at inside
  | cons first instrs hind =>
      intro i instr entry distinct inside named
      rw [foldl_cons]
      cases i with
      | zero =>
          cases inside
          rw [filterMap_cons, named, nodup_cons] at distinct
          rw [nopLabel_other, nopLabel, named]
          · simp
          · intro later member again
            exact distinct.1 (mem_filterMap.mpr ⟨later, member, by rw [again]⟩)
      | succ i =>
          have later := ((sublist_cons_self first instrs).filterMap _).nodup distinct
          rw [hind _ later inside named, nopLabel]
          congr 1
          dsimp only
          omega

/-- A label of a block is offset as in the block alone, behind the blocks before it. -/
theorem sm70Labels_at {k : Nat} (own : label ∈ block.labels)
    (alone : block.labels.Nodup → ∀ ip labels, (block.instrs.foldl nopLabel
      (ip, update labels block.label (some ip))).2 label = some (ip + k))
    {blocks : List CfBlock} (distinct : DistinctLabels blocks) {b : Nat}
    (found : blocks[b]? = some block) :
    sm70Labels blocks label =
      some (((blocks.take b).map fun block => block.instrs.length * 4).sum + k) := by
  have general : ∀ (blocks : List CfBlock) (b : Nat) (entry : Nat × Labels),
      (blocks.flatMap CfBlock.labels).Nodup → blocks[b]? = some block →
        (blocks.foldl
          (fun (ip, labels) block =>
            block.instrs.foldl nopLabel (ip, update labels block.label (some ip)))
          entry).2 label =
            some (entry.1 + ((blocks.take b).map fun block => block.instrs.length * 4).sum + k) := by
    intro blocks
    induction blocks with
    | nil =>
        intro b entry _ found
        simp at found
    | cons first blocks hind =>
        intro b entry distinct found
        rw [flatMap_cons, nodup_append] at distinct
        rcases distinct with ⟨once, later, apart⟩
        rw [foldl_cons]
        cases b with
        | zero =>
            cases found
            rw [sm70Labels_other _ fun again => apart _ own _ again rfl, alone once]
            simp
        | succ b =>
            rw [hind b _ later found, nopLabel_count]
            simp [Nat.add_assoc]
  rw [sm70Labels, general blocks b _ distinct found, Nat.zero_add]

/-- From SM70 on as well, where a `Nop` may have a label. -/
theorem sm70Labels_eq {blocks : List CfBlock} (distinct : DistinctLabels blocks) {b : Nat}
    (found : blocks[b]? = some block) :
    sm70Labels blocks block.label =
      some ((blocks.take b).map fun block => block.instrs.length * 4).sum := by
  refine sm70Labels_at (k := 0) mem_cons_self ?_ distinct found
  intro once ip labels
  rw [CfBlock.labels, nodup_cons] at once
  rw [nopLabel_other]
  · simp
  · intro instr member named
    exact once.1 (mem_filterMap.mpr ⟨instr, member, by rw [named]⟩)

theorem sum_map_mul (count : CfBlock → Nat) (unit : Nat) (blocks : List CfBlock) :
    (blocks.map fun block => count block * unit).sum = (blocks.map count).sum * unit := by
  induction blocks with
  | nil => exact (Nat.zero_mul unit).symm
  | cons block blocks hind => simp only [map_cons, sum_cons, hind, Nat.add_mul]

/-- A `Nop` counts the instructions before it. -/
theorem sm70Labels_nop {blocks : List CfBlock} (distinct : DistinctLabels blocks) {b i : Nat}
    {instr : CfInstr} (found : blocks[b]? = some block) (inside : block.instrs[i]? = some instr)
    (named : instr.op = .nop (some label)) :
    sm70Labels blocks label =
      some ((((blocks.take b).map fun block => block.instrs.length).sum + i) * 4) := by
  have own := mem_labels_of_nop (mem_of_getElem? inside) named
  rw [sm70Labels_at own (fun once ip labels => nopLabel_at _ (nodup_cons.mp once).2 inside named)
    distinct found, sum_map_mul, Nat.add_mul]

/-! ## Places -/

theorem instrItems_split (b : Nat) :
    instrItems blocks = (blocks.zipIdx.take b).flatMap (fun (block, b) => blockItems block b) ++
      laterItems blocks b := by
  rw [laterItems, ← flatMap_append, take_append_drop]
  rfl

/-- The lengths of what the blocks before one become. -/
theorem length_flatMap_take (place : CfBlock → Nat → List CodeItem) (advance : CfBlock → Nat)
    (lengths : ∀ block b, (place block b).length = advance block) (blocks : List CfBlock)
    (b : Nat) :
    ((blocks.zipIdx.take b).flatMap fun (block, b) => place block b).length =
      ((blocks.take b).map advance).sum := by
  rw [length_flatMap]
  have same : (blocks.zipIdx.take b).map (fun entry => (place entry.1 entry.2).length) =
      (blocks.take b).map advance := by
    conv_rhs => rw [← zipIdx_map_fst 0 blocks]
    rw [← map_take, map_map]
    apply map_congr_left
    intro entry _
    exact lengths entry.1 entry.2
  exact congrArg List.sum same

theorem length_blockItems (block : CfBlock) (b : Nat) :
    (blockItems block b).length = block.instrs.length := by
  rw [blockItems, length_map, length_zipIdx]

/-- The instructions before a block. -/
def countBefore (blocks : List CfBlock) (b : Nat) : Nat :=
  ((blocks.take b).map fun block => block.instrs.length).sum

theorem drop_instrItems (b : Nat) :
    (instrItems blocks).drop (countBefore blocks b) = laterItems blocks b := by
  rw [instrItems_split blocks b, drop_left']
  exact length_flatMap_take _ _ length_blockItems blocks b

theorem getElem_instrItems (b : Nat) :
    (instrItems blocks)[countBefore blocks b]? = (laterItems blocks b).head? := by
  rw [← drop_instrItems, List.head?_drop]

/-- Without a schedule the words are the instructions. -/
theorem startsAt_instrItems (b : Nat) :
    StartsAt blocks (instrItems blocks) (countBefore blocks b) b where
  rest := by rw [drop_instrItems]
  first := fun _ => getElem_instrItems blocks b

theorem countBefore_le (b : Nat) :
    countBefore blocks b ≤ (instrItems blocks).length := by
  rw [instrItems_split blocks b, length_append,
    length_flatMap_take _ _ length_blockItems blocks b]
  exact Nat.le_add_right ..

theorem startsAt_keplerItems (b : Nat) :
    StartsAt blocks (keplerItems blocks)
      (countBefore blocks b + countBefore blocks b / 7 + 1) b where
  rest := by
    rw [keplerItems, filterMap_drop_grouped (by decide) (fun _ => rfl) rfl
      (countBefore_le blocks b), drop_instrItems]
  first := by
    intro more
    have inside : countBefore blocks b < (instrItems blocks).length := by
      rw [← drop_instrItems, ne_eq, drop_eq_nil_iff, Nat.not_le] at more
      exact more
    rw [keplerItems, getElem_grouped (by decide) _ _ inside, getElem_instrItems]

/-- The words of one block with those of its schedule. -/
def groupedBlock (block : CfBlock) (b : Nat) : List CodeItem :=
  grouped 3 (fun _ => .sched) .filling (blockItems block b)

theorem length_groupedBlock (block : CfBlock) (b : Nat) :
    (groupedBlock block b).length =
      nextMultipleOf block.instrs.length 3 + nextMultipleOf block.instrs.length 3 / 3 := by
  rw [groupedBlock, length_grouped (by decide), length_blockItems, nextMultipleOf]
  omega

/-- The words before a block. -/
def groupedBefore (blocks : List CfBlock) (b : Nat) : Nat :=
  ((blocks.take b).map fun block =>
    nextMultipleOf block.instrs.length 3 + nextMultipleOf block.instrs.length 3 / 3).sum

/-- The words from a block on. -/
def laterGroups (blocks : List CfBlock) (b : Nat) : List CodeItem :=
  (blocks.zipIdx.drop b).flatMap fun (block, b) => groupedBlock block b

theorem drop_sm50Items (b : Nat) :
    (sm50Items blocks).drop (groupedBefore blocks b) = laterGroups blocks b := by
  have split : sm50Items blocks =
      (blocks.zipIdx.take b).flatMap (fun (block, b) => groupedBlock block b) ++
        laterGroups blocks b := by
    rw [laterGroups, ← flatMap_append, take_append_drop]
    rfl
  rw [split, drop_left']
  exact length_flatMap_take _ _ length_groupedBlock blocks b

/-- The words of the schedule aside, the instructions are all there. -/
theorem filterMap_groupedBlocks :
    (entries.flatMap fun entry => groupedBlock entry.1 entry.2).filterMap CodeItem.real =
      (entries.flatMap fun entry => blockItems entry.1 entry.2).filterMap CodeItem.real := by
  induction entries with
  | nil => rfl
  | cons entry entries hind =>
      rw [flatMap_cons, flatMap_cons, filterMap_append, filterMap_append,
        hind, groupedBlock, filterMap_grouped (by decide) (fun _ => rfl) rfl]

/-- Behind the first word of the schedule come the instructions. -/
theorem drop_one_groupedBlocks :
    ((entries.flatMap fun entry => groupedBlock entry.1 entry.2).drop 1).filterMap
        CodeItem.real =
      (entries.flatMap fun entry => blockItems entry.1 entry.2).filterMap CodeItem.real := by
  rw [← filterMap_groupedBlocks]
  induction entries with
  | nil => rfl
  | cons entry entries hind =>
      by_cases empty : blockItems entry.1 entry.2 = []
      · have no_group : groupedBlock entry.1 entry.2 = [] := by
          rw [groupedBlock, empty, grouped_nil]
        rw [flatMap_cons, no_group, nil_append, hind]
      · rw [flatMap_cons, groupedBlock, grouped_cons (by decide) _ _ empty]
        rfl

theorem getElem_one_groupedBlocks
    (some_items : (entries.flatMap fun entry => blockItems entry.1 entry.2) ≠ []) :
    (entries.flatMap fun entry => groupedBlock entry.1 entry.2)[1]? =
      (entries.flatMap fun entry => blockItems entry.1 entry.2).head? := by
  induction entries with
  | nil => exact absurd rfl some_items
  | cons entry entries hind =>
      rw [flatMap_cons] at some_items ⊢
      rw [flatMap_cons]
      by_cases empty : blockItems entry.1 entry.2 = []
      · have no_group : groupedBlock entry.1 entry.2 = [] := by
          rw [groupedBlock, empty, grouped_nil]
        rw [empty, nil_append] at some_items
        rw [no_group, empty, nil_append, nil_append, hind some_items]
      · have inside : 0 < (blockItems entry.1 entry.2).length := length_pos_of_ne_nil empty
        have place : (groupedBlock entry.1 entry.2)[1]? = (blockItems entry.1 entry.2)[0]? :=
          getElem_grouped (by decide) _ _ inside
        have more : 1 < (groupedBlock entry.1 entry.2).length := by
          by_contra short
          rw [getElem?_eq_none (by omega), getElem?_eq_getElem inside] at place
          cases place
        rw [getElem?_append_left more, place, List.head?_append_of_ne_nil _ empty,
          List.head?_eq_getElem?]

theorem startsAt_sm50Items (b : Nat) :
    StartsAt blocks (sm50Items blocks) (groupedBefore blocks b + 1) b where
  rest := by
    rw [← drop_drop, drop_sm50Items]
    exact drop_one_groupedBlocks (blocks.zipIdx.drop b)
  first := by
    intro more
    rw [← getElem?_drop, drop_sm50Items]
    exact getElem_one_groupedBlocks (blocks.zipIdx.drop b) more

/-! ## The offset of a label -/

namespace NvTarget

/-- The word where a block starts, behind those of the schedule. -/
def blockStart (blocks : List CfBlock) (b : Nat) : NvTarget → Nat
  | .sm20 | .sm70 _ => countBefore blocks b
  | .sm30 | .sm32 => countBefore blocks b + countBefore blocks b / 7 + 1
  | .sm50 => groupedBefore blocks b + 1

theorem startsAt_blockStart (target : NvTarget) (blocks : List CfBlock) (b : Nat) :
    StartsAt blocks (target.items blocks) (target.blockStart blocks b) b := by
  cases target with
  | sm20 | sm70 sm => exact startsAt_instrItems blocks b
  | sm30 | sm32 => exact startsAt_keplerItems blocks b
  | sm50 => exact startsAt_sm50Items blocks b

/-- On every target the label of a block is at the offset where the block starts. -/
theorem labels_block (target : NvTarget) {blocks : List CfBlock}
    (distinct : DistinctLabels blocks) {b : Nat} {block : CfBlock}
    (found : blocks[b]? = some block) :
    target.labels blocks block.label = some (target.blockStart blocks b * target.unit) := by
  have apart := (map_label_sublist blocks).nodup distinct
  cases target with
  | sm20 => rw [labels, sm20Labels, foldLabels_eq apart found, blockStart, countBefore, unit, sum_map_mul]
  | sm30 | sm32 =>
      rw [labels, keplerLabels, foldLabels_eq apart found]
      rfl
  | sm50 =>
      rw [labels, sm50Labels, foldLabels_eq apart found, blockStart, groupedBefore, unit,
        sum_map_mul]
      congr 1
      omega
  | sm70 sm =>
      rw [labels, sm70Labels_eq distinct found, blockStart, countBefore, unit, sum_map_mul]

/-- A label belongs to a word: that of its block, or from SM70 on that of its `Nop`. -/
inductive LabelledAt (blocks : List CfBlock) (label : Label) : NvTarget → Nat → Prop where
  | block {target : NvTarget} {b : Nat} {block : CfBlock} (found : blocks[b]? = some block)
      (named : block.label = label) :
      LabelledAt blocks label target (target.blockStart blocks b)
  | nop {sm b i : Nat} {block : CfBlock} {instr : CfInstr} (found : blocks[b]? = some block)
      (inside : block.instrs[i]? = some instr) (named : instr.op = .nop (some label)) :
      LabelledAt blocks label (.sm70 sm) (countBefore blocks b + i)

/-- A label that has an offset belongs to a word. -/
theorem exists_labelledAt {target : NvTarget} {blocks : List CfBlock} {label : Label} {t : Nat}
    (labelled : target.labels blocks label = some t) :
    ∃ s, LabelledAt blocks label target s := by
  by_cases member : label ∈ blocks.map CfBlock.label
  · rcases mem_map.mp member with ⟨block, member, named⟩
    rcases getElem?_of_mem member with ⟨b, found⟩
    exact ⟨_, .block found named⟩
  · cases target with
    | sm20 | sm30 | sm32 | sm50 =>
        simp only [labels, sm20Labels, keplerLabels, sm50Labels, foldLabels_absent member,
          reduceCtorEq] at labelled
    | sm70 sm =>
        by_cases nop_member : label ∈ blocks.flatMap CfBlock.labels
        · rcases mem_flatMap.mp nop_member with ⟨block, block_member, own⟩
          rcases getElem?_of_mem block_member with ⟨b, found⟩
          rcases mem_labels own with named | ⟨instr, inside, named⟩
          · exact ⟨_, .block found named.symm⟩
          · rcases getElem?_of_mem inside with ⟨i, place⟩
            exact ⟨_, .nop found place named⟩
        · cases (sm70Labels_absent nop_member).symm.trans labelled

/-- A label that belongs to a word has its offset. -/
theorem labels_of_labelledAt {target : NvTarget} {blocks : List CfBlock}
    (distinct : DistinctLabels blocks) {label : Label} {s : Nat}
    (labelled : LabelledAt blocks label target s) :
    target.labels blocks label = some (s * target.unit) := by
  cases labelled with
  | block found named =>
      rw [← named]
      exact labels_block target distinct found
  | nop found inside named =>
      exact sm70Labels_nop distinct found inside named

end NvTarget

end CoralReef
