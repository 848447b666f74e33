import CoralReef.Codegen.OptJumpThread

/-!
# The loop over the blocks

From the last block to the first, the replacements are where jumps to the blocks visited land, and
the branches at the end of these blocks have been redirected.
-/

open List
open Function (update_of_ne update_self)

namespace CoralReef

/-- An unconditional branch. -/
def Op.IsJump (op : Op) : Prop :=
  op = .exit ∨ ∃ target cond, op = .bra target cond ∧ cond.isTrue = true

namespace Function

variable {f : Function}

/-- No two blocks have one label. -/
def LabelsUnique (f : Function) : Prop := (f.blocks.blocks.map BasicBlock.label).Nodup

/-- Every branch is a `Bra` or an `Exit`. -/
def BranchesPlain (f : Function) : Prop :=
  ∀ block ∈ f.blocks.blocks, ∀ instr ∈ block.instrs, instr.isBranch = true →
    instr.op = .exit ∨ ∃ target cond, instr.op = .bra target cond

theorem LabelsUnique.eq (unique : f.LabelsUnique) {i j : Nat} {a b : BasicBlock}
    (here : f.blocks.blocks[i]? = some a) (there : f.blocks.blocks[j]? = some b)
    (same : a.label = b.label) : i = j := by
  have inside : i < (f.blocks.blocks.map BasicBlock.label).length := by
    rw [List.length_map]
    exact (List.getElem?_eq_some_iff.mp here).1
  apply (List.getElem?_inj inside unique).mp
  rw [getElem?_map, getElem?_map, here, there, Option.map_some, Option.map_some, same]

/-- A jump lands in one way. -/
theorem Lands.unique (unique : f.LabelsUnique) {i : Nat} {label : Label} {how how' : Leave}
    (first : f.Lands i label how) (second : f.Lands i label how') : how = how' := by
  induction first generalizing how' with
  | stay nothing =>
    cases second with
    | stay => rfl
    | branch below here isLabel only always | exit below here isLabel only always =>
      exact absurd ⟨_, _, below, here, isLabel, .inl ⟨_, only, always⟩⟩ nothing
    | empty below here isLabel only isNext =>
      exact absurd ⟨_, _, below, here, isLabel,
        .inr ⟨only, (List.getElem?_eq_some_iff.mp isNext).1⟩⟩ nothing
  | @branch i j block instr label target cond how below here isLabel only always isBra rest ih =>
    cases second with
    | stay nothing => exact absurd ⟨_, _, below, here, isLabel, .inl ⟨_, only, always⟩⟩ nothing
    | branch below' here' isLabel' only' always' isBra' rest' =>
      cases unique.eq here here' (isLabel.trans isLabel'.symm)
      cases here.symm.trans here'
      cases only.symm.trans only'
      cases isBra.symm.trans isBra'
      exact ih rest'
    | exit below' here' isLabel' only' always' isExit =>
      cases unique.eq here here' (isLabel.trans isLabel'.symm)
      cases here.symm.trans here'
      cases only.symm.trans only'
      cases isBra.symm.trans isExit
    | empty below' here' isLabel' only' =>
      cases unique.eq here here' (isLabel.trans isLabel'.symm)
      cases here.symm.trans here'
      cases only.symm.trans only'
  | @exit i j block instr label below here isLabel only always isExit =>
    cases second with
    | stay nothing => exact absurd ⟨_, _, below, here, isLabel, .inl ⟨_, only, always⟩⟩ nothing
    | branch below' here' isLabel' only' always' isBra' =>
      cases unique.eq here here' (isLabel.trans isLabel'.symm)
      cases here.symm.trans here'
      cases only.symm.trans only'
      cases isExit.symm.trans isBra'
    | exit => rfl
    | empty below' here' isLabel' only' =>
      cases unique.eq here here' (isLabel.trans isLabel'.symm)
      cases here.symm.trans here'
      cases only.symm.trans only'
  | @empty i j block next label how below here isLabel only isNext rest ih =>
    cases second with
    | stay nothing =>
      exact absurd ⟨_, _, below, here, isLabel,
        .inr ⟨only, (List.getElem?_eq_some_iff.mp isNext).1⟩⟩ nothing
    | branch below' here' isLabel' only' | exit below' here' isLabel' only' =>
      cases unique.eq here here' (isLabel.trans isLabel'.symm)
      cases here.symm.trans here'
      cases only.symm.trans only'
    | empty below' here' isLabel' only' isNext' rest' =>
      cases unique.eq here here' (isLabel.trans isLabel'.symm)
      cases here.symm.trans here'
      cases isNext.symm.trans isNext'
      exact ih rest'

/-- Block `i` is looked at as well: nothing changes for other labels. -/
theorem passed_succ {i : Nat} {block : BasicBlock} (here : f.blocks.blocks[i]? = some block)
    {label : Label} (other : block.label ≠ label) : f.Passed i label ↔ f.Passed (i + 1) label := by
  constructor
  · rintro ⟨j, block', below, there, isLabel, idle⟩
    refine ⟨j, block', ?_, there, isLabel, idle⟩
    have apart : i ≠ j := by
      rintro rfl
      cases here.symm.trans there
      exact other isLabel
    omega
  · rintro ⟨j, block', below, rest⟩
    exact ⟨j, block', by omega, rest⟩

theorem Lands.pred {i : Nat} {block : BasicBlock} (here : f.blocks.blocks[i]? = some block)
    {label : Label} (other : block.label ≠ label) {how : Leave} (lands : f.Lands (i + 1) label how) :
    f.Lands i label how := by
  cases lands with
  | stay nothing => exact .stay fun passed => nothing ((passed_succ here other).mp passed)
  | branch below here isLabel only always isBra rest =>
    exact .branch (by omega) here isLabel only always isBra rest
  | exit below here isLabel only always isExit =>
    exact .exit (by omega) here isLabel only always isExit
  | empty below here isLabel only isNext rest => exact .empty (by omega) here isLabel only isNext rest

/-- Further down there is no other block of the label. -/
theorem LabelsUnique.not_passed (unique : f.LabelsUnique) {i : Nat} {block : BasicBlock}
    (here : f.blocks.blocks[i]? = some block) : ¬ f.Passed (i + 1) block.label := by
  rintro ⟨j, block', below, there, isLabel, -⟩
  have := unique.eq here there isLabel.symm
  omega

theorem Redirected.lands {b : Nat} {target : Label} {cond : Src} {how : Leave}
    (redirected : f.Redirected b (.bra target cond) how) : f.Lands (b + 1) target how := by
  cases redirected with
  | jump _ lands => exact lands
  | exit _ lands _ => exact lands

/-- The branch `op` at the end of block `b` is made `op'`. -/
structure Redirects (f : Function) (b : Nat) (op op' : Op) : Prop where
  leads : f.Redirected b op op'.leave
  isBra : ∃ target cond, op = .bra target cond ∧
    (cond.isTrue = true ∧ op'.IsJump ∨ cond.isTrue = false ∧ ∃ target', op' = .bra target' cond)

end Function

namespace JumpThread

variable {f : Function}
variable {replacements : Label → Option Op}

theorem cloneBranch_ok {op : Op} (jump : op.IsJump) : cloneBranch op = .ok op := by
  rcases jump with rfl | ⟨target, cond, rfl, always⟩
  · rfl
  · rw [cloneBranch, always]
    rfl

/-- Each replacement is where a jump to its label lands, with the blocks from `i` on. -/
structure Replaced (f : Function) (i : Nat) (replacements : Label → Option Op) : Prop where
  absent : ∀ label, replacements label = none → ¬ f.Passed i label
  present : ∀ label op, replacements label = some op →
    f.Passed i label ∧ f.Lands i label op.leave ∧ op.IsJump

theorem Replaced.redirected {i : Nat} (replaced : Replaced f (i + 1) replacements) {target : Label}
    {cond : Src} (passed : f.Passed (i + 1) target) (always : cond.isTrue = true) :
    ∃ how, f.Redirected i (.bra target cond) how := by
  cases isReplaced : replacements target with
  | none => exact absurd passed (replaced.absent target isReplaced)
  | some op =>
    obtain ⟨-, lands, jump⟩ := replaced.present target op isReplaced
    rcases jump with rfl | ⟨target', cond', rfl, -⟩
    · exact ⟨_, .exit passed lands always⟩
    · exact ⟨_, .jump passed lands⟩

theorem redirect_ok (unique : f.LabelsUnique) {i : Nat} (replaced : Replaced f (i + 1) replacements)
    (instr : Instr) :
    (redirect replacements instr = .ok none ∧ ∀ how, ¬ f.Redirected i instr.op how) ∨
    ∃ op, redirect replacements instr = .ok (some { instr with op }) ∧
      f.Redirects i instr.op op := by
  unfold redirect
  split
  next target cond isBra =>
    split
    next op isReplaced =>
      obtain ⟨passed, lands, jump⟩ := replaced.present target op isReplaced
      have leads : ∀ {op' : Op}, op'.leave = op.leave → (op = .exit → cond.isTrue = true) →
          f.Redirected i (.bra target cond) op'.leave := by
        intro op' same ifExit
        rw [same]
        rcases jump with rfl | ⟨target', cond', rfl, -⟩
        · exact .exit passed lands (ifExit rfl)
        · exact .jump passed lands
      split
      next always =>
        right
        refine ⟨op, ?_, ?_, target, cond, isBra, .inl ⟨always, jump⟩⟩
        · rw [cloneBranch_ok jump]
          rfl
        · rw [isBra]
          exact leads rfl fun _ => always
      next sometimes =>
        rcases jump with rfl | ⟨target', cond', rfl, -⟩
        · left
          refine ⟨rfl, ?_⟩
          intro how redirected
          rw [isBra] at redirected
          cases redirected with
          | jump passed' lands' => cases lands.unique unique lands'
          | exit passed' lands' always => exact sometimes always
        · right
          refine ⟨.bra target' cond, rfl, ?_, target, cond, isBra, .inr ⟨by simpa using sometimes, _, rfl⟩⟩
          rw [isBra]
          exact leads rfl fun never => by cases never
    next isReplaced =>
      left
      refine ⟨rfl, ?_⟩
      intro how redirected
      rw [isBra] at redirected
      cases redirected with
      | jump passed | exit passed => exact replaced.absent target isReplaced passed
  next other =>
    left
    refine ⟨rfl, ?_⟩
    intro how redirected
    cases isOp : instr.op with
    | bra target cond => exact other target cond isOp
    | _ =>
      rw [isOp] at redirected
      cases redirected

/-- An instruction that is redirected is taken as often as before. -/
theorem redirects_always {b : Nat} {instr : Instr} {op : Op}
    (redirects : f.Redirects b instr.op op) :
    Instr.isBranchAlwaysTaken { instr with op } = instr.isBranchAlwaysTaken := by
  obtain ⟨target, cond, isBra, ⟨always, jump⟩ | ⟨sometimes, target', rfl⟩⟩ := redirects.isBra
  · rcases jump with rfl | ⟨target', cond', rfl, always'⟩
    · simp [Instr.isBranchAlwaysTaken, isBra, always, Op.isBranch]
    · simp [Instr.isBranchAlwaysTaken, isBra, always, always']
  · simp [Instr.isBranchAlwaysTaken, isBra]

theorem isJump_of_always {instr : Instr} (always : instr.isBranchAlwaysTaken = true)
    (plain : instr.isBranch = true →
      instr.op = .exit ∨ ∃ target cond, instr.op = .bra target cond) : instr.op.IsJump := by
  rcases plain (isBranch_of_always always) with isExit | ⟨target, cond, isBra⟩
  · exact .inl isExit
  · refine .inr ⟨target, cond, isBra, ?_⟩
    unfold Instr.isBranchAlwaysTaken at always
    rw [isBra] at always
    split at always
    · exact always
    · cases always

/-- The end of block `b` has been redirected if it could be. -/
structure BlockDone (f : Function) (b : Nat) (block block' : BasicBlock) : Prop where
  label : block'.label = block.label
  uniform : block'.uniform = block.uniform
  instrs : (block'.instrs = block.instrs ∧ ∀ instr, block.instrs.getLast? = some instr →
      ∀ how, ¬ f.Redirected b instr.op how) ∨
    ∃ front instr op, block.instrs = front ++ [instr] ∧
      block'.instrs = front ++ [{ instr with op }] ∧ f.Redirects b instr.op op

/-- What the loop has done when the blocks from `i` on have been visited. -/
structure Threaded (f : Function) (i : Nat) (state : Threading) : Prop where
  length : state.blocks.length = f.blocks.len
  before : ∀ b, b < i → state.blocks[b]? = f.blocks.blocks[b]?
  done : ∀ b block, i ≤ b → f.blocks.blocks[b]? = some block →
    ∃ block', state.blocks[b]? = some block' ∧ BlockDone f b block block'
  replaced : Replaced f i state.replacements
  progress : state.progress = true ↔ ∃ b instr how, i ≤ b ∧ (f.instrs b).getLast? = some instr ∧
    f.Redirected b instr.op how

/-- A block that is trivial or empty gets a replacement. -/
theorem replacement_ok (unique : f.LabelsUnique) (plain : f.BranchesPlain) {i : Nat}
    {state : Threading} (threaded : Threaded f (i + 1) state) {block : BasicBlock}
    (here : f.blocks.blocks[i]? = some block) {block' : BasicBlock}
    (isDone : BlockDone f i block block') :
    (replacement state.blocks state.replacements i block'.instrs = .ok none ∧
      ¬ f.Passed i block.label) ∨
    ∃ op, replacement state.blocks state.replacements i block'.instrs = .ok (some op) ∧
      f.Passed i block.label ∧ f.Lands i block.label op.leave ∧ op.IsJump := by
  have only : f.Passed i block.label → (∃ instr, block.instrs = [instr] ∧
      instr.isBranchAlwaysTaken = true) ∨ block.instrs = [] ∧ i + 1 < f.blocks.len := by
    rintro ⟨j, other, -, there, isLabel, idle⟩
    cases unique.eq here there isLabel.symm
    cases here.symm.trans there
    exact idle
  have plainHere : ∀ instr ∈ block.instrs, instr.isBranch = true →
      instr.op = .exit ∨ ∃ target cond, instr.op = .bra target cond :=
    plain block (mem_of_getElem? here)
  rcases isDone.instrs with ⟨same, stays⟩ | ⟨front, instr, op, whole, whole', redirects⟩
  · rw [same]
    match isInstrs : block.instrs with
    | [] =>
      rw [replacement]
      cases isNext : state.blocks[i + 1]? with
      | none =>
        left
        refine ⟨rfl, ?_⟩
        intro passed
        rcases only passed with ⟨instr, one, -⟩ | ⟨-, below⟩
        · cases isInstrs.symm.trans one
        · rw [getElem?_eq_none_iff, threaded.length] at isNext
          omega
      | some next' =>
        right
        have below : i + 1 < f.blocks.len := by
          rw [← threaded.length]
          exact (List.getElem?_eq_some_iff.mp isNext).1
        obtain ⟨next, thereNext⟩ : ∃ next, f.blocks.blocks[i + 1]? = some next :=
          ⟨_, getElem?_eq_getElem below⟩
        obtain ⟨next'', isNext', doneNext⟩ := threaded.done (i + 1) next (Nat.le_refl _) thereNext
        cases isNext.symm.trans isNext'
        have passed : f.Passed i block.label :=
          ⟨i, block, Nat.le_refl i, here, rfl, .inr ⟨isInstrs, below⟩⟩
        dsimp only
        rw [doneNext.label]
        cases isReplaced : state.replacements next.label with
        | some op =>
          obtain ⟨-, lands, jump⟩ := threaded.replaced.present _ op isReplaced
          refine ⟨op, ?_, passed, .empty (Nat.le_refl i) here rfl isInstrs thereNext lands, jump⟩
          dsimp only
          rw [cloneBranch_ok jump]
          rfl
        | none =>
          refine ⟨_, rfl, passed, .empty (Nat.le_refl i) here rfl isInstrs thereNext ?_,
            .inr ⟨_, _, rfl, rfl⟩⟩
          exact .stay (threaded.replaced.absent _ isReplaced)
    | [instr] =>
      rw [replacement]
      by_cases always : instr.isBranchAlwaysTaken = true
      · right
        have jump := isJump_of_always always (plainHere instr (by simp [isInstrs]))
        have passed : f.Passed i block.label :=
          ⟨i, block, Nat.le_refl i, here, rfl, .inl ⟨instr, isInstrs, always⟩⟩
        rw [if_pos always, cloneBranch_ok jump]
        refine ⟨instr.op, rfl, passed, ?_, jump⟩
        rcases jump with isExit | ⟨target, cond, isBra, isTrue⟩
        · rw [isExit]
          exact .exit (Nat.le_refl i) here rfl isInstrs always isExit
        · rw [isBra]
          refine .branch (Nat.le_refl i) here rfl isInstrs always isBra (.stay ?_)
          intro passed'
          have last : block.instrs.getLast? = some instr := by rw [isInstrs]; rfl
          obtain ⟨how, redirected⟩ := threaded.replaced.redirected passed' isTrue
          rw [← isBra] at redirected
          exact stays instr last how redirected
      · left
        rw [if_neg always]
        refine ⟨rfl, ?_⟩
        intro passed
        rcases only passed with ⟨instr', one, always'⟩ | ⟨empty, -⟩
        · cases isInstrs.symm.trans one
          exact always always'
        · cases isInstrs.symm.trans empty
    | _ :: _ :: _ =>
      left
      refine ⟨rfl, ?_⟩
      intro passed
      rcases only passed with ⟨instr', one, always'⟩ | ⟨empty, -⟩
      · cases isInstrs.symm.trans one
      · cases isInstrs.symm.trans empty
  · rw [whole']
    cases front with
    | nil =>
      rw [nil_append] at whole ⊢
      rw [replacement, redirects_always redirects]
      by_cases always : instr.isBranchAlwaysTaken = true
      · right
        have passed : f.Passed i block.label :=
          ⟨i, block, Nat.le_refl i, here, rfl, .inl ⟨instr, whole, always⟩⟩
        obtain ⟨target, cond, isBra, taken⟩ := redirects.isBra
        have isTrue : cond.isTrue = true := by
          rcases isJump_of_always always (plainHere instr (by simp [whole])) with isExit | isJump
          · cases isExit.symm.trans isBra
          · obtain ⟨target', cond', isBra', isTrue⟩ := isJump
            cases isBra.symm.trans isBra'
            exact isTrue
        have jump : op.IsJump := by
          rcases taken with ⟨-, jump⟩ | ⟨sometimes, -⟩
          · exact jump
          · rw [isTrue] at sometimes
            cases sometimes
        have leads := redirects.leads
        rw [isBra] at leads
        refine ⟨op, ?_, passed, .branch (Nat.le_refl i) here rfl whole always isBra leads.lands, jump⟩
        rw [if_pos always, cloneBranch_ok jump]
        rfl
      · left
        rw [if_neg always]
        refine ⟨rfl, ?_⟩
        intro passed
        rcases only passed with ⟨instr', one, always'⟩ | ⟨empty, -⟩
        · cases whole.symm.trans one
          exact always always'
        · cases whole.symm.trans empty
    | cons first front =>
      left
      constructor
      · cases front <;> rfl
      · intro passed
        rcases only passed with ⟨instr', one, always'⟩ | ⟨empty, -⟩
        · have := congrArg List.length (whole.symm.trans one)
          simp at this
        · cases whole.symm.trans empty

/-- The replacement of one more block is entered. -/
theorem Replaced.step (unique : f.LabelsUnique) {i : Nat} {block : BasicBlock}
    (here : f.blocks.blocks[i]? = some block) (replaced : Replaced f (i + 1) replacements)
    {op : Option Op} (isOp : (op = none ∧ ¬ f.Passed i block.label) ∨ ∃ op', op = some op' ∧
      f.Passed i block.label ∧ f.Lands i block.label op'.leave ∧ op'.IsJump) :
    Replaced f i (insertReplacement replacements block.label op) := by
  have noLater : replacements block.label = none := by
    cases isReplaced : replacements block.label with
    | none => rfl
    | some op => exact absurd (replaced.present _ op isReplaced).1 (unique.not_passed here)
  have others : ∀ label, block.label ≠ label →
      (replacements label = none → ¬ f.Passed i label) ∧ ∀ op, replacements label = some op →
        f.Passed i label ∧ f.Lands i label op.leave ∧ op.IsJump := by
    intro label other
    rw [f.passed_succ here other]
    refine ⟨replaced.absent label, ?_⟩
    intro op isReplaced
    obtain ⟨passed, lands, jump⟩ := replaced.present label op isReplaced
    exact ⟨passed, lands.pred here other, jump⟩
  rcases isOp with ⟨rfl, nothing⟩ | ⟨op', rfl, passed, lands, jump⟩
  · constructor
    · intro label isNone
      by_cases same : block.label = label
      · exact same ▸ nothing
      · exact (others label same).1 isNone
    · intro label op isSome
      by_cases same : block.label = label
      · rw [← same, insertReplacement, noLater] at isSome
        cases isSome
      · exact (others label same).2 op isSome
  · constructor
    · intro label isNone
      by_cases same : block.label = label
      · rw [← same, insertReplacement, update_self] at isNone
        cases isNone
      · rw [insertReplacement, update_of_ne (Ne.symm same)] at isNone
        exact (others label same).1 isNone
    · intro label op isSome
      by_cases same : block.label = label
      · rw [← same, insertReplacement, update_self] at isSome
        cases isSome
        exact same ▸ ⟨passed, lands, jump⟩
      · rw [insertReplacement, update_of_ne (Ne.symm same)] at isSome
        exact (others label same).2 op isSome

/-- One block of the loop. -/
theorem threadBlock_ok (unique : f.LabelsUnique) (plain : f.BranchesPlain) {i : Nat}
    {state : Threading} (threaded : Threaded f (i + 1) state) (inside : i < f.blocks.len) :
    ∃ state', threadBlock state i = .ok state' ∧ Threaded f i state' := by
  obtain ⟨block, here⟩ : ∃ block, f.blocks.blocks[i]? = some block :=
    ⟨_, getElem?_eq_getElem inside⟩
  have isInstrs : f.instrs i = block.instrs := by
    rw [Function.instrs, here]
    rfl
  have current : state.blocks[i]? = some block := by
    rw [threaded.before i (Nat.lt_succ_self i), here]
  obtain ⟨redirected, runs, instrs', isInstrs', isDone, isProgress⟩ : ∃ redirected,
      redirectLast state.replacements block.instrs = .ok redirected ∧ ∃ instrs',
      instrs' = replaceLast block.instrs redirected ∧
      BlockDone f i block { block with instrs := instrs' } ∧
      (redirected.isSome = true ↔ ∃ instr how, (f.instrs i).getLast? = some instr ∧
        f.Redirected i instr.op how) := by
    rw [redirectLast]
    cases isLast : block.instrs.getLast? with
    | none =>
      refine ⟨none, rfl, _, rfl, ⟨rfl, rfl, .inl ⟨rfl, ?_⟩⟩, ?_⟩
      · intro instr last
        rw [isLast] at last
        cases last
      · rw [isInstrs, isLast]
        simp
    | some instr =>
      rcases redirect_ok unique threaded.replaced instr with ⟨returned, stays⟩ | ⟨op, returned, redirects⟩
      · refine ⟨none, returned, _, rfl, ⟨rfl, rfl, .inl ⟨rfl, ?_⟩⟩, ?_⟩
        · intro instr' last
          cases isLast.symm.trans last
          exact stays
        · rw [isInstrs, isLast]
          constructor
          · intro never
            cases never
          · rintro ⟨instr', how, same, redirected⟩
            cases same
            exact absurd redirected (stays how)
      · refine ⟨some { instr with op }, returned, _, rfl, ⟨rfl, rfl, .inr ⟨block.instrs.dropLast, instr,
          op, ?_, rfl, redirects⟩⟩, ?_⟩
        · exact (dropLast_append_getLast? instr isLast).symm
        · rw [isInstrs, isLast]
          exact ⟨fun _ => ⟨instr, _, rfl, redirects.leads⟩, fun _ => rfl⟩
  have replaces := replacement_ok unique plain threaded here isDone
  obtain ⟨op, found, isOp⟩ : ∃ op, replacement state.blocks state.replacements i instrs' = .ok op ∧
      ((op = none ∧ ¬ f.Passed i block.label) ∨ ∃ op', op = some op' ∧
        f.Passed i block.label ∧ f.Lands i block.label op'.leave ∧ op'.IsJump) := by
    rcases replaces with ⟨found, nothing⟩ | ⟨op, found, isOp⟩
    · exact ⟨none, found, .inl ⟨rfl, nothing⟩⟩
    · exact ⟨some op, found, .inr ⟨op, rfl, isOp⟩⟩
  refine ⟨{
    blocks := state.blocks.set i { block with instrs := instrs' }
    replacements := insertReplacement state.replacements block.label op
    progress := state.progress || redirected.isSome }, ?_, ?_, ?_, ?_, ?_, ?_⟩
  · rw [threadBlock, current, expect_some, ok_bind, runs, ok_bind, ← isInstrs']
    dsimp only
    rw [found]
    rfl
  · rw [length_set, threaded.length]
  · intro b below
    rw [getElem?_set_ne (by omega), threaded.before b (by omega)]
  · intro b other above there
    by_cases same : b = i
    · subst same
      cases here.symm.trans there
      refine ⟨_, ?_, isDone⟩
      rw [getElem?_set_self (threaded.length ▸ inside)]
    · rw [getElem?_set_ne (Ne.symm same)]
      exact threaded.done b other (by omega) there
  · exact threaded.replaced.step unique here isOp
  · rw [Bool.or_eq_true, threaded.progress, isProgress]
    constructor
    · rintro (⟨b, instr, how, above, rest⟩ | ⟨instr, how, rest⟩)
      · exact ⟨b, instr, how, by omega, rest⟩
      · exact ⟨i, instr, how, Nat.le_refl i, rest⟩
    · rintro ⟨b, instr, how, above, rest⟩
      by_cases same : b = i
      · subst same
        exact .inr ⟨instr, how, rest⟩
      · exact .inl ⟨b, instr, how, by omega, rest⟩

/-- The loop over all blocks. -/
theorem threadBlocks_ok (unique : f.LabelsUnique) (plain : f.BranchesPlain) :
    ∃ state, (List.range f.blocks.len).reverse.foldlM threadBlock { blocks := f.blocks.blocks } =
      .ok state ∧ Threaded f 0 state := by
  have loop : ∀ k, k ≤ f.blocks.len → ∀ state, Threaded f k state →
      ∃ state', (List.range k).reverse.foldlM threadBlock state = .ok state' ∧
        Threaded f 0 state' := by
    intro k
    induction k with
    | zero => exact fun _ state threaded => ⟨state, rfl, threaded⟩
    | succ k ih =>
      intro inside state threaded
      obtain ⟨state₁, first, threaded₁⟩ := threadBlock_ok unique plain threaded inside
      obtain ⟨state', rest, threaded'⟩ := ih (by omega) state₁ threaded₁
      refine ⟨state', ?_, threaded'⟩
      rw [range_succ, reverse_append, reverse_singleton, singleton_append,
        foldlM_cons, first, ok_bind]
      exact rest
  have outside : ∀ {b : Nat} {block : BasicBlock}, f.blocks.len ≤ b →
      f.blocks.blocks[b]? ≠ some block := by
    intro b block above there
    have := (List.getElem?_eq_some_iff.mp there).1
    exact absurd this (Nat.not_lt_of_le above)
  apply loop f.blocks.len (Nat.le_refl _)
  refine ⟨rfl, fun _ _ => rfl, fun b block above there => absurd there (outside above), ?_, ?_⟩
  · constructor
    · rintro label - ⟨j, block, above, there, -⟩
      exact outside above there
    · intro label op never
      cases never
  · constructor
    · intro never
      cases never
    · rintro ⟨b, instr, how, above, last, -⟩
      rw [Function.instrs, getElem?_eq_none above] at last
      cases last

end JumpThread

end CoralReef
