import CoralReef.Codegen.OptJumpThread.Proofs.Loop

/-!
# Runs of the threaded function

Where a branch has been redirected, the threaded function passes blocks that do nothing. To drop a
branch to the next block changes no step at all.
-/

open List

namespace CoralReef

open Relation StateTransition

variable {V : Type} {interp : Interp V} {branching : Branching V} {f g : Function}

namespace Function

theorem labelToIdx_eq_some (unique : f.LabelsUnique) {label : Label} {s : Nat} :
    f.labelToIdx label = some s ↔ ∃ block, f.blocks.blocks[s]? = some block ∧ block.label = label := by
  have sound : ∀ {s : Nat}, f.labelToIdx label = some s →
      ∃ block, f.blocks.blocks[s]? = some block ∧ block.label = label := by
    intro s found
    obtain ⟨entry, isEntry, rfl⟩ := Option.map_eq_some_iff.mp found
    have same : entry.1 = label := by simpa using List.find?_some isEntry
    have member := mem_reverse.mp (mem_of_find?_eq_some isEntry)
    have here := mem_zipIdx_iff_getElem?.mp member
    rw [getElem?_map] at here
    obtain ⟨block, there, isLabel⟩ := Option.map_eq_some_iff.mp here
    exact ⟨block, there, isLabel.trans same⟩
  refine ⟨sound, ?_⟩
  rintro ⟨block, here, rfl⟩
  cases found : f.labelToIdx block.label with
  | none =>
    have none := List.find?_eq_none.mp (Option.map_eq_none_iff.mp found)
    have member : (block.label, s) ∈ (f.blocks.blocks.map BasicBlock.label).zipIdx.reverse := by
      rw [mem_reverse, mem_zipIdx_iff_getElem?, getElem?_map]
      simp [here]
    exact absurd (by simp) (none _ member)
  | some s' =>
    obtain ⟨block', here', same⟩ := sound found
    rw [unique.eq here here' same.symm]

/-- A jump to the label of a block enters it. -/
theorem enter_jump (unique : f.LabelsUnique) {b s : Nat} {block : BasicBlock}
    (here : f.blocks.blocks[s]? = some block) (machine : Machine V) :
    f.enter b machine (.jump block.label) = .at s machine := by
  rw [enter, (labelToIdx_eq_some unique).mpr ⟨block, here, rfl⟩]

theorem instrs_eq {b : Nat} {block : BasicBlock} (here : f.blocks.blocks[b]? = some block) :
    f.instrs b = block.instrs := by
  rw [instrs, here]
  rfl

/-- A jump either stays at a label that no block passes on, or is passed on to a jump or an exit. -/
theorem Lands.split {i : Nat} {label : Label} {how : Leave} (lands : f.Lands i label how) :
    (how = .jump label ∧ ¬ f.Passed i label) ∨
      f.Passed i label ∧ (how = .exit ∨ ∃ target, how = .jump target) := by
  induction lands with
  | stay nothing => exact .inl ⟨rfl, nothing⟩
  | branch below here isLabel only always _ _ ih =>
    refine .inr ⟨⟨_, _, below, here, isLabel, .inl ⟨_, only, always⟩⟩, ?_⟩
    rcases ih with ⟨rfl, -⟩ | ⟨-, isHow⟩
    · exact .inr ⟨_, rfl⟩
    · exact isHow
  | exit below here isLabel only always _ =>
    exact .inr ⟨⟨_, _, below, here, isLabel, .inl ⟨_, only, always⟩⟩, .inl rfl⟩
  | empty below here isLabel only isNext _ ih =>
    refine .inr ⟨⟨_, _, below, here, isLabel,
      .inr ⟨only, (List.getElem?_eq_some_iff.mp isNext).1⟩⟩, ?_⟩
    rcases ih with ⟨rfl, -⟩ | ⟨-, isHow⟩
    · exact .inr ⟨_, rfl⟩
    · exact isHow

theorem Lands.enter {i : Nat} {label : Label} {how : Leave} (lands : f.Lands i label how)
    (b b' : Nat) (machine : Machine V) : g.enter b machine how = g.enter b' machine how := by
  rcases lands.split with ⟨rfl, -⟩ | ⟨-, rfl | ⟨target, rfl⟩⟩
  · rfl
  · rfl
  · rfl

/-- A block of one branch that is always taken. -/
theorem next_branch {b : Nat} {instr : Instr} (only : f.instrs b = [instr])
    (always : instr.isBranchAlwaysTaken = true) (machine : Machine V) :
    f.next interp branching (.at b machine) = some (f.enter b machine instr.op.leave) := by
  rw [next, only, Branching.runBlock, if_pos (isBranch_of_always always),
    if_pos (branching.taken_of_always always)]

theorem next_empty {b : Nat} (only : f.instrs b = []) (machine : Machine V) :
    f.next interp branching (.at b machine) = some (f.enter b machine .fall) := by
  rw [next, only, Branching.runBlock]

/-- A run follows the blocks that do nothing. -/
theorem Lands.follow (unique : f.LabelsUnique) {i : Nat} {label : Label} {how : Leave}
    (lands : f.Lands i label how) (b b' : Nat) (machine : Machine V) :
    Reaches (f.next interp branching) (f.enter b machine (.jump label)) (f.enter b' machine how) := by
  induction lands generalizing b with
  | stay => exact .refl
  | @branch i j block instr label target cond how below here isLabel only always isBra rest ih =>
    subst isLabel
    rw [enter_jump unique here]
    have step := @next_branch V interp branching f j instr ((instrs_eq here).trans only) always machine
    rw [isBra] at step
    exact .head step (ih j)
  | @exit i j block instr label below here isLabel only always isExit =>
    subst isLabel
    rw [enter_jump unique here]
    have step := @next_branch V interp branching f j instr ((instrs_eq here).trans only) always machine
    rw [isExit] at step
    exact .single step
  | @empty i j block nextBlock label how below here isLabel only isNext rest ih =>
    subst isLabel
    rw [enter_jump unique here]
    have step := @next_empty V interp branching f j ((instrs_eq here).trans only) machine
    have inside : j + 1 < f.blocks.len := (List.getElem?_eq_some_iff.mp isNext).1
    rw [Function.enter, if_pos inside] at step
    have onward := ih j
    rw [enter_jump unique isNext] at onward
    exact .head step onward

end Function

namespace JumpThread

/-- The blocks of `g` are those of `f` with their ends redirected. -/
structure ThreadedTo (f g : CoralReef.Function) : Prop where
  len : g.blocks.len = f.blocks.len
  done : ∀ b block, f.blocks.blocks[b]? = some block →
    ∃ block', g.blocks.blocks[b]? = some block' ∧ BlockDone f b block block'

theorem ThreadedTo.labels (threaded : ThreadedTo f g) :
    g.blocks.blocks.map BasicBlock.label = f.blocks.blocks.map BasicBlock.label := by
  apply ext_getElem?
  intro b
  rw [getElem?_map, getElem?_map]
  cases here : f.blocks.blocks[b]? with
  | none =>
    have above : f.blocks.len ≤ b := getElem?_eq_none_iff.mp here
    rw [getElem?_eq_none (Nat.le_trans (Nat.le_of_eq threaded.len) above)]
  | some block =>
    obtain ⟨block', there, isDone⟩ := threaded.done b block here
    rw [there, Option.map_some, Option.map_some, isDone.label]

theorem ThreadedTo.enter (threaded : ThreadedTo f g) (b : Nat) (machine : Machine V) (how : Leave) :
    g.enter b machine how = f.enter b machine how := by
  cases how with
  | jump target => rw [Function.enter, Function.enter, Function.labelToIdx, Function.labelToIdx, threaded.labels]
  | exit => rfl
  | fall => rw [Function.enter, Function.enter, threaded.len]

/-- A branch that is redirected is taken as before. -/
theorem redirects_taken {b : Nat} {instr : Instr} {op : Op} (redirects : f.Redirects b instr.op op)
    (machine : Machine V) :
    branching.taken machine { instr with op } = branching.taken machine instr ∧
      instr.isBranch = true ∧ Instr.isBranch { instr with op } = true := by
  have set : ∀ {cond : Src} {reads : List V}, cond.isTrue = true → branching.isSet cond reads = true := by
    intro cond reads always
    have isTrue : cond.asBool = some true := by simpa [Src.isTrue] using always
    rw [Branching.isSet, isTrue]
    rfl
  obtain ⟨target, cond, isBra, ⟨always, jump⟩ | ⟨sometimes, target', rfl⟩⟩ := redirects.isBra
  · rcases jump with rfl | ⟨target', cond', rfl, always'⟩
    · refine ⟨?_, by rw [Instr.isBranch, isBra]; rfl, rfl⟩
      simp only [Branching.taken, isBra, set always]
    · refine ⟨?_, by rw [Instr.isBranch, isBra]; rfl, rfl⟩
      simp only [Branching.taken, isBra, set always, set always']
  · refine ⟨?_, by rw [Instr.isBranch, isBra]; rfl, rfl⟩
    simp only [Branching.taken, isBra]

/-- Both take the same step, or `g` goes where the jump of `f` lands. -/
theorem ThreadedTo.step (threaded : ThreadedTo f g) (b : Nat) (machine : Machine V) :
    ∃ machine', (∃ how, f.next interp branching (.at b machine) = some (f.enter b machine' how) ∧
        g.next interp branching (.at b machine) = some (f.enter b machine' how)) ∨
      ∃ label how, f.Lands (b + 1) label how ∧
        f.next interp branching (.at b machine) = some (f.enter b machine' (.jump label)) ∧
        g.next interp branching (.at b machine) = some (f.enter b machine' how) := by
  have same : g.instrs b = f.instrs b → ∃ machine' how,
      f.next interp branching (.at b machine) = some (f.enter b machine' how) ∧
        g.next interp branching (.at b machine) = some (f.enter b machine' how) := by
    intro same
    refine ⟨_, _, rfl, ?_⟩
    rw [Function.next, same]
    dsimp only
    rw [threaded.enter]
  cases here : f.blocks.blocks[b]? with
  | none =>
    have above : f.blocks.len ≤ b := getElem?_eq_none_iff.mp here
    have empty : g.instrs b = f.instrs b := by
      rw [Function.instrs, Function.instrs, here, getElem?_eq_none (Nat.le_trans (Nat.le_of_eq threaded.len) above)]
    obtain ⟨machine', how, steps⟩ := same empty
    exact ⟨machine', .inl ⟨how, steps⟩⟩
  | some block =>
    obtain ⟨block', there, isDone⟩ := threaded.done b block here
    rcases isDone.instrs with ⟨unchanged, -⟩ | ⟨front, instr, op, whole, whole', redirects⟩
    · have : g.instrs b = f.instrs b := by rw [Function.instrs_eq here, Function.instrs_eq there, unchanged]
      obtain ⟨machine', how, steps⟩ := same this
      exact ⟨machine', .inl ⟨how, steps⟩⟩
    · obtain ⟨target, cond, isBra, -⟩ := redirects.isBra
      have leads := redirects.leads
      rw [isBra] at leads
      rw [Function.next, Function.next, Function.instrs_eq here, Function.instrs_eq there, whole, whole',
        branching.runBlock_append, branching.runBlock_append]
      generalize branching.runBlock interp front machine = left
      obtain ⟨how, machine'⟩ := left
      refine ⟨machine', ?_⟩
      cases how with
      | jump label => exact .inl ⟨.jump label, rfl, congrArg some (threaded.enter ..)⟩
      | exit => exact .inl ⟨.exit, rfl, congrArg some (threaded.enter ..)⟩
      | fall =>
        obtain ⟨taken, isBranch, isBranch'⟩ := @redirects_taken V branching f b instr op redirects machine'
        simp only [Branching.runBlock, isBranch, isBranch', if_true, taken]
        by_cases isTaken : branching.taken machine' instr = true
        · right
          refine ⟨target, op.leave, leads.lands, ?_, ?_⟩
          · rw [if_pos isTaken, isBra]
            rfl
          · rw [if_pos isTaken]
            exact congrArg some (threaded.enter ..)
        · left
          refine ⟨.fall, ?_, ?_⟩
          · rw [if_neg isTaken]
          · rw [if_neg isTaken]
            exact congrArg some (threaded.enter ..)

/-- A step that does nothing. -/
def Silent (interp : Interp V) (branching : Branching V) (g : CoralReef.Function) (c d : Conf V) :
    Prop :=
  g.next interp branching c = some d ∧ d.machine = c.machine

/-- The redirected function passes the blocks that do nothing silently, in steps of its own. -/
theorem ThreadedTo.silent (threaded : ThreadedTo f g) (unique : f.LabelsUnique) {i : Nat}
    {label : Label} {how : Leave} (lands : f.Lands i label how) (b b' : Nat) (machine : Machine V) :
    ReflTransGen (Silent interp branching g) (f.enter b machine (.jump label))
      (f.enter b' machine how) := by
  have same : ∀ (b : Nat) (how : Leave), (f.enter b machine how).machine = machine := by
    intro b how
    cases how with
    | jump target =>
      rw [Function.enter]
      split <;> rfl
    | exit => rfl
    | fall =>
      rw [Function.enter]
      split <;> rfl
  have one : ∀ {j : Nat} (how : Leave), g.next interp branching (.at j machine) =
      some (f.enter j machine how) → f.enter j machine how = f.enter b' machine how →
        ReflTransGen (Silent interp branching g) (.at j machine) (f.enter b' machine how) := by
    intro j how step here
    rw [← here]
    exact .single ⟨step, same j how⟩
  induction lands generalizing b with
  | stay => exact .refl
  | @branch i j block instr label target cond how below here isLabel only always isBra rest ih =>
    subst isLabel
    rw [Function.enter_jump unique here]
    obtain ⟨block', there, isDone⟩ := threaded.done j block here
    apply one how _ (rest.enter j b' machine)
    rw [← threaded.enter]
    rcases isDone.instrs with ⟨unchanged, stays⟩ | ⟨front, instr', op, whole, whole', redirects⟩
    · have isHow : how = instr.op.leave := by
        rw [isBra]
        rcases rest.split with ⟨isHow, -⟩ | ⟨passed, isHow⟩
        · exact isHow
        · have last : block.instrs.getLast? = some instr := by rw [only]; rfl
          have isTrue : cond.isTrue = true := by
            unfold Instr.isBranchAlwaysTaken at always
            rw [isBra] at always
            split at always
            · exact always
            · cases always
          have stays := stays instr last
          rw [isBra] at stays
          rcases isHow with rfl | ⟨target', rfl⟩
          · exact absurd (.exit passed rest isTrue) (stays _)
          · exact absurd (.jump passed rest) (stays _)
      rw [isHow]
      exact Function.next_branch ((Function.instrs_eq there).trans (unchanged.trans only)) always machine
    · rw [only] at whole
      have front_nil : front = [] := by
        have := congrArg List.length whole
        simpa using this
      subst front_nil
      cases whole
      have leads := redirects.leads
      rw [isBra] at leads
      rw [rest.unique unique leads.lands]
      exact Function.next_branch ((Function.instrs_eq there).trans whole')
        ((redirects_always redirects).trans always) machine
  | @exit i j block instr label below here isLabel only always isExit =>
    subst isLabel
    rw [Function.enter_jump unique here]
    obtain ⟨block', there, isDone⟩ := threaded.done j block here
    apply one (j := j) .exit _ rfl
    rw [← threaded.enter]
    rcases isDone.instrs with ⟨unchanged, -⟩ | ⟨front, instr', op, whole, whole', redirects⟩
    · have step := @Function.next_branch V interp branching g j instr
        ((Function.instrs_eq there).trans (unchanged.trans only)) always machine
      rwa [isExit] at step
    · obtain ⟨target, cond, isBra, -⟩ := redirects.isBra
      have last := congrArg List.getLast? (whole.symm.trans only)
      rw [List.getLast?_concat] at last
      cases last
      cases isBra.symm.trans isExit
  | @empty i j block nextBlock label how below here isLabel only isNext rest ih =>
    subst isLabel
    rw [Function.enter_jump unique here]
    obtain ⟨block', there, isDone⟩ := threaded.done j block here
    have empty : g.instrs j = [] := by
      rcases isDone.instrs with ⟨unchanged, -⟩ | ⟨front, instr', op, whole, -⟩
      · rw [Function.instrs_eq there, unchanged, only]
      · rw [only] at whole
        simp at whole
    have inside : j + 1 < f.blocks.len := (List.getElem?_eq_some_iff.mp isNext).1
    have step := @Function.next_empty V interp branching g j empty machine
    rw [threaded.enter, Function.enter, if_pos inside] at step
    have onward := ih j
    rw [Function.enter_jump unique isNext] at onward
    exact .head ⟨step, rfl⟩ onward

theorem ThreadedTo.passes (threaded : ThreadedTo f g) (unique : f.LabelsUnique) :
    Shortcuts.Passes (f.next interp branching) (g.next interp branching)
      (Silent interp branching g) := by
  constructor
  · exact fun c d step => step.1
  · intro c d step
    cases c with
    | stopped => cases step
    | «at» b machine =>
      obtain ⟨machine', ⟨how, first, second⟩ | ⟨label, how, lands, first, second⟩⟩ :=
        @ThreadedTo.step V interp branching f g threaded b machine
      · cases first.symm.trans step
        exact ⟨_, second, .refl⟩
      · cases first.symm.trans step
        exact ⟨_, second, threaded.silent unique lands b b machine'⟩
  · intro c e step
    cases c with
    | stopped => cases step
    | «at» b machine =>
      obtain ⟨machine', ⟨how, first, second⟩ | ⟨label, how, lands, first, second⟩⟩ :=
        @ThreadedTo.step V interp branching f g threaded b machine
      · cases second.symm.trans step
        exact .single first
      · cases second.symm.trans step
        exact .head first (lands.follow unique b b machine')

/-- The redirected function runs as the one that was given. -/
theorem ThreadedTo.sameRuns (threaded : ThreadedTo f g) (unique : f.LabelsUnique) :
    SameRuns f g := by
  intro V interp branching machine
  have passes := @ThreadedTo.passes V interp branching f g threaded unique
  refine ⟨fun c run => passes.reaches run, ?_⟩
  intro c run
  obtain ⟨d, run', silent⟩ := passes.ahead run
  refine ⟨d, run', ?_, ?_⟩
  · clear run run'
    induction silent with
    | refl => rfl
    | tail _ step ih => exact step.2.trans ih
  · intro stopped
    rcases ReflTransGen.cases_head silent with same | ⟨e, step, -⟩
    · exact same.symm
    · cases c with
      | «at» => cases stopped
      | stopped => cases step.1

end JumpThread

end CoralReef
