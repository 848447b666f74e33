import CoralReef.Codegen.Ir.Proofs.Step
import CoralReef.Codegen.OptJumpThread.Proofs.Graph

/-!
# Jump threading keeps control flow

Runs are always kept. The graph that is made again has the transfers of the instructions exactly
when the branches before the end of a block lead only where its end leads.
-/

open List

namespace CoralReef

open Relation StateTransition

variable {f g : Function}

theorem Function.Redirected.unique (unique : f.LabelsUnique) {b : Nat} {op : Op} {how how' : Leave}
    (first : f.Redirected b op how) (second : f.Redirected b op how') : how = how' := by
  cases first with
  | jump _ lands =>
    cases second with
    | jump _ lands' | exit _ lands' _ => exact lands.unique unique lands'
  | exit _ lands _ =>
    cases second with
    | jump _ lands' => exact lands.unique unique lands'
    | exit _ lands' _ => rfl

namespace JumpThread

theorem ThreadedTo.unique (threaded : ThreadedTo f g) (unique : f.LabelsUnique) : g.LabelsUnique := by
  rw [Function.LabelsUnique, threaded.labels]
  exact unique

theorem ThreadedTo.labelToIdx (threaded : ThreadedTo f g) (label : Label) :
    g.labelToIdx label = f.labelToIdx label := by
  rw [Function.labelToIdx, Function.labelToIdx, threaded.labels]

theorem Redirects.plain {b : Nat} {op op' : Op} (redirects : f.Redirects b op op') :
    op' = .exit ∨ ∃ target cond, op' = .bra target cond := by
  obtain ⟨target, cond, isBra, ⟨-, isExit | ⟨target', cond', isBra', -⟩⟩ | ⟨-, target', isBra'⟩⟩ :=
    redirects.isBra
  · exact .inl isExit
  · exact .inr ⟨target', cond', isBra'⟩
  · exact .inr ⟨target', cond, isBra'⟩

theorem ThreadedTo.plain (threaded : ThreadedTo f g) (plain : f.BranchesPlain) : g.BranchesPlain := by
  intro block' member instr isInstr isBranch
  obtain ⟨b, there⟩ := mem_iff_getElem?.mp member
  have inside : b < f.blocks.len := by
    rw [← threaded.len]
    exact (List.getElem?_eq_some_iff.mp there).1
  obtain ⟨block, here⟩ : ∃ block, f.blocks.blocks[b]? = some block :=
    ⟨_, List.getElem?_eq_getElem inside⟩
  obtain ⟨same, there', isDone⟩ := threaded.done b block here
  cases there.symm.trans there'
  have inBlocks := mem_of_getElem? here
  rcases isDone.instrs with ⟨unchanged, -⟩ | ⟨front, instr', op, whole, whole', redirects⟩
  · rw [unchanged] at isInstr
    exact plain block inBlocks instr isInstr isBranch
  · rw [whole', mem_append, mem_singleton] at isInstr
    rcases isInstr with inFront | rfl
    · apply plain block inBlocks instr _ isBranch
      rw [whole]
      exact mem_append_left _ inFront
    · exact Redirects.plain redirects

/-- The end of a block of `g` leads where the end of the block of `f` is said to lead. -/
theorem ThreadedTo.ends (threaded : ThreadedTo f g) (unique : f.LabelsUnique) (b : Nat) :
    frontOf (g.instrs b) = frontOf (f.instrs b) ∧
      ∀ s, s ∈ g.transfers b (exits (endOf (g.instrs b))) ↔ f.EndLeads b s := by
  have unchanged : g.instrs b = f.instrs b → (∀ instr ∈ endOf (f.instrs b),
      ∀ how, ¬ f.Redirected b instr.op how) → frontOf (g.instrs b) = frontOf (f.instrs b) ∧
        ∀ s, s ∈ g.transfers b (exits (endOf (g.instrs b))) ↔ f.EndLeads b s := by
    intro same stays
    refine ⟨by rw [same], ?_⟩
    intro s
    rw [Function.mem_transfers_endOf, same]
    constructor
    · rintro (⟨rfl, falls⟩ | ⟨instr, last, target, leaves, here⟩)
      · exact .fall falls
      · exact .jump last (.inr ⟨stays instr last, leaves⟩) (threaded.labelToIdx target ▸ here)
    · intro leads
      cases leads with
      | fall falls => exact .inl ⟨rfl, falls⟩
      | @jump instr target _ last leads here =>
        refine .inr ⟨instr, last, target, ?_, (threaded.labelToIdx target).trans here⟩
        rcases leads with redirected | ⟨-, leaves⟩
        · exact absurd redirected (stays instr last _)
        · exact leaves
  cases here : f.blocks.blocks[b]? with
  | none =>
    have above : f.blocks.len ≤ b := List.getElem?_eq_none_iff.mp here
    have empty : f.instrs b = [] := by
      rw [Function.instrs, here]
      rfl
    have empty' : g.instrs b = [] := by
      rw [Function.instrs, List.getElem?_eq_none (Nat.le_trans (Nat.le_of_eq threaded.len) above)]
      rfl
    apply unchanged (empty'.trans empty.symm)
    rw [empty]
    intro instr never
    cases never
  | some block =>
    obtain ⟨block', there, isDone⟩ := threaded.done b block here
    rcases isDone.instrs with ⟨same, stays⟩ | ⟨front, instr, op, whole, whole', redirects⟩
    · apply unchanged
      · rw [Function.instrs_eq here, Function.instrs_eq there, same]
      · intro instr last
        rw [Function.instrs_eq here] at last
        exact stays instr (mem_endOf.mp last).1
    · obtain ⟨-, isBranch, isBranch'⟩ := @redirects_taken Unit ⟨fun _ _ => true, fun _ _ => true⟩ f b
        instr op redirects { vals := fun _ => (), phis := fun _ => () }
      have isInstrs : f.instrs b = front ++ [instr] := (Function.instrs_eq here).trans whole
      have isInstrs' : g.instrs b = front ++ [{ instr with op }] :=
        (Function.instrs_eq there).trans whole'
      obtain ⟨isEnd, isFront⟩ := @endOf_concat front instr isBranch
      obtain ⟨isEnd', isFront'⟩ := @endOf_concat front { instr with op } isBranch'
      have always := redirects_always redirects
      refine ⟨by rw [isInstrs, isInstrs', isFront, isFront'], ?_⟩
      intro s
      rw [Function.mem_transfers_endOf, isInstrs', isEnd']
      simp only [mem_singleton, forall_eq, exists_eq_left, always]
      constructor
      · rintro (⟨rfl, falls⟩ | ⟨target, leaves, atS⟩)
        · apply Function.EndLeads.fall
          rw [isInstrs, isEnd]
          simpa using falls
        · have last : instr ∈ endOf (f.instrs b) := by simp [isInstrs, isEnd]
          refine .jump last (.inl ?_) (threaded.labelToIdx target ▸ atS)
          rw [← leaves]
          exact redirects.leads
      · intro leads
        cases leads with
        | fall falls =>
          rw [isInstrs, isEnd] at falls
          exact .inl ⟨rfl, falls instr (mem_singleton.mpr rfl)⟩
        | @jump instr' target _ last leads atS =>
          rw [isInstrs, isEnd, mem_singleton] at last
          subst last
          refine .inr ⟨target, ?_, (threaded.labelToIdx target).trans atS⟩
          rcases leads with redirected | ⟨stays, -⟩
          · exact redirects.leads.unique unique redirected
          · exact absurd redirects.leads (stays _)

/-- What the pass returns. -/
theorem optJumpThread_ok (unique : f.LabelsUnique) (plain : f.BranchesPlain) :
    ∃ f', f.optJumpThread = .ok f' ∧ SameRuns f f' ∧ (¬ f.Rebuilt → f' = f) ∧
      (f.Rebuilt → f'.blocks.len = f.blocks.len ∧ ∀ b s, s < f.blocks.len →
        ((b, s) ∈ f'.blocks.edges ↔ f.EndLeads b s) ∧
        (s ∈ f'.transfers b (exits (f'.instrs b)) ↔
          f.EarlyLeads b s ∨ passes (frontOf (f.instrs b)) = true ∧ f.EndLeads b s)) := by
  obtain ⟨state, runs, threaded⟩ := threadBlocks_ok unique plain
  have progress : state.progress = true ↔ f.Rebuilt := by
    rw [threaded.progress]
    constructor
    · rintro ⟨b, instr, how, -, last, redirected⟩
      exact ⟨b, instr, how, last, redirected⟩
    · rintro ⟨b, instr, how, last, redirected⟩
      exact ⟨b, instr, how, Nat.zero_le b, last, redirected⟩
  let g : CoralReef.Function := { f with blocks := { f.blocks with blocks := state.blocks } }
  have isThreaded : ThreadedTo f g :=
    ⟨threaded.length, fun b block here => threaded.done b block (Nat.zero_le b) here⟩
  by_cases rebuilt : f.Rebuilt
  · obtain ⟨edges, rewritten, isEdge⟩ := rewriteCfg_ok (isThreaded.plain plain)
    let g' : CoralReef.Function := { g with blocks := { g.blocks with edges } }
    have isThreaded' : ThreadedTo f g' := ⟨isThreaded.len, isThreaded.done⟩
    have dropped : Dropped g' (optFallThrough g') := optFallThrough_dropped
    have unique' : g'.LabelsUnique := isThreaded'.unique unique
    refine ⟨optFallThrough g', ?_, ?_, fun never => absurd rebuilt never, ?_⟩
    · rw [Function.optJumpThread, jumpThread, runs, ok_bind]
      dsimp only
      rw [if_pos (progress.mpr rebuilt), rewritten]
      rfl
    · intro V interp branching machine
      rw [dropped.next unique']
      exact isThreaded'.sameRuns unique V interp branching machine
    · intro _
      refine ⟨dropped.len.trans isThreaded'.len, ?_⟩
      intro b s below
      obtain ⟨isFront, isEnd⟩ := isThreaded'.ends unique b
      refine ⟨?_, ?_⟩
      · rw [dropped.edges]
        show (b, s) ∈ edges ↔ _
        rw [isEdge, ← isEnd]
        refine ⟨fun both => both.2, ?_⟩
        intro isTransfer
        refine ⟨?_, isTransfer⟩
        by_contra above
        have empty : g.instrs b = [] := Function.instrs_eq_nil (Nat.le_of_not_lt above)
        have isNext : s = b + 1 := by
          rw [show g'.instrs b = [] from empty, Function.mem_transfers_endOf] at isTransfer
          simpa [endOf] using isTransfer
        have := isThreaded.len
        omega
      · rw [dropped.transfers unique', ← frontOf_append (g'.instrs b), exits_append, isFront]
        have early : s ∈ g'.transfers b (branchExits (frontOf (f.instrs b))) ↔ f.EarlyLeads b s := by
          have same : g'.transfers b (branchExits (frontOf (f.instrs b))) =
              f.transfers b (branchExits (frontOf (f.instrs b))) := by
            unfold Function.transfers
            apply filterMap_congr
            intro way _
            cases way with
            | jump target => exact isThreaded'.labelToIdx target
            | exit => rfl
            | fall => rfl
          rw [same]
          rfl
        cases passes (frontOf (f.instrs b)) with
        | false => simpa using early
        | true =>
          rw [← isEnd, ← early]
          simp [Function.transfers]
  · have noProgress : state.progress = false := by
      rw [← Bool.not_eq_true, progress]
      exact rebuilt
    have same : state.blocks = f.blocks.blocks := by
      apply ext_getElem?
      intro b
      cases here : f.blocks.blocks[b]? with
      | none =>
        have above : f.blocks.len ≤ b := List.getElem?_eq_none_iff.mp here
        exact List.getElem?_eq_none (Nat.le_trans (Nat.le_of_eq threaded.length) above)
      | some block =>
        obtain ⟨block', there, isDone⟩ := threaded.done b block (Nat.zero_le b) here
        rcases isDone.instrs with ⟨unchanged, -⟩ | ⟨front, instr, op, whole, -, redirects⟩
        · rw [there]
          congr 1
          cases block
          cases block'
          cases isDone.label
          cases isDone.uniform
          cases unchanged
          rfl
        · refine absurd ⟨b, instr, _, ?_, redirects.leads⟩ rebuilt
          rw [Function.instrs_eq here, whole, List.getLast?_concat]
    refine ⟨f, ?_, ?_, fun _ => rfl, fun isRebuilt => absurd isRebuilt rebuilt⟩
    · rw [Function.optJumpThread, jumpThread, runs, ok_bind]
      dsimp only
      rw [noProgress, same]
      rfl
    · intro V interp branching machine
      exact ⟨fun c run => run, fun c run => ⟨c, run, rfl, fun _ => rfl⟩⟩

/-- Control flow is kept exactly when no branch is redirected or, in each block, the branches before
the end lead only where the end leads. -/
theorem keepsControl_iff_covered (unique : f.LabelsUnique) (plain : f.BranchesPlain) :
    (∃ f', f.optJumpThread = .ok f' ∧ f.KeepsControl f') ↔ (f.Rebuilt → ∀ b, f.Covered b) := by
  obtain ⟨f', returned, runs, kept, made⟩ := optJumpThread_ok unique plain
  constructor
  · rintro ⟨f'', returned', keeps⟩ rebuilt b
    rw [returned] at returned'
    cases returned'
    obtain ⟨len, isEdge⟩ := made rebuilt
    have exact_ := keeps.rebuilt rebuilt
    have iff : ∀ s, s < f.blocks.len → (f.EndLeads b s ↔ f.EarlyLeads b s ∨
        passes (frontOf (f.instrs b)) = true ∧ f.EndLeads b s) := by
      intro s below
      have := exact_ b s (len ▸ below)
      rwa [(isEdge b s below).1, (isEdge b s below).2] at this
    constructor
    · exact fun s below early => (iff s below).mpr (.inl early)
    · intro s below leads
      rcases (iff s below).mp leads with early | ⟨reached, -⟩
      · exact .inl early
      · exact .inr reached
  · intro covered
    refine ⟨f', returned, runs, ?_, kept⟩
    intro rebuilt b s below
    obtain ⟨len, isEdge⟩ := made rebuilt
    rw [len] at below
    rw [(isEdge b s below).1, (isEdge b s below).2]
    constructor
    · intro leads
      rcases (covered rebuilt b).reached s below leads with early | reached
      · exact .inl early
      · exact .inr ⟨reached, leads⟩
    · rintro (early | ⟨-, leads⟩)
      · exact (covered rebuilt b).early s below early
      · exact leads

/-- A block without a branch before its end is covered. -/
theorem covered_of_front {b : Nat}
    (front : ∀ instr ∈ frontOf (f.instrs b), instr.isBranch = false) : f.Covered b := by
  have never : ∀ instr ∈ frontOf (f.instrs b), instr.isBranchAlwaysTaken = false := by
    intro instr member
    rw [← Bool.not_eq_true]
    intro always
    have := isBranch_of_always always
    rw [front instr member] at this
    cases this
  have none : ∀ {instrs : List Instr}, (∀ instr ∈ instrs, instr.isBranch = false) →
      (∀ instr ∈ instrs, instr.isBranchAlwaysTaken = false) → branchExits instrs = [] := by
    intro instrs
    induction instrs with
    | nil => exact fun _ _ => rfl
    | cons instr rest ih =>
      intro noBranch never
      rw [branchExits, never instr mem_cons_self, noBranch instr mem_cons_self]
      exact ih (fun a member => noBranch a (mem_cons_of_mem instr member))
        fun a member => never a (mem_cons_of_mem instr member)
  constructor
  · intro s _ early
    rw [Function.EarlyLeads, none front never] at early
    cases early
  · intro s _ _
    right
    rw [passes, all_eq_true]
    intro instr member
    rw [never instr member]
    rfl

/-- A jump over a loop to a block that only branches on. -/
def jumpOver (latch : List Instr) : CoralReef.Function :=
  { blocks := {
      blocks := [{ label := ⟨0⟩, instrs := [.new (.undef (.ofSsa ⟨.pred, 1⟩)),
          .new (.bra ⟨2⟩ (.ofSsa ⟨.pred, 1⟩))] },
        { label := ⟨1⟩, instrs := latch },
        { label := ⟨2⟩, instrs := [.new (.bra ⟨3⟩ { reference := .boolTrue })] },
        { label := ⟨3⟩, instrs := [.new (.undef (.ofSsa ⟨.gpr, 2⟩)), .new .exit] }]
      edges := [(0, 1), (0, 2), (1, 1), (1, 3), (2, 3)] } }

def backEdge : Instr := .new (.bra ⟨1⟩ { reference := .boolTrue })

def leaveLoop : Instr := .new (.bra ⟨3⟩ (.ofSsa ⟨.pred, 1⟩))

theorem jumpOver_plain {latch : List Instr} (plain : ∀ instr ∈ latch,
    ∃ target cond, instr.op = .bra target cond) : (jumpOver latch).BranchesPlain := by
  intro block member instr isInstr isBranch
  simp only [jumpOver, mem_cons, not_mem_nil, or_false] at member
  rcases member with rfl | rfl | rfl | rfl
  · rcases mem_cons.mp isInstr with rfl | isInstr
    · cases isBranch
    · rw [mem_singleton.mp isInstr]
      exact .inr ⟨_, _, rfl⟩
  · exact .inr (plain instr isInstr)
  · rw [mem_singleton.mp isInstr]
    exact .inr ⟨_, _, rfl⟩
  · rcases mem_cons.mp isInstr with rfl | isInstr
    · cases isBranch
    · rw [mem_singleton.mp isInstr]
      exact .inl rfl

theorem jumpOver_covered (b : Nat) : (jumpOver [backEdge]).Covered b := by
  apply covered_of_front
  match b with
  | 0 | 1 | 2 | 3 => decide
  | b + 4 =>
    intro instr member
    have empty : (jumpOver [backEdge]).instrs (b + 4) = [] := rfl
    rw [empty] at member
    cases member

theorem keepsControl_iff_covered_jumpOver : ∃ f', (jumpOver [backEdge]).optJumpThread = .ok f' ∧
    (jumpOver [backEdge]).KeepsControl f' :=
  (keepsControl_iff_covered (show (jumpOver [backEdge]).LabelsUnique from by
      unfold Function.LabelsUnique; decide)
    (jumpOver_plain (by simp [backEdge, Instr.new]))).mpr fun _ => jumpOver_covered

/-- The edge of the first branch of a latch is lost when the graph is made again. -/
theorem optJumpThread_loses_edge : (jumpOver [leaveLoop, backEdge]).LabelsUnique ∧
    (jumpOver [leaveLoop, backEdge]).EdgesExact ∧
    ∃ f', (jumpOver [leaveLoop, backEdge]).optJumpThread = .ok f' ∧
      3 ∈ f'.transfers 1 (exits (f'.instrs 1)) ∧ (1, 3) ∉ f'.blocks.edges ∧
      ¬ (jumpOver [leaveLoop, backEdge]).KeepsControl f' := by
  refine ⟨by unfold Function.LabelsUnique; decide, ?_, _, rfl, by decide, by decide, ?_⟩
  · intro b s below
    match b with
    | 0 | 1 | 2 | 3 => revert s; decide
    | b + 4 =>
      have isNext : s ∈ (jumpOver [leaveLoop, backEdge]).transfers (b + 4) (exits []) ↔
          s = b + 5 := List.mem_singleton
      have isEdge : (b + 4, s) ∉ (jumpOver [leaveLoop, backEdge]).blocks.edges := by
        simp [jumpOver]
      refine ⟨fun edge => absurd edge isEdge, fun transfer => ?_⟩
      have := isNext.mp transfer
      have : s < 4 := below
      omega
  · intro keeps
    have passed : (jumpOver [leaveLoop, backEdge]).Passed 1 ⟨2⟩ :=
      ⟨2, _, by decide, rfl, rfl, .inl ⟨_, rfl, rfl⟩⟩
    have nothing : ¬ (jumpOver [leaveLoop, backEdge]).Passed 3 ⟨3⟩ := by
      rintro ⟨j, block, from3, here, -, how⟩
      match j with
      | 0 | 1 | 2 => omega
      | 3 =>
        cases here
        rcases how with ⟨instr, only, -⟩ | ⟨only, -⟩ <;> cases only
      | j + 4 => cases here
    have rebuilt : (jumpOver [leaveLoop, backEdge]).Rebuilt :=
      ⟨0, _, .jump ⟨3⟩, rfl, .jump passed (.branch (by decide) rfl rfl rfl rfl rfl (.stay nothing))⟩
    exact absurd ((keeps.rebuilt rebuilt 1 3 (by decide)).mpr (by decide)) (by decide)

end JumpThread

end CoralReef
