import CoralReef.Codegen.LowerParCopies.Proofs.Graph
import CoralReef.Misc.ParallelMove

/-!
# What the emitted copies do to the operands

The operands of a parallel copy, seen as the nodes of `ParallelMove`: each emitted instruction
performs one of its moves on the values the nodes hold.
-/

open List
open Function (update update_of_ne update_self)

namespace CoralReef.LowerParCopy

open ParallelMove

variable {V : Type}
variable {src : Nat → Option Nat}

/-- The value of each operand. -/
def held (vals : List SrcRef) (imm : SrcRef → V) (state : RegState V) (node : Nat) : Option V :=
  vals[node]?.map (evalSrc imm state)

/-- The register operands are scalars, each has one node, and the temporary has none. -/
structure Placed (pc : OpParCopy) (vals : List SrcRef) : Prop where
  scalar : ∀ (i : Nat) reg, vals[i]? = some (.reg reg) → reg.comps = 1
  unique : ∀ (i j : Nat) reg, vals[i]? = some (.reg reg) → vals[j]? = some (.reg reg) → i = j
  apart : ∀ (i : Nat) reg, vals[i]? = some (.reg reg) → ¬ IsTmp pc reg.loc
  dst : ∀ i, i < pc.dstsSrcs.length → ∃ reg, vals[i]? = some (.reg reg)

variable {pc : OpParCopy} {vals : List SrcRef}

theorem Placed.loc_inj (placed : Placed pc vals) {i j : Nat} {a b : RegRef}
    (atI : vals[i]? = some (.reg a)) (atJ : vals[j]? = some (.reg b)) (same : a.loc = b.loc) :
    i = j := by
  have := RegRef.eq_of_loc (placed.scalar i a atI) (placed.scalar j b atJ) same
  subst this
  exact placed.unique i j a atI atJ

theorem held_reg (imm : SrcRef → V) (state : RegState V) {i : Nat} {reg : RegRef}
    (atI : vals[i]? = some (.reg reg)) : held vals imm state i = some (state reg.loc) := by
  simp [held, atI]

/-- Writing the register of one node changes what that node holds, and no other. -/
theorem held_update (placed : Placed pc vals) (imm : SrcRef → V) (state : RegState V) {i : Nat}
    {reg : RegRef} (atI : vals[i]? = some (.reg reg)) (value : V) :
    held vals imm (update state reg.loc value) =
      update (held vals imm state) i (some value) := by
  funext k
  by_cases same : k = i
  · subst same
    rw [update_self, held_reg imm _ atI, update_self]
  · rw [update_of_ne same]
    unfold held
    cases atK : vals[k]? with
    | none => rfl
    | some val =>
      cases val with
      | reg other =>
        have away : other.loc ≠ reg.loc := fun h => same (placed.loc_inj atK atI h)
        simp [update_of_ne away]
      | _ => rfl

/-- Writing the temporary changes what no node holds. -/
theorem held_update_tmp (placed : Placed pc vals) (imm : SrcRef → V) (state : RegState V)
    {loc : RegFile × Nat} (isTmp : IsTmp pc loc) (value : V) :
    held vals imm (update state loc value) = held vals imm state := by
  funext k
  unfold held
  cases atK : vals[k]? with
  | none => rfl
  | some val =>
    cases val with
    | reg other =>
      have away : other.loc ≠ loc := fun h => placed.apart k other atK (h ▸ isTmp)
      simp [update_of_ne away]
    | _ => rfl

@[simp] theorem execInstr_copyTo (imm : SrcRef → V) (state : RegState V) (dst : RegRef)
    (src : SrcRef) :
    execInstr imm state (copyTo dst src) = update state dst.loc (evalSrc imm state src) :=
  rfl

theorem swapRegs_eq {x y : RegRef} (file : x.file = y.file) :
    swapRegs x y = .ok (.new (.swap (.reg x) (.reg y) (.ofReg y) (.ofReg x))) := by
  simp only [swapRegs, file, decide_true, assertThat_true, ok_bind]
  rfl

/-- A register that no pending node and no component of the temporary occupies. -/
def Untouched (pc : OpParCopy) (vals : List SrcRef) (src : Nat → Option Nat)
    (loc : RegFile × Nat) : Prop :=
  (∀ i reg, (src i).isSome → vals[i]? = some (.reg reg) → reg.loc ≠ loc) ∧ ¬ IsTmp pc loc

theorem Untouched.mono {src src' : Nat → Option Nat} {loc : RegFile × Nat}
    (untouched : Untouched pc vals src loc) (fewer : ∀ i, (src' i).isSome → (src i).isSome) :
    Untouched pc vals src' loc :=
  ⟨fun i reg isPending => untouched.1 i reg (fewer i isPending), untouched.2⟩

/-- `instrs` carries the operands from the moves `src` still to make to the moves `src'`. -/
structure Carries (pc : OpParCopy) (vals : List SrcRef) (src src' : Nat → Option Nat)
    (instrs : List Instr) : Prop where
  settles : ∀ {V : Type} (imm : SrcRef → V) (state : RegState V) (want : Nat → Option V),
    Settles src (held vals imm state) want →
      Settles src' (held vals imm (execInstrs imm instrs state)) want
  frame : ∀ {V : Type} (imm : SrcRef → V) (state : RegState V) (loc : RegFile × Nat),
    Untouched pc vals src loc → execInstrs imm instrs state loc = state loc
  fewer : ∀ i, (src' i).isSome → (src i).isSome

theorem Carries.refl (src : Nat → Option Nat) : Carries pc vals src src [] where
  settles := fun _ _ _ settles => settles
  frame := fun _ _ _ _ => rfl
  fewer := fun _ isPending => isPending

theorem Carries.trans {src src' src'' : Nat → Option Nat} {first second : List Instr}
    (one : Carries pc vals src src' first) (two : Carries pc vals src' src'' second) :
    Carries pc vals src src'' (first ++ second) where
  settles := by
    intro V imm state want settles
    rw [execInstrs_append]
    exact two.settles imm _ want (one.settles imm state want settles)
  frame := by
    intro V imm state loc untouched
    rw [execInstrs_append, two.frame imm _ loc (untouched.mono one.fewer),
      one.frame imm state loc untouched]
  fewer := fun i isPending => one.fewer i (two.fewer i isPending)

theorem fewer_update_none (node : Nat) :
    ∀ i, (update src node none i).isSome → (src i).isSome := by
  intro i isPending
  by_cases same : i = node
  · subst same
    simp at isPending
  · rwa [update_of_ne same] at isPending

/-- `emitCopy` returns where the temporary it needs is there. -/
theorem emitCopy_ok (dst : RegRef) (src : SrcRef)
    (tmp : copyNeedsTmp dst src → pc.tmp.isSome) : ∃ copies, emitCopy pc dst src = .ok copies := by
  unfold emitCopy
  by_cases needs : copyNeedsTmp dst src
  · obtain ⟨reg, present⟩ := Option.isSome_iff_exists.mp (tmp needs)
    have single : ∃ single, reg.comp 0 = .ok single := by
      have bound := reg.base_le
      have comps := reg.comps_range.1
      simp [RegRef.comp, RegRef.new, bound, comps]
    obtain ⟨single, component⟩ := single
    refine ⟨[copyTo single src, copyTo dst (.reg single)], ?_⟩
    rw [if_pos needs, present, expect_some, ok_bind, component, ok_bind]
    rfl
  · refine ⟨[copyTo dst src], ?_⟩
    rw [if_neg needs]
    rfl

/-- The copies of one entry leave the source's value in the destination. -/
theorem emitCopy_exec (placed : Placed pc vals) {dst : RegRef} {src : SrcRef}
    {copies : List Instr} (emitted : emitCopy pc dst src = .ok copies) {i j : Nat}
    (atI : vals[i]? = some (.reg dst)) (atJ : vals[j]? = some src) (imm : SrcRef → V)
    (state : RegState V) :
    held vals imm (execInstrs imm copies state) =
        update (held vals imm state) i (held vals imm state j) ∧
      ∀ loc, loc ≠ dst.loc → ¬ IsTmp pc loc → execInstrs imm copies state loc = state loc := by
  have atSrc : held vals imm state j = some (evalSrc imm state src) := by simp [held, atJ]
  unfold emitCopy at emitted
  split at emitted
  · rw [bind_eq_ok] at emitted
    obtain ⟨tmp, present, rest⟩ := emitted
    rw [expect_eq_ok] at present
    rw [bind_eq_ok] at rest
    obtain ⟨single, component, done⟩ := rest
    cases done
    have isTmp := IsTmp.comp present component
    simp only [execInstrs_cons, execInstrs_nil, execInstr_copyTo, evalSrc_reg, update_self]
    refine ⟨?_, ?_⟩
    · rw [held_update placed imm _ atI, held_update_tmp placed imm _ isTmp, atSrc]
    · intro loc away notTmp
      rw [update_of_ne away, update_of_ne]
      rintro rfl
      exact notTmp isTmp
  · cases emitted
    simp only [execInstrs_cons, execInstrs_nil, execInstr_copyTo]
    refine ⟨?_, ?_⟩
    · rw [held_update placed imm _ atI, atSrc]
    · intro loc away _
      rw [update_of_ne away]

/-- The copies of one entry, whose destination nobody reads, are a move. -/
theorem Carries.copy (placed : Placed pc vals) {dst : RegRef} {val : SrcRef} {copies : List Instr}
    (emitted : emitCopy pc dst val = .ok copies) {i j : Nat} (atI : vals[i]? = some (.reg dst))
    (atJ : vals[j]? = some val) (edge : src i = some j) (unread : ∀ k, src k ≠ some i) :
    Carries pc vals src (update src i none) copies where
  settles := by
    intro V imm state want settles
    rw [(emitCopy_exec placed emitted atI atJ imm state).1]
    exact settles.copy edge unread
  frame := by
    intro V imm state loc untouched
    exact (emitCopy_exec placed emitted atI atJ imm state).2 loc
      (untouched.1 i dst (by simp [edge]) atI).symm untouched.2
  fewer := fewer_update_none i

/-- A swap between two nodes of a cycle is a move. -/
theorem Carries.swap (placed : Placed pc vals) (cyclic : Cyclic src) {i j k : Nat} {x y : RegRef}
    (first : src i = some j) (second : src j = some k) (jk : j ≠ k) (atJ : vals[j]? = some (.reg x))
    (atK : vals[k]? = some (.reg y)) :
    Carries pc vals src
      (update (update src j none) i (if i = k then none else some k))
      [.new (.swap (.reg x) (.reg y) (.ofReg y) (.ofReg x))] where
  settles := by
    intro V imm state want settles
    have moved := settles.swap cyclic first second jk
    rw [held_reg imm state atJ, held_reg imm state atK] at moved
    simpa [execInstr, Src.ofReg, Instr.new, held_update placed imm _ atJ,
      held_update placed imm _ atK] using moved
  frame := by
    intro V imm state loc untouched
    have kPending : (src k).isSome := (cyclic.pending j k second).resolve_right id
    have awayX := (untouched.1 j x (by simp [second]) atJ).symm
    have awayY := (untouched.1 k y kPending atK).symm
    simp [execInstr, Instr.new, update_of_ne awayX, update_of_ne awayY]
  fewer := by
    intro l isPending
    by_cases li : l = i
    · subst li
      simp [first]
    · rw [update_of_ne li] at isPending
      exact fewer_update_none j l isPending

/-- `Carries` for the rest of a walk, while the first component of the temporary keeps what
`root` held. -/
structure CarriesFrom (pc : OpParCopy) (vals : List SrcRef) (src src' : Nat → Option Nat)
    (root : Nat) (tmp : RegRef) (instrs : List Instr) : Prop where
  settles : ∀ {V : Type} (imm : SrcRef → V) (state : RegState V) (want : Nat → Option V),
    SettlesFrom src (held vals imm state) want root (some (state tmp.loc)) →
      Settles src' (held vals imm (execInstrs imm instrs state)) want
  frame : ∀ {V : Type} (imm : SrcRef → V) (state : RegState V) (loc : RegFile × Nat),
    Untouched pc vals src loc → execInstrs imm instrs state loc = state loc
  fewer : ∀ i, (src' i).isSome → (src i).isSome

/-- Saving the first node of a cycle starts a walk. -/
theorem CarriesFrom.save (placed : Placed pc vals) {src src' : Nat → Option Nat} {root : Nat}
    {tmp reg : RegRef} {instrs : List Instr} (isTmp : IsTmp pc tmp.loc)
    (atRoot : vals[root]? = some (.reg reg))
    (carries : CarriesFrom pc vals src src' root tmp instrs) :
    Carries pc vals src src' (copyTo tmp (.reg reg) :: instrs) where
  settles := by
    intro V imm state want settles
    have saved := settles.save root
    rw [held_reg imm state atRoot, ← held_update_tmp placed imm state isTmp (state reg.loc)] at saved
    apply carries.settles imm
    simpa using saved
  frame := by
    intro V imm state loc untouched
    rw [execInstrs_cons, carries.frame imm _ loc untouched, execInstr_copyTo,
      update_of_ne]
    rintro rfl
    exact untouched.2 isTmp
  fewer := carries.fewer

/-- The last copy of a walk takes the value kept. -/
theorem CarriesFrom.restore (placed : Placed pc vals) {root p : Nat} {tmp reg : RegRef}
    (walking : Walking src root p) (edge : src p = some root) (atP : vals[p]? = some (.reg reg)) :
    CarriesFrom pc vals src (update src p none) root tmp [copyTo reg (.reg tmp)] where
  settles := by
    intro V imm state want settles
    rw [execInstrs_cons, execInstrs_nil, execInstr_copyTo, evalSrc_reg,
      held_update placed imm state atP]
    exact settles.restore walking edge
  frame := by
    intro V imm state loc untouched
    have away := (untouched.1 p reg (by simp [edge]) atP).symm
    rw [execInstrs_cons, execInstrs_nil, execInstr_copyTo, update_of_ne away]
  fewer := fewer_update_none p

/-- One step of a walk returns where memory and barrier registers have a second temporary. -/
theorem emitStep_ok {tmp : RegRef} {file : RegFile}
    (second : file = .bar ∨ file = .mem → ∃ single, tmp.comp 1 = .ok single) (x y : RegRef) :
    ∃ step, emitStep tmp file x y = .ok step := by
  unfold emitStep
  by_cases special : file = .bar ∨ file = .mem
  · obtain ⟨single, component⟩ := second special
    refine ⟨[copyTo single (.reg y), copyTo x (.reg single)], ?_⟩
    rw [if_pos special, component, ok_bind]
    rfl
  · refine ⟨[copyTo x (.reg y)], ?_⟩
    rw [if_neg special]
    rfl

theorem emitStep_exec (placed : Placed pc vals) {pcTmp tmp x y : RegRef} {file : RegFile}
    {step : List Instr} (present : pc.tmp = some pcTmp) (component : pcTmp.comp 0 = .ok tmp)
    (emitted : emitStep pcTmp file x y = .ok step) {p j : Nat} (atP : vals[p]? = some (.reg x))
    (atJ : vals[j]? = some (.reg y)) (imm : SrcRef → V) (state : RegState V) :
    held vals imm (execInstrs imm step state) =
        update (held vals imm state) p (held vals imm state j) ∧
      execInstrs imm step state tmp.loc = state tmp.loc ∧
      ∀ loc, loc ≠ x.loc → ¬ IsTmp pc loc → execInstrs imm step state loc = state loc := by
  have isTmp := IsTmp.comp present component
  have away : tmp.loc ≠ x.loc := fun h => placed.apart p x atP (h ▸ isTmp)
  unfold emitStep at emitted
  split at emitted
  · rw [bind_eq_ok] at emitted
    obtain ⟨single, second, done⟩ := emitted
    cases done
    have isTmp' := IsTmp.comp present second
    have other : tmp.loc ≠ single.loc := by
      obtain ⟨-, -, base, -⟩ := RegRef.comp_eq_ok.mp component
      obtain ⟨-, -, base', -⟩ := RegRef.comp_eq_ok.mp second
      intro same
      have := congrArg Prod.snd same
      simp only [RegRef.loc] at this
      omega
    simp only [execInstrs_cons, execInstrs_nil, execInstr_copyTo, evalSrc_reg, update_self]
    refine ⟨?_, ?_, ?_⟩
    · rw [held_update placed imm _ atP, held_update_tmp placed imm _ isTmp', held_reg imm state atJ]
    · rw [update_of_ne away, update_of_ne other]
    · intro loc notX notTmp
      rw [update_of_ne notX, update_of_ne]
      rintro rfl
      exact notTmp isTmp'
  · cases emitted
    simp only [execInstrs_cons, execInstrs_nil, execInstr_copyTo, evalSrc_reg]
    refine ⟨?_, ?_, ?_⟩
    · rw [held_update placed imm _ atP, held_reg imm state atJ]
    · rw [update_of_ne away]
    · intro loc notX _
      rw [update_of_ne notX]

/-- One step of a walk is a move. -/
theorem CarriesFrom.move (placed : Placed pc vals) {src src' : Nat → Option Nat} {root p j : Nat}
    {pcTmp tmp x y : RegRef} {file : RegFile} {step rest : List Instr}
    (present : pc.tmp = some pcTmp) (component : pcTmp.comp 0 = .ok tmp)
    (emitted : emitStep pcTmp file x y = .ok step) (atP : vals[p]? = some (.reg x))
    (atJ : vals[j]? = some (.reg y)) (walking : Walking src root p) (edge : src p = some j)
    (inside : j ≠ root)
    (carries : CarriesFrom pc vals (update src p none) src' root tmp rest) :
    CarriesFrom pc vals src src' root tmp (step ++ rest) where
  settles := by
    intro V imm state want settles
    obtain ⟨holds, kept, -⟩ := emitStep_exec placed present component emitted atP atJ imm state
    rw [execInstrs_append]
    apply carries.settles imm
    rw [holds, kept]
    exact settles.move walking edge inside
  frame := by
    intro V imm state loc untouched
    rw [execInstrs_append, carries.frame imm _ loc (untouched.mono (fewer_update_none p))]
    exact (emitStep_exec placed present component emitted atP atJ imm state).2.2 loc
      (untouched.1 p x (by simp [edge]) atP).symm untouched.2
  fewer := fun i isPending => fewer_update_none p i (carries.fewer i isPending)

end CoralReef.LowerParCopy
