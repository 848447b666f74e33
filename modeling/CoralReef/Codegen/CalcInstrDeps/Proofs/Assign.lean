import CoralReef.Codegen.CalcInstrDeps
import CoralReef.Codegen.OptInstrSched.Proofs.Slots
import Mathlib.Data.Nat.Bitwise

/-!
# The barriers of a block

What `assign_deps_serial` leaves on the instructions of a block: an instruction waits on every
barrier that an instruction before it signals.
-/

namespace CoralReef

namespace DepInstr

/-- Neither a branch nor one of the ops that only yield. -/
def Ordinary (instr : DepInstr) : Prop :=
  instr.op.isYield = false ∧ instr.isBranch = false

/-- The instruction has a guard or sources. -/
def Reads (instr : DepInstr) : Prop := instr.pred.predicate ≠ .none ∨ instr.srcs ≠ []

/-- An ordinary instruction signals when it has written and when it has read. -/
def Signals (instr : DepInstr) : Prop :=
  instr.Ordinary → (instr.dsts ≠ [] → instr.deps.wrBar = some 0) ∧
    (instr.Reads → instr.deps.rdBar = some 1)

/-- A branch waits on all barriers. -/
def Drains (instr : DepInstr) : Prop :=
  instr.isBranch = true → ∀ bar < 6, instr.deps.WaitsOn bar

/-- The second instruction waits on what the first one signals. -/
def WaitedBy (a b : DepInstr) : Prop :=
  a.Ordinary → b.Ordinary → (a.dsts ≠ [] → b.deps.WaitsOn 0) ∧ (a.Reads → b.deps.WaitsOn 1)

end DepInstr

theorem Op.not_isBranch_of_isYield {op : Op} (isYield : op.isYield = true) : op.isBranch = false := by
  cases op <;> first | rfl | cases isYield

theorem InstrDeps.addWtBarMask_ok {deps : InstrDeps} {barMask : Nat} (small : barMask < 64) :
    ∃ deps', deps.addWtBarMask barMask = .ok deps' ∧
      ∀ bar, barMask.testBit bar = true → deps'.WaitsOn bar := by
  refine ⟨{ deps with wtBarMask := deps.wtBarMask ||| barMask }, ?_, ?_⟩
  · have bound : barMask < 1 <<< 6 := small
    rw [addWtBarMask, decide_eq_true bound]
    rfl
  · intro bar set
    show (deps.wtBarMask ||| barMask).testBit bar = true
    rw [Nat.testBit_or, set, Bool.or_true]

/-- A barrier below two is signalled when there are registers. -/
theorem signal_ok {hasRegs : Bool} {setBar : InstrDeps → Nat → Except Fault InstrDeps}
    {bar wt : Nat} {deps set : InstrDeps} (isSet : setBar deps bar = .ok set) (below : bar < 2)
    (small : wt < 4) :
    ∃ wt', signal hasRegs setBar bar (wt, deps) = .ok (wt', if hasRegs then set else deps) ∧
      wt' < 4 ∧ (∀ b, wt.testBit b = true → wt'.testBit b = true) ∧
      (hasRegs = true → wt'.testBit bar = true) := by
  unfold signal
  cases hasRegs with
  | false => exact ⟨wt, rfl, small, fun _ set => set, fun never => by cases never⟩
  | true =>
    refine ⟨wt ||| 1 <<< bar, ?_, ?_, ?_, ?_⟩
    · rw [if_pos rfl, isSet]
      rfl
    · apply Nat.or_lt_two_pow (n := 2) small
      rw [Nat.one_shiftLeft]
      exact Nat.pow_lt_pow_right (by omega) below
    · intro b set
      rw [Nat.testBit_or, set, Bool.true_or]
    · intro _
      rw [Nat.testBit_or, Nat.one_shiftLeft, Nat.testBit_two_pow_self, Bool.or_true]

theorem signal_wrBar {hasRegs : Bool} {wt : Nat} {deps : InstrDeps} (small : wt < 4) :
    ∃ wt' deps', signal hasRegs InstrDeps.setWrBar 0 (wt, deps) = .ok (wt', deps') ∧ wt' < 4 ∧
      (∀ b, wt.testBit b = true → wt'.testBit b = true) ∧
      deps'.wtBarMask = deps.wtBarMask ∧
      (hasRegs = true → deps'.wrBar = some 0 ∧ wt'.testBit 0 = true) := by
  obtain ⟨wt', returned, small', grows, set⟩ := @signal_ok hasRegs InstrDeps.setWrBar 0 wt deps
    { deps with wrBar := some 0 } rfl (by omega) small
  refine ⟨wt', _, returned, small', grows, ?_, ?_⟩
  · cases hasRegs <;> rfl
  · intro has
    rw [if_pos has]
    exact ⟨rfl, set has⟩

theorem signal_rdBar {hasRegs : Bool} {wt : Nat} {deps : InstrDeps} (small : wt < 4) :
    ∃ wt' deps', signal hasRegs InstrDeps.setRdBar 1 (wt, deps) = .ok (wt', deps') ∧ wt' < 4 ∧
      (∀ b, wt.testBit b = true → wt'.testBit b = true) ∧
      deps'.wtBarMask = deps.wtBarMask ∧ deps'.wrBar = deps.wrBar ∧
      (hasRegs = true → deps'.rdBar = some 1 ∧ wt'.testBit 1 = true) := by
  obtain ⟨wt', returned, small', grows, set⟩ := @signal_ok hasRegs InstrDeps.setRdBar 1 wt deps
    { deps with rdBar := some 1 } rfl (by omega) small
  refine ⟨wt', _, returned, small', grows, ?_, ?_, ?_⟩
  · cases hasRegs <;> rfl
  · cases hasRegs <;> rfl
  · intro has
    rw [if_pos has]
    exact ⟨rfl, set has⟩

/-- One instruction, with barriers below two to wait on. -/
theorem assignInstr_ok {wt : Nat} (small : wt < 4) (instr : DepInstr) :
    ∃ wt' out, assignInstr wt instr = .ok (wt', out) ∧ out.toInstr = instr.toInstr ∧ wt' < 4 ∧
      (∀ bar, wt.testBit bar = true → wt'.testBit bar = true) ∧ out.Signals ∧ out.Drains ∧
      (out.Ordinary → (∀ bar, wt.testBit bar = true → out.deps.WaitsOn bar) ∧
        (out.dsts ≠ [] → wt'.testBit 0 = true) ∧ (out.Reads → wt'.testBit 1 = true)) := by
  unfold assignInstr
  by_cases isYield : instr.op.isYield = true
  · rw [if_pos isYield]
    refine ⟨_, _, rfl, rfl, small, fun _ set => set, ?_, ?_, ?_⟩
    · intro ordinary
      exact absurd ordinary.1 (by simp [isYield])
    · intro isBranch
      exact absurd isBranch (by simp [Instr.isBranch, Op.not_isBranch_of_isYield isYield])
    · intro ordinary
      exact absurd ordinary.1 (by simp [isYield])
  rw [if_neg isYield]
  by_cases isBranch : instr.isBranch = true
  · rw [if_pos isBranch]
    obtain ⟨deps, added, waits⟩ := @InstrDeps.addWtBarMask_ok instr.deps 0x3f (by decide)
    rw [added]
    refine ⟨_, _, rfl, rfl, small, fun _ set => set, ?_, ?_, ?_⟩
    · intro ordinary
      exact absurd isBranch (by simp [ordinary.2])
    · intro _ bar below
      apply waits
      revert bar
      decide
    · intro ordinary
      exact absurd isBranch (by simp [ordinary.2])
  rw [if_neg isBranch]
  obtain ⟨deps, added, waits⟩ := @InstrDeps.addWtBarMask_ok instr.deps wt (by omega)
  obtain ⟨wt₁, deps₁, written, small₁, grows₁, mask₁, signals₁⟩ :=
    @signal_wrBar (!instr.dsts.isEmpty) wt deps small
  obtain ⟨wt₂, deps₂, read, small₂, grows₂, mask₂, wrBar₂, signals₂⟩ :=
    @signal_rdBar (!(decide (instr.pred.predicate = .none)) || !instr.srcs.isEmpty) wt₁ deps₁ small₁
  rw [added, ok_bind, written, ok_bind, read, ok_bind]
  have hasDsts : instr.dsts ≠ [] → (!instr.dsts.isEmpty) = true := by simp
  have hasSrcs : DepInstr.Reads instr →
      (!(decide (instr.pred.predicate = .none)) || !instr.srcs.isEmpty) = true := by
    simp [DepInstr.Reads]
  refine ⟨wt₂, _, rfl, rfl, small₂, fun bar set => grows₂ bar (grows₁ bar set), ?_, ?_, ?_⟩
  · intro _
    refine ⟨?_, fun reads => (signals₂ (hasSrcs reads)).1⟩
    intro writes
    exact wrBar₂.trans (signals₁ (hasDsts writes)).1
  · exact fun never => absurd never isBranch
  · intro _
    refine ⟨?_, ?_, fun reads => (signals₂ (hasSrcs reads)).2⟩
    · intro bar set
      show deps₂.wtBarMask.testBit bar = true
      rw [mask₂, mask₁]
      exact waits bar set
    · exact fun writes => grows₂ 0 (signals₁ (hasDsts writes)).2

/-- A block: every instruction signals, and waits on what those before it signal. -/
theorem assignInstrs_ok : ∀ (instrs : List DepInstr) {wt : Nat}, wt < 4 →
    ∃ out, assignInstrs wt instrs = .ok out ∧
      out.map DepInstr.toInstr = instrs.map DepInstr.toInstr ∧
      (∀ instr ∈ out, instr.Signals ∧ instr.Drains) ∧ out.Pairwise DepInstr.WaitedBy ∧
      ∀ instr ∈ out, instr.Ordinary → ∀ bar, wt.testBit bar = true → instr.deps.WaitsOn bar := by
  intro instrs
  induction instrs with
  | nil => exact fun _ => ⟨[], rfl, rfl, by simp, .nil, by simp⟩
  | cons instr rest ih =>
    intro wt small
    obtain ⟨wt', head, first, same, small', grows, signals, drains, ordinary⟩ :=
      assignInstr_ok small instr
    obtain ⟨out, others, same', each, pairs, waits⟩ := ih small'
    refine ⟨head :: out, ?_, ?_, ?_, ?_, ?_⟩
    · rw [assignInstrs, first, ok_bind]
      show (assignInstrs wt' rest >>= _) = _
      rw [others]
      rfl
    · rw [List.map_cons, List.map_cons, same, same']
    · exact List.forall_mem_cons.mpr ⟨⟨signals, drains⟩, each⟩
    · refine List.pairwise_cons.mpr ⟨?_, pairs⟩
      intro later member isHead isLater
      obtain ⟨-, writes, reads⟩ := ordinary isHead
      exact ⟨fun hasDsts => waits later member isLater 0 (writes hasDsts),
        fun hasSrcs => waits later member isLater 1 (reads hasSrcs)⟩
    · intro other member isOther bar set
      rcases List.mem_cons.mp member with rfl | later
      · exact (ordinary isOther).1 bar set
      · exact waits other later isOther bar (grows bar set)

end CoralReef
