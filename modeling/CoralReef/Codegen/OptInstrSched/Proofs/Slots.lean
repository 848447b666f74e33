import CoralReef.Codegen.OptInstrSched.Postpass

/-!
# Registers in conflict

The registers an instruction reads and writes, and the pairs of instructions of a block whose order
must be kept.
-/

namespace CoralReef

/-- The scalar registers of a reference that are tracked. -/
def RegRef.slots (reg : RegRef) : List Slot :=
  if reg.file = .bar then [] else (List.range reg.comps).map fun c => (reg.file, reg.baseIdx + c)

/-- The register file of the tracker has the registers of the reference. -/
def RegRef.InFile (reg : RegRef) : Prop :=
  reg.file ≠ .mem ∧ (reg.file = .bar ∨ reg.baseIdx + reg.comps ≤ RegTracker.fileSize reg.file)

instance (reg : RegRef) : Decidable reg.InFile := by
  unfold RegRef.InFile
  infer_instance

theorem RegTracker.index_ok {reg : RegRef} (inFile : reg.InFile) :
    RegTracker.index reg = .ok reg.slots := by
  obtain ⟨notMem, inside⟩ := inFile
  unfold RegTracker.index RegRef.slots
  cases isFile : reg.file with
  | mem => exact absurd isFile notMem
  | bar => rfl
  | _ =>
    rw [isFile] at inside
    have bound := inside.resolve_left (by simp)
    simp only [bound, decide_true, assertThat_true, ok_bind, reduceCtorEq, if_false]
    rfl

/-- The entries of operands are found where their registers are in file. -/
theorem RegTracker.operandSlots_ok {α : Type} {ref : α → Option RegRef} {operands : List α}
    (inFile : ∀ a ∈ operands, ∀ reg, ref a = some reg → reg.InFile) :
    ∃ slots, operandSlots ref operands = .ok slots ∧
      slots.map Prod.snd = operands.flatMap fun a => ((ref a).map RegRef.slots).getD [] := by
  let entries := fun entry : α × Nat =>
    (((ref entry.1).map RegRef.slots).getD []).map fun slot => (entry.2, slot)
  refine ⟨(operands.zipIdx.map entries).flatten, ?_, ?_⟩
  · rw [operandSlots, mapM_ok (g := entries)]
    · rfl
    · rintro ⟨a, i⟩ member
      cases isReg : ref a with
      | none => simp [entries, isReg]
      | some reg =>
        simp only [entries, isReg, index_ok (inFile a (List.fst_mem_of_mem_zipIdx member) reg isReg)]
        rfl
  · rw [List.map_flatten, List.map_map, List.flatMap_def]
    congr 1
    have fst : operands = operands.zipIdx.map Prod.fst := by simp
    conv_rhs => rw [fst, List.map_map]
    apply List.map_congr_left
    intro entry _
    simp [entries, Function.comp_def]

namespace Instr

/-- The registers an instruction writes. -/
def writes (instr : Instr) : List Slot :=
  instr.dsts.flatMap fun dst => (dst.asReg.map RegRef.slots).getD []

/-- The registers the operands of an instruction read. -/
def reads (instr : Instr) : List Slot :=
  instr.srcs.flatMap fun src => (src.reference.getReg.map RegRef.slots).getD []

/-- The register that guards an instruction. -/
def guards (instr : Instr) : List Slot :=
  match instr.pred.predicate with
  | .reg reg => reg.slots
  | _ => []

/-- The registers of an instruction are in their files. -/
def InFiles (instr : Instr) : Prop :=
  (∀ dst ∈ instr.dsts, ∀ reg, dst.asReg = some reg → reg.InFile) ∧
    (∀ src ∈ instr.srcs, ∀ reg, src.reference.getReg = some reg → reg.InFile) ∧
    ∀ reg, instr.pred.predicate = .reg reg → reg.InFile

theorem dstSlots_ok {instr : Instr} (inFiles : instr.InFiles) :
    ∃ slots, instr.dstSlots = .ok slots ∧ slots.map Prod.snd = instr.writes :=
  RegTracker.operandSlots_ok inFiles.1

theorem srcSlots_ok {instr : Instr} (inFiles : instr.InFiles) :
    ∃ slots, instr.srcSlots = .ok slots ∧ slots.map Prod.snd = instr.reads :=
  RegTracker.operandSlots_ok inFiles.2.1

theorem predSlots_ok {instr : Instr} (inFiles : instr.InFiles) :
    instr.predSlots = .ok instr.guards := by
  unfold predSlots guards
  cases isPred : instr.pred.predicate with
  | reg reg => exact RegTracker.index_ok (inFiles.2.2 reg isPred)
  | _ => rfl

/-- One of two instructions writes a register that the other reads or writes. -/
def DataConflict (a b : Instr) : Prop :=
  (∃ slot ∈ a.writes, slot ∈ b.writes ∨ slot ∈ b.reads ∨ slot ∈ b.guards) ∨
    ∃ slot ∈ b.writes, slot ∈ a.reads ∨ slot ∈ a.guards

/-- Both are memory operations, or one is a barrier. Every branch is one. -/
def OrderConflict (a b : Instr) : Prop :=
  (sideEffectType a.op = .memory ∧ sideEffectType b.op = .memory) ∨
    sideEffectType a.op = .barrier ∨ sideEffectType b.op = .barrier

/-- The second instruction writes the register that guards the first. -/
def GuardConflict (a b : Instr) : Prop := ∃ slot ∈ b.writes, slot ∈ a.guards

/-- The conflicts without those between a guard and a later write. -/
def Linked (a b : Instr) : Prop :=
  (∃ slot ∈ a.writes, slot ∈ b.writes ∨ slot ∈ b.reads ∨ slot ∈ b.guards) ∨
    (∃ slot ∈ b.writes, slot ∈ a.reads) ∨ a.OrderConflict b

theorem conflict_iff {a b : Instr} :
    a.DataConflict b ∨ a.OrderConflict b ↔ a.Linked b ∨ a.GuardConflict b := by
  unfold DataConflict Linked GuardConflict
  constructor
  · rintro ((write | ⟨slot, written, read | guard⟩) | order)
    · exact .inl (.inl write)
    · exact .inl (.inr (.inl ⟨slot, written, read⟩))
    · exact .inr ⟨slot, written, guard⟩
    · exact .inl (.inr (.inr order))
  · rintro ((write | ⟨slot, written, read⟩ | order) | ⟨slot, written, guard⟩)
    · exact .inl (.inl write)
    · exact .inl (.inr ⟨slot, written, .inl read⟩)
    · exact .inr order
    · exact .inl (.inr ⟨slot, written, .inr guard⟩)

end Instr

/-- The instructions at `i` and, further down, at `j` are so related. -/
def At (related : Instr → Instr → Prop) (instrs : List Instr) (i j : Nat) : Prop :=
  i < j ∧ ∃ a b, instrs[i]? = some a ∧ instrs[j]? = some b ∧ related a b

theorem At.lt {instrs : List Instr} {related : Instr → Instr → Prop} {i j : Nat}
    (linked : At related instrs i j) :
    j < instrs.length := by
  obtain ⟨-, a, b, -, there, -⟩ := linked
  exact (List.getElem?_eq_some_iff.mp there).1

/-- The instruction at `i` has property `P`. -/
def Has (instrs : List Instr) (P : Instr → Prop) (i : Nat) : Prop :=
  ∃ instr, instrs[i]? = some instr ∧ P instr

theorem Has.lt {instrs : List Instr} {P : Instr → Prop} {i : Nat} (has : Has instrs P i) : i < instrs.length := by
  obtain ⟨instr, here, -⟩ := has
  exact (List.getElem?_eq_some_iff.mp here).1

theorem has_iff {instrs : List Instr} {P : Instr → Prop} {i : Nat} {instr : Instr}
    (here : instrs[i]? = some instr) :
    Has instrs P i ↔ P instr := by
  constructor
  · rintro ⟨instr', here', holds⟩
    rw [here] at here'
    cases here'
    exact holds
  · exact fun holds => ⟨instr, here, holds⟩

end CoralReef
