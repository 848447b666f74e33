import CoralReef.Codegen.Nv.Proofs.Encode
import CoralReef.Codegen.Nv.Proofs.Placement

/-!
# Control flow of encoded shaders

When the words of a shader lead where its instructions do.
-/

namespace CoralReef

open BitFields

/-! ## One instruction -/

namespace NvTarget

/-- The encoders before SM70, which read the guard but not the condition of a branch. -/
def beforeSm70 : NvTarget → Bool
  | .sm20 | .sm30 | .sm32 | .sm50 => true
  | .sm70 _ => false

/-- When a branch word is taken. -/
def takesWhen (target : NvTarget) (pred : Pred) (cond : Src) (regs : PredRegs) : Bool :=
  if target.beforeSm70 then pred.holdsIn regs else pred.holdsAsPred regs && cond.holdsIn regs

variable {others : OtherWords} {labels : Labels} {ip : Nat} {instr : CfInstr}

/-- The offset of a word is that of its target, as far as its field can hold it. -/
theorem encodeInstr_target (target : NvTarget) {word : BitVec target.width}
    (encoded : target.encodeInstr others labels ip instr = .ok word) {label : Label}
    (leads : instr.op.target = some label) :
    ∃ t, labels label = some t ∧ target.offsetField word =
      Int.bmod ((t : Int) - ip - target.unit) (2 ^ target.offsetBits instr.op) := by
  cases target with
  | sm20 | sm30 =>
      simp only [encodeInstr, Sm20Encoder.encodeInstr, bind_eq_ok] at encoded
      rcases encoded with ⟨before, ops, guarded⟩
      rcases Sm20Encoder.encodeOp_target ops leads with ⟨t, labelled, offset⟩
      refine ⟨t, labelled, Eq.trans ?_ offset⟩
      exact (setPred_ok (by decide) guarded).1.signedField_eq (by decide) (by decide)
  | sm32 =>
      simp only [encodeInstr, Sm32Encoder.encodeInstr, bind_eq_ok] at encoded
      rcases encoded with ⟨before, ops, guarded⟩
      rcases Sm32Encoder.encodeOp_target ops leads with ⟨t, labelled, offset⟩
      refine ⟨t, labelled, Eq.trans ?_ offset⟩
      exact (setPred_ok (by decide) guarded).1.signedField_eq (by decide) (by decide)
  | sm50 =>
      simp only [encodeInstr, Sm50Encoder.encodeInstr, bind_eq_ok] at encoded
      rcases encoded with ⟨before, ops, guarded⟩
      rcases Sm50Encoder.encodeOp_target ops leads with ⟨t, labelled, offset⟩
      refine ⟨t, labelled, Eq.trans ?_ offset⟩
      exact (setPred_ok (by decide) guarded).1.signedField_eq (by decide) (by decide)
  | sm70 sm => exact Sm70Encoder.encodeInstr_target encoded leads

/-- Before SM70 the condition of a branch has no part in whether it is taken. -/
theorem encodeInstr_bra (target : NvTarget) {word : BitVec target.width}
    (encoded : target.encodeInstr others labels ip instr = .ok word) {label : Label} {cond : Src}
    (branches : instr.op = .bra label cond) (regs : PredRegs) :
    target.takes regs word = target.takesWhen instr.pred cond regs := by
  cases target with
  | sm20 | sm30 =>
      simp only [encodeInstr, Sm20Encoder.encodeInstr, branches, bind_eq_ok] at encoded
      rcases encoded with ⟨before, ops, set⟩
      rcases setPred_ok (by decide) set with ⟨guarded, as_pred⟩
      have always : getField (w := 64) word 5 4 = 0xf :=
        (guarded.others 5 4 (by decide) (by decide)).trans (Sm20Encoder.encodeOp_bra ops)
      rw [takes, always, guarded.reads, as_pred rfl]
      exact Bool.and_true _
  | sm32 =>
      simp only [encodeInstr, Sm32Encoder.encodeInstr, branches, bind_eq_ok] at encoded
      rcases encoded with ⟨before, ops, set⟩
      rcases setPred_ok (by decide) set with ⟨guarded, as_pred⟩
      have always : getField (w := 64) word 2 4 = 0xf :=
        (guarded.others 2 4 (by decide) (by decide)).trans (Sm32Encoder.encodeOp_bra ops)
      rw [takes, always, guarded.reads, as_pred rfl]
      exact Bool.and_true _
  | sm50 =>
      simp only [encodeInstr, Sm50Encoder.encodeInstr, branches, bind_eq_ok] at encoded
      rcases encoded with ⟨before, ops, set⟩
      rcases setPred_ok (by decide) set with ⟨guarded, as_pred⟩
      have always : getField (w := 64) word 0 5 = 0xf :=
        (guarded.others 0 5 (by decide) (by decide)).trans (Sm50Encoder.encodeOp_bra ops)
      rw [takes, always, guarded.reads, as_pred rfl]
      exact Bool.and_true _
  | sm70 sm => exact Sm70Encoder.encodeInstr_bra branches encoded regs

end NvTarget

/-! ## All words -/

/-- The words are those of the items, each at its place. -/
theorem encodeItems_ok {w : Nat} {encode : Nat → CodeItem → Except Fault (BitVec w)}
    {items : List CodeItem} {words : List (BitVec w)}
    (encoded : encodeItems encode items = .ok words) :
    words.length = items.length ∧ ∀ k item, items[k]? = some item →
      ∃ word, words[k]? = some word ∧ encode k item = .ok word := by
  have general : ∀ (items : List CodeItem) (before words : List (BitVec w)),
      items.foldlM (fun encoded item => do return encoded ++ [← encode encoded.length item])
        before = .ok words →
      ∃ rest, words = before ++ rest ∧ rest.length = items.length ∧
        ∀ k item, items[k]? = some item →
          ∃ word, rest[k]? = some word ∧ encode (before.length + k) item = .ok word := by
    intro items
    induction items with
    | nil =>
        intro before words encoded
        cases encoded
        exact ⟨[], (List.append_nil before).symm, rfl, by simp⟩
    | cons first items hind =>
        intro before words encoded
        simp only [List.foldlM_cons, bind_eq_ok] at encoded
        rcases encoded with ⟨next, ⟨word, here, done⟩, later⟩
        cases done
        rcases hind _ _ later with ⟨rest, rfl, length, placed⟩
        refine ⟨word :: rest, by rw [List.append_assoc]; rfl, congrArg (· + 1) length, ?_⟩
        intro k item found
        cases k with
        | zero =>
            cases found
            exact ⟨word, rfl, here⟩
        | succ k =>
            rcases placed k item found with ⟨word', place, encoded'⟩
            rw [List.length_append, List.length_singleton, Nat.add_assoc, Nat.add_comm 1 k]
              at encoded'
            exact ⟨word', place, encoded'⟩
  rcases general items [] words encoded with ⟨rest, rfl, length, placed⟩
  refine ⟨length, ?_⟩
  intro k item found
  rcases placed k item found with ⟨word, place, encoded'⟩
  rw [List.length_nil, Nat.zero_add] at encoded'
  exact ⟨word, place, encoded'⟩

namespace NvTarget

variable {others : OtherWords} {blocks : List CfBlock}

/-- An instruction has the `k`th word. -/
def HasWord (blocks : List CfBlock) (target : NvTarget) (k : Nat) (instr : CfInstr) : Prop :=
  ∃ b i, (target.items blocks)[k]? = some (.instr b i instr)

/-- Every instruction of a shader is encoded at its place. -/
theorem encodeShader_ok {target : NvTarget} {words : List (BitVec target.width)}
    (encoded : target.encodeShader others blocks = .ok words) :
    words.length = (target.items blocks).length ∧
      ∀ k instr, target.HasWord blocks k instr →
        ∃ word, words[k]? = some word ∧
          target.encodeInstr others (target.labels blocks) (k * target.unit) instr = .ok word := by
  cases target with
  | sm20 | sm30 | sm32 | sm50 | sm70 =>
      rcases encodeItems_ok encoded with ⟨length, placed⟩
      exact ⟨length, fun k instr ⟨b, i, found⟩ => placed k (.instr b i instr) found⟩

/-- Whatever the words of a shader lead to is what its instructions say. -/
structure EncodesControlFlow (others : OtherWords) (blocks : List CfBlock) (target : NvTarget)
    (words : List (BitVec target.width)) : Prop where
  /-- The label of a block has the offset of the first instruction from it on. -/
  labelled : ∀ b block, blocks[b]? = some block →
    ∃ k, target.labels blocks block.label = some (k * target.unit) ∧
      StartsAt blocks (target.items blocks) k b
  /-- The word of an instruction is at its place. -/
  placed : ∀ k instr, target.HasWord blocks k instr →
    ∃ word, words[k]? = some word ∧
      target.encodeInstr others (target.labels blocks) (k * target.unit) instr = .ok word
  /-- From its own place a word leads to the offset of its target. -/
  lands : ∀ k instr word label, target.HasWord blocks k instr →
    words[k]? = some word → instr.op.target = some label →
      ∃ t : Nat, target.labels blocks label = some t ∧ target.destination k word = t
  /-- A branch is taken when its guard and its condition hold. -/
  taken : ∀ k instr word label cond, target.HasWord blocks k instr →
    words[k]? = some word → instr.op = .bra label cond →
      ∀ regs, target.takes regs word = (instr.pred.holdsIn regs && cond.holdsIn regs)

/-- The guard alone decides a branch before SM70, and its number alone is encoded from then on. -/
def GuardSuffices (target : NvTarget) (pred : Pred) (cond : Src) : Prop :=
  ∀ regs, if target.beforeSm70 then pred.holdsIn regs → cond.holdsIn regs
    else cond.holdsIn regs → pred.holdsAsPred regs = pred.holdsIn regs

/-- The branches of a shader are such that their words can lead where they do. -/
structure CanEncode (blocks : List CfBlock) (target : NvTarget) : Prop where
  near : ∀ k instr label s, target.HasWord blocks k instr →
    instr.op.target = some label → LabelledAt blocks label target s →
      InRange (target.offsetBits instr.op) (((s : Int) - (k + 1)) * target.unit)
  guarded : ∀ k instr label cond, target.HasWord blocks k instr →
    instr.op = .bra label cond → target.GuardSuffices instr.pred cond

theorem guardSuffices_iff {target : NvTarget} {pred : Pred} {cond : Src} :
    target.GuardSuffices pred cond ↔
      ∀ regs, target.takesWhen pred cond regs = (pred.holdsIn regs && cond.holdsIn regs) := by
  apply forall_congr'
  intro regs
  rw [takesWhen]
  cases target.beforeSm70 <;> cases pred.holdsIn regs <;> cases pred.holdsAsPred regs <;>
    cases cond.holdsIn regs <;> simp

theorem offsetBits_pos (target : NvTarget) (op : CfOp) : 0 < target.offsetBits op := by
  rw [offsetBits.eq_def]
  split
  · decide
  · decide
  · decide
  · decide
  · decide
  · split <;> decide

/-- A word leads to its target when the distance fits into its field. -/
theorem destination_iff {target : NvTarget} {labels : Labels} {k s : Nat} {instr : CfInstr}
    {word : BitVec target.width} {label : Label}
    (encoded : target.encodeInstr others labels (k * target.unit) instr = .ok word)
    (leads : instr.op.target = some label) (labelled : labels label = some (s * target.unit)) :
    target.destination k word = (s * target.unit : Nat) ↔
      InRange (target.offsetBits instr.op) (((s : Int) - (k + 1)) * target.unit) := by
  rcases target.encodeInstr_target encoded leads with ⟨t, found, offset⟩
  cases labelled.symm.trans found
  have distance : ((s * target.unit : Nat) : Int) - (k * target.unit : Nat) - target.unit =
      ((s : Int) - (k + 1)) * target.unit := by
    push_cast
    rw [Int.sub_mul, Int.add_mul, Int.one_mul]
    omega
  rw [destination, offset, distance, ← bmod_eq_self_iff (target.offsetBits_pos _)]
  have split : ((s * target.unit : Nat) : Int) =
      (k + 1) * target.unit + ((s : Int) - (k + 1)) * target.unit := by
    push_cast
    rw [Int.sub_mul, Int.add_mul, Int.one_mul]
    omega
  rw [split]
  exact Int.add_right_inj _

/-- The words of a shader lead where its instructions do, as far as they can. -/
theorem encodesControlFlow_iff (target : NvTarget) (distinct : DistinctLabels blocks)
    {words : List (BitVec target.width)}
    (encoded : target.encodeShader others blocks = .ok words) :
    EncodesControlFlow others blocks target words ↔ CanEncode blocks target := by
  rcases encodeShader_ok encoded with ⟨_, placed⟩
  constructor
  · intro encodes
    constructor
    · intro k instr label s found leads labelled
      rcases placed k instr found with ⟨word, place, here⟩
      rcases encodes.lands k instr word label found place leads with ⟨t, same, lands⟩
      have offset := labels_of_labelledAt distinct labelled
      cases same.symm.trans offset
      exact (destination_iff here leads offset).mp lands
    · intro k instr label cond found branches
      rcases placed k instr found with ⟨word, place, here⟩
      apply guardSuffices_iff.mpr
      intro regs
      rw [← target.encodeInstr_bra here branches regs]
      exact encodes.taken k instr word label cond found place branches regs
  · intro can
    constructor
    · intro b block found
      exact ⟨_, labels_block target distinct found, startsAt_blockStart target blocks b⟩
    · exact placed
    · intro k instr word label found place leads
      rcases placed k instr found with ⟨word', place', here⟩
      cases place.symm.trans place'
      rcases target.encodeInstr_target here leads with ⟨t, same, _⟩
      rcases exists_labelledAt same with ⟨s, labelled⟩
      have offset := labels_of_labelledAt distinct labelled
      refine ⟨_, offset, (destination_iff here leads offset).mpr ?_⟩
      exact can.near k instr label s found leads labelled
    · intro k instr word label cond found place branches regs
      rcases placed k instr found with ⟨word', place', here⟩
      cases place.symm.trans place'
      rw [target.encodeInstr_bra here branches regs]
      exact guardSuffices_iff.mp (can.guarded k instr label cond found branches) regs

/-- The branch of an `if`, around a block that runs when its condition holds. -/
def branchIf : List CfBlock :=
  let cond : Src := ⟨.reg ⟨.pred, 0, 1, Nat.zero_le _, RegRef.single⟩, .bNot, .none⟩
  [{ label := ⟨0⟩, instrs := [{ op := .bra ⟨2⟩ cond }] },
    { label := ⟨1⟩, instrs := [{ op := .nop none }] },
    { label := ⟨2⟩, instrs := [{ op := .nop none }] }]

def noOthers : OtherWords := ⟨fun _ => .ok 0, fun _ => .ok 0, fun _ => 0⟩

/-- The words of the `if` on SM70. -/
def branchIfWords : List (BitVec 128) :=
  [0x000fc000040000000000001000007947, 0x000fc000000000000000000000007918,
    0x000fc000000000000000000000007918]

theorem encodesControlFlow_branchIf :
    EncodesControlFlow noOthers branchIf (.sm70 75) branchIfWords ↔
      CanEncode branchIf (.sm70 75) :=
  encodesControlFlow_iff (.sm70 75) (by unfold DistinctLabels; decide) (by decide)

/-- The words of the `if` on SM50: the branch does not name the predicate register. -/
def branchIfSm50Words : List (BitVec 64) :=
  let nop : BitVec 64 := 0x50b0000000070f00
  [0, 0xe24000000387000f, nop, nop, 0, nop, nop, nop, 0, nop, nop, nop]

/-- On SM50 the branch is taken whether or not its condition holds. -/
theorem branchIf_always_taken :
    DistinctLabels branchIf ∧ NvTarget.sm50.encodeShader noOthers branchIf = .ok branchIfSm50Words ∧
      ¬ EncodesControlFlow noOthers branchIf .sm50 branchIfSm50Words := by
  refine ⟨by unfold DistinctLabels; decide, by decide, ?_⟩
  intro encodes
  let regs : PredRegs := ⟨fun _ _ => true, rfl, rfl⟩
  have taken := encodes.taken 1 _ 0xe24000000387000f _ _ ⟨0, 0, rfl⟩ rfl rfl regs
  have always : NvTarget.sm50.takes regs (0xe24000000387000f : BitVec 64) = true := by
    decide
  rw [always] at taken
  exact Bool.noConfusion taken

end NvTarget

end CoralReef
