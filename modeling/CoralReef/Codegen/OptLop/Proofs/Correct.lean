import CoralReef.Codegen.OptLop.Proofs.Place
import Mathlib.Algebra.Order.BigOperators.Group.List

/-!
# Logic ops are kept and the loops end

Every run of a function in strict SSA form that switches no logic op off is the same after the
pass.
-/

open List

open Function (update update_of_ne update_self)

namespace CoralReef

/-- `Op::Lop3` or `Op::PLop3`. -/
def AluOp.isLop : AluOp → Bool
  | .lop3 _ | .plop3 _ => true
  | _ => false

def LopEntry.names (entry : LopEntry) : List SSAValue := (List.ofFn entry.srcs).flatMap Src.iterSsa

theorem LopEntry.mem_names {entry : LopEntry} {i : Fin 3} {z : SSAValue}
    (isName : z ∈ (entry.srcs i).iterSsa) : z ∈ entry.names :=
  mem_flatMap.mpr ⟨entry.srcs i, mem_ofFn.mpr ⟨i, rfl⟩, isName⟩

/-- The bits of sources depend on the names in them. -/
theorem srcBits_congr {E : Type} (interp : AluInterp E) {vals vals' : SSAValue → BitVec 32}
    {srcs : Fin 3 → Src} (same : ∀ i, ∀ z ∈ (srcs i).iterSsa, vals z = vals' z) (bit : Nat) :
    srcBits interp vals srcs bit = srcBits interp vals' srcs bit := by
  funext i
  rw [srcBits, interp.word_congr (same i)]
  rfl

/-- What the map of the pass records. -/
def lopFacts : Facts LopEntry where
  names := LopEntry.names
  Means interp vals x entry := entry.Means interp vals x
  onNames := by
    intro E interp vals vals' x entry sameX same means bit inside
    rw [← sameX, means bit inside]
    exact congrArg _ (srcBits_congr interp (fun i z isName => same z (LopEntry.mem_names isName)) bit)

/-- A logic op on words, before registers are assigned. -/
structure OpLop3.InForm (op : OpLop3) : Prop where
  type : ∀ i, (op.srcs i).supportsType .alu
  noReg : ∀ i, (op.srcs i).reference.getReg = none
  single : ∀ i vec, (op.srcs i).reference = .ssa vec → vec.length = 1
  dst : ∀ vec, op.dst = .ssa vec → ∃ x, vec = [x] ∧ x.file.isGpr

/-- A logic op on predicates, before registers are assigned. -/
structure OpPLop3.InForm (op : OpPLop3) : Prop where
  type : ∀ i, (op.srcs i).supportsType .pred
  noSwizzle : ∀ i, (op.srcs i).swizzle = .none
  noReg : ∀ i, (op.srcs i).reference.getReg = none
  single : ∀ i vec, (op.srcs i).reference = .ssa vec → vec.length = 1
  dst : ∀ i vec, op.dsts i = .ssa vec → ∃ x, vec = [x] ∧ x.file.isPredicate

/-- All logic ops of a function are in form. -/
structure AluFunction.LopsInForm (f : AluFunction) : Prop where
  lop3 : ∀ p pred op, f.instrAt p = some ⟨pred, .lop3 op⟩ → op.InForm
  plop3 : ∀ p pred op, f.instrAt p = some ⟨pred, .plop3 op⟩ → op.InForm

theorem RegFile.lopBits_of_isGpr {file : RegFile} (isGpr : file.isGpr) : file.lopBits = 32 := by
  cases file <;> first | rfl | cases isGpr

theorem RegFile.lopBits_of_isPredicate {file : RegFile} (isPredicate : file.isPredicate) :
    file.lopBits = 1 := by
  cases file <;> first | rfl | cases isPredicate

/-- The names that an instruction reads are counted. -/
theorem LopPass.useCounts_new {f : AluFunction} {p : AluFunction.Place} {instr : AluInstr}
    (atP : f.instrAt p = some instr) {src : Src} (isSrc : src ∈ instr.op.srcs) {x : SSAValue}
    (isSsa : src.reference = .ssa [x]) : ((LopPass.new f).useCounts x).isSome := by
  have counted : x ∈ f.blocks.blocks.flatMap fun bb => bb.instrs.flatMap AluInstr.countedUses := by
    refine AluFunction.forall_instrAt (fun instr => src ∈ instr.op.srcs →
      x ∈ f.blocks.blocks.flatMap fun bb => bb.instrs.flatMap AluInstr.countedUses) ?_ atP isSrc
    intro bb isBlock instr isInstr isSrc
    refine mem_flatMap.mpr ⟨bb, isBlock, mem_flatMap.mpr ⟨instr, isInstr, ?_⟩⟩
    refine mem_append_right _ (mem_flatMap.mpr ⟨src, isSrc, ?_⟩)
    simp [isSsa, SrcRef.asSsa]
  have positive := count_pos_iff.mpr counted
  simp only [LopPass.new, if_neg (Nat.ne_of_gt positive), Option.isSome_some]

namespace LopOps

variable {n : Nat}

/-- Inverting a source in the tables takes its modifier away. -/
theorem invertSrc_eq {op : LopOps n} {i : Fin 3}
    (isMod : (op.srcs i).modifier = .none ∨ (op.srcs i).modifier = .bNot) :
    (op.invertSrc i).srcs = update op.srcs i { op.srcs i with modifier := .none } := by
  unfold invertSrc
  split
  · rfl
  · next notInverted =>
    have isNone := isMod.resolve_right notInverted
    refine (Function.update_eq_self_iff.mpr ?_).symm
    rw [← isNone]

theorem truths_invertSrc {E : Type} (interp : AluInterp E) (vals : SSAValue → BitVec 32)
    (op : LopOps n) (i : Fin 3) (k : Fin n) :
    ((op.invertSrc i).ops k).result (fun j => interp.truth vals ((op.invertSrc i).srcs j)) =
      (op.ops k).result (fun j => interp.truth vals (op.srcs j)) := by
  unfold invertSrc
  split
  · next isInverted =>
    let plain : Src := { op.srcs i with modifier := .none }
    show ((op.ops k).invertSrc i).result
      (fun j => interp.truth vals (update op.srcs i plain j)) = _
    rw [LogicOp3.result_invertSrc]
    refine congrArg (op.ops k).result ?_
    funext j
    by_cases isI : j = i
    · rw [isI, update_self, update_self]
      simp [AluInterp.truth, plain, isInverted]
    · rw [update_of_ne isI, update_of_ne isI]
  · rfl

/-- All sources of a logic op on predicates have been inverted in the tables. -/
theorem srcs_invertAll {op : LopOps n}
    (isMod : ∀ i, (op.srcs i).modifier = .none ∨ (op.srcs i).modifier = .bNot) :
    ((finRange 3).foldl invertSrc op).srcs =
      fun i => { op.srcs i with modifier := .none } := by
  have isMod₁ : ((op.invertSrc 0).srcs 1).modifier = .none ∨
      ((op.invertSrc 0).srcs 1).modifier = .bNot := by
    rw [invertSrc_eq (isMod 0)]
    exact isMod 1
  have isMod₂ : (((op.invertSrc 0).invertSrc 1).srcs 2).modifier = .none ∨
      (((op.invertSrc 0).invertSrc 1).srcs 2).modifier = .bNot := by
    rw [invertSrc_eq isMod₁, invertSrc_eq (isMod 0)]
    exact isMod 2
  show (((op.invertSrc 0).invertSrc 1).invertSrc 2).srcs = _
  rw [invertSrc_eq isMod₂, invertSrc_eq isMod₁, invertSrc_eq (isMod 0)]
  funext i
  match i with
  | 0 => rfl
  | 1 => rfl
  | 2 => rfl

theorem truths_invertAll {E : Type} (interp : AluInterp E) (vals : SSAValue → BitVec 32)
    (op : LopOps n) (k : Fin n) :
    (((finRange 3).foldl invertSrc op).ops k).result
        (fun j => interp.truth vals (((finRange 3).foldl invertSrc op).srcs j)) =
      (op.ops k).result (fun j => interp.truth vals (op.srcs j)) := by
  show ((((op.invertSrc 0).invertSrc 1).invertSrc 2).ops k).result (fun j =>
    interp.truth vals ((((op.invertSrc 0).invertSrc 1).invertSrc 2).srcs j)) = _
  rw [truths_invertSrc, truths_invertSrc, truths_invertSrc]

end LopOps

namespace LopPass

variable {f : AluFunction} {rank : SSAValue → Nat}
variable {pass : LopPass} {here : SSAValue → Prop}

/-- What is kept of the maps while the pass goes through a function. -/
structure Sound (f : AluFunction) (rank : SSAValue → Nat) (pass : LopPass) : Prop where
  counts : pass.useCounts = (LopPass.new f).useCounts
  formed : ∀ x entry, pass.ssaLop x = some entry → entry.Formed pass.useCounts x.file.lopBits
  recorded : ∀ x entry, pass.ssaLop x = some entry → lopFacts.Recorded f AluOp.isLop x entry
  less : ∀ x entry, pass.ssaLop x = some entry → ∀ i, ∀ z ∈ (entry.srcs i).iterSsa, rank z < rank x

theorem Sound.start : Sound f rank (.new f) where
  counts := rfl
  formed := by
    intro x entry never
    cases never
  recorded := by
    intro x entry never
    cases never
  less := by
    intro x entry never
    cases never

/-- Where an instruction stands, the entries speak of names that it may use. -/
theorem Sound.closed (sound : Sound f rank pass) (strict : f.StrictSsa) (p : AluFunction.Place)
    (bound : Nat → Prop) (down : ∀ n m, n < m → bound m → bound n) :
    pass.Closed (fun z => f.Available z p ∧ bound (rank z)) rank where
  formed := sound.formed
  names := by
    intro x entry found isHere i z isName
    exact ⟨(sound.recorded x entry found).available strict isHere.1 z (LopEntry.mem_names isName),
      down _ _ (sound.less x entry found i z isName) isHere.2⟩
  less := sound.less

/-- On a path to the instruction the entries are true. -/
theorem Sound.holds (sound : Sound f rank pass) (strict : f.StrictSsa) {p : AluFunction.Place}
    {bound : Nat → Prop} {E : Type} (interp : AluInterp E) (state : AluState E)
    {history : List AluFunction.Place} (path : f.Path history p)
    (on : f.GuardsOn AluOp.isLop interp state history) :
    pass.Holds interp (f.run interp history state).vals
      fun z => f.Available z p ∧ bound (rank z) :=
  fun x entry found isHere =>
    (sound.recorded x entry found).holds strict isHere.1 interp state path on

/-- The entry of a logic op that has been gone through is true after it. -/
theorem Sound.record (sound : Sound f rank pass) (strict : f.StrictSsa) {p : AluFunction.Place}
    {instr : AluInstr} (atP : f.instrAt p = some instr) {x : SSAValue} (isDef : x ∈ instr.ssaDefs)
    {bound : Nat → Prop} (below : ∀ n, bound n → n < rank x) {n : Nat} {op : LopOps n}
    (good : op.Good pass.useCounts (fun z => f.Available z p ∧ bound (rank z)) x.file.lopBits)
    (k : Fin n) (gives : ∀ {E : Type} (interp : AluInterp E) (state : AluState E)
      (history : List AluFunction.Place), f.Path history p →
        f.GuardsOn AluOp.isLop interp state (history ++ [p]) → ∀ bit < x.file.lopBits,
          ((interp.step (f.run interp history state) instr).vals x).getLsbD bit =
            (op.ops k).result (srcBits interp (f.run interp history state).vals op.srcs bit)) :
    Sound f rank { pass with ssaLop := update pass.ssaLop x (some (op.entry k)) } := by
  have available (i : Fin 3) : ∀ z ∈ (op.srcs i).iterSsa, f.Available z p :=
    fun z isName => (good.names i z isName).1
  have recorded : lopFacts.Recorded f AluOp.isLop x (op.entry k) := by
    refine ⟨p, by rwa [AluFunction.defsAt_eq atP], ?_, ?_⟩
    · intro z isName
      rcases mem_flatMap.mp isName with ⟨src, isSrc, isName⟩
      rcases mem_ofFn.mp isSrc with ⟨i, rfl⟩
      exact available i z isName
    · intro E interp state history path on bit inside
      rw [AluFunction.run_snoc atP, gives interp state history path on bit inside]
      refine congrArg _ (srcBits_congr interp ?_ bit)
      intro i z isName
      exact (strict.step_available atP path (available i z isName) interp _).symm
  have split {holds : SSAValue → LopEntry → Prop} (new : holds x (op.entry k))
      (old : ∀ y entry, pass.ssaLop y = some entry → holds y entry) : ∀ y entry,
        update pass.ssaLop x (some (op.entry k)) y = some entry → holds y entry := by
    intro y entry found
    by_cases same : y = x
    · rw [same, update_self] at found
      cases found
      rw [same]
      exact new
    · rw [update_of_ne same] at found
      exact old y entry found
  refine ⟨sound.counts, split (good.formed k) sound.formed, split recorded sound.recorded,
    split ?_ sound.less⟩
  exact fun i z isName => below _ (good.names i z isName).2

/-- The entries of a destination. -/
theorem addDst_ok {n : Nat} {counts : SSAValue → Option Nat} {width : Nat} {op : LopOps n}
    (good : op.Good counts here width) (pass : LopPass) {dst : Dst}
    (single : ∀ vec, dst = .ssa vec → ∃ x, vec = [x]) (k : Fin n) :
    ∃ pass', pass.addDst dst (op.ops k) op.srcs = .ok pass' ∧ (pass' = pass ∨
      ∃ x, dst = .ssa [x] ∧
        pass' = { pass with ssaLop := update pass.ssaLop x (some (op.entry k)) }) := by
  cases dst with
  | none | reg r => exact ⟨pass, rfl, .inl rfl⟩
  | ssa vec =>
    rcases single vec rfl with ⟨x, rfl⟩
    exact ⟨_, good.addDst pass x k, .inr ⟨x, rfl, rfl⟩⟩

/-- What `opt_lop3` does to one op: it has the same value, and becomes an entry. -/
theorem optLop3_spec (closed : pass.Closed here rank) {op : OpLop3} (form : op.InForm)
    (counted : ∀ i x, (op.srcs i).reference = .ssa [x] → (pass.useCounts x).isSome)
    (names : ∀ i, ∀ z ∈ (op.srcs i).iterSsa, here z) {fuel : Nat} (some : 0 < fuel)
    (enough : ∀ z, here z → rank z + 1 < fuel) :
    ∃ (out : LopOps 1) (pass' : LopPass), pass.optLop3 fuel op =
        .ok ({ op with op := out.ops 0, srcs := out.srcs }, pass') ∧
      out.Good pass.useCounts here 32 ∧
      (∀ {E : Type} (interp : AluInterp E) (vals : SSAValue → BitVec 32),
        pass.Holds interp vals here → ∀ bit < 32, (interp.lop3Value vals op).getLsbD bit =
          (out.ops 0).result (srcBits interp vals out.srcs bit)) ∧
      (pass' = pass ∨ ∃ x, op.dst = .ssa [x] ∧
        pass' = { pass with ssaLop := update pass.ssaLop x (Option.some (out.entry 0)) }) := by
  have isAlu (i : Fin 3) : (op.srcs i).isUnmodified = true ∧ (op.srcs i).reference.isAlu = true := by
    have type := form.type i
    rwa [Src.supportsType, Bool.and_eq_true] at type
  have bitwise (i : Fin 3) : (op.srcs i).Bitwise pass.useCounts 32 := by
    refine ⟨(isAlu i).1, ?_⟩
    intro vec isSsa
    rcases length_eq_one_iff.mp (form.single i vec isSsa) with ⟨x, rfl⟩
    have isGpr : x.file.isGpr = true := by simpa [isSsa, SrcRef.isAlu, fileOf] using (isAlu i).2
    exact ⟨x, rfl, (RegFile.lopBits_of_isGpr isGpr).ge, counted i x isSsa⟩
  rcases dedupSrcs_ok (fun i => (isAlu i).1) op.op with ⟨lut, deduped, same⟩
  let start : LopOps 1 := { ops := fun _ => lut, srcs := op.srcs }
  have bitwise' : ∀ i, (start.srcs i).Bitwise pass.useCounts 32 := bitwise
  rcases propagate_ok closed (by decide) (Nat.le_refl 32) bitwise' names (.inl rfl) some enough with
    ⟨out, propagated, good, sameBits⟩
  rcases addDst_ok good pass (fun vec isDst => (form.dst vec isDst).imp fun _ => And.left) 0 with
    ⟨pass', added, isPass⟩
  refine ⟨out, pass', ?_, good, ?_, isPass⟩
  · simp only [optLop3, deduped, ok_bind]
    rw [propagated]
    simp only [ok_bind, added]
    rfl
  · intro E interp vals holds bit inside
    have value : (interp.lop3Value vals op).getLsbD bit =
        op.op.result (srcBits interp vals op.srcs bit) :=
      LogicOp3.getLsbD_eval op.op (fun i => interp.word vals (op.srcs i).reference) inside
    rw [value, sameBits interp vals holds 0 bit inside]
    refine (same _ ?_).symm
    intro i j isSame
    rw [srcBits, isSame]
    rfl

/-- What `opt_plop3` does to one op: it has the same values, and becomes two entries. -/
theorem optPlop3_spec (closed : pass.Closed here rank) {op : OpPLop3} (form : op.InForm)
    (counted : ∀ i x, (op.srcs i).reference = .ssa [x] → (pass.useCounts x).isSome)
    (names : ∀ i, ∀ z ∈ (op.srcs i).iterSsa, here z) {fuel : Nat} (some : 0 < fuel)
    (enough : ∀ z, here z → rank z + 1 < fuel) :
    ∃ (out : LopOps 2) (pass₁ pass₂ : LopPass), pass.optPlop3 fuel op =
        .ok ({ op with ops := out.ops, srcs := out.srcs }, pass₂) ∧
      out.Good pass.useCounts here 1 ∧
      (∀ {E : Type} (interp : AluInterp E) (vals : SSAValue → BitVec 32),
        pass.Holds interp vals here → ∀ k, interp.plop3Value vals op k =
          BitVec.fill 32 ((out.ops k).result (srcBits interp vals out.srcs 0))) ∧
      (pass₁ = pass ∨ ∃ x, op.dsts 0 = .ssa [x] ∧
        pass₁ = { pass with ssaLop := update pass.ssaLop x (Option.some (out.entry 0)) }) ∧
      (pass₂ = pass₁ ∨ ∃ x, op.dsts 1 = .ssa [x] ∧
        pass₂ = { pass₁ with ssaLop := update pass₁.ssaLop x (Option.some (out.entry 1)) }) := by
  have isPred (i : Fin 3) : ((op.srcs i).modifier = .none ∨ (op.srcs i).modifier = .bNot) ∧
      (op.srcs i).reference.isPredicate = true := by
    have type := form.type i
    rw [Src.supportsType, Bool.and_eq_true] at type
    refine ⟨?_, type.2⟩
    cases isMod : (op.srcs i).modifier <;> simp [isMod] at type ⊢
  let plain := (finRange 3).foldl LopOps.invertSrc { ops := op.ops, srcs := op.srcs }
  have srcs : plain.srcs = fun i => { op.srcs i with modifier := .none } :=
    LopOps.srcs_invertAll fun i => (isPred i).1
  have isPlain (i : Fin 3) : (plain.srcs i).isUnmodified = true := by
    rw [srcs]
    simp [Src.isUnmodified, form.noSwizzle i]
  have bitwise (i : Fin 3) : (plain.srcs i).Bitwise pass.useCounts 1 := by
    refine ⟨isPlain i, ?_⟩
    rw [srcs]
    intro vec isSsa
    have isSsa : (op.srcs i).reference = .ssa vec := isSsa
    rcases length_eq_one_iff.mp (form.single i vec isSsa) with ⟨x, rfl⟩
    have isPredicate : x.file.isPredicate = true := by
      simpa [isSsa, SrcRef.isPredicate, fileOf] using (isPred i).2
    exact ⟨x, rfl, (RegFile.lopBits_of_isPredicate isPredicate).ge, counted i x isSsa⟩
  rcases dedupSrcs_ok isPlain (plain.ops 0) with ⟨first, deduped₀, same₀⟩
  rcases dedupSrcs_ok isPlain (plain.ops 1) with ⟨second, deduped₁, same₁⟩
  let start : LopOps 2 := { plain with ops := ![first, second] }
  have bitwise' : ∀ i, (start.srcs i).Bitwise pass.useCounts 1 := bitwise
  have names' : ∀ i, ∀ z ∈ (start.srcs i).iterSsa, here z := by
    show ∀ i, ∀ z ∈ (plain.srcs i).iterSsa, here z
    rw [srcs]
    exact names
  rcases propagate_ok closed (by decide) (by decide) bitwise' names' (.inr rfl) some enough with
    ⟨out, propagated, good, sameBits⟩
  have single (i : Fin 2) (vec : SSARef) (isDst : op.dsts i = .ssa vec) : ∃ x, vec = [x] :=
    (form.dst i vec isDst).imp fun _ => And.left
  rcases addDst_ok good pass (single 0) 0 with ⟨pass₁, added₁, isPass₁⟩
  rcases addDst_ok good pass₁ (single 1) 1 with ⟨pass₂, added₂, isPass₂⟩
  refine ⟨out, pass₁, pass₂, ?_, good, ?_, isPass₁, isPass₂⟩
  · have deduped₀ : dedupSrcs (((finRange 3).foldl LopOps.invertSrc
        { ops := op.ops, srcs := op.srcs }).ops 0) ((finRange 3).foldl LopOps.invertSrc
        { ops := op.ops, srcs := op.srcs }).srcs = .ok first := deduped₀
    have deduped₁ : dedupSrcs (((finRange 3).foldl LopOps.invertSrc
        { ops := op.ops, srcs := op.srcs }).ops 1) ((finRange 3).foldl LopOps.invertSrc
        { ops := op.ops, srcs := op.srcs }).srcs = .ok second := deduped₁
    simp only [optPlop3, deduped₀, deduped₁, ok_bind]
    rw [propagated]
    simp only [ok_bind, added₁, added₂]
    rfl
  · intro E interp vals holds k
    rw [AluInterp.plop3Value, sameBits interp vals holds k 0 Nat.one_pos]
    refine congrArg (BitVec.fill 32) ?_
    rw [← LopOps.truths_invertAll interp vals { ops := op.ops, srcs := op.srcs } k]
    have truths : (fun j => interp.truth vals (plain.srcs j)) = srcBits interp vals plain.srcs 0 := by
      funext j
      simp [AluInterp.truth, srcBits, srcs]
    have agree (i j : Fin 3) (isSame : (plain.srcs i).reference = (plain.srcs j).reference) :
        srcBits interp vals plain.srcs 0 i = srcBits interp vals plain.srcs 0 j := by
      rw [srcBits, isSame]
      rfl
    show (plain.ops k).result (fun j => interp.truth vals (plain.srcs j)) = _
    rw [truths]
    obtain rfl | rfl : k = 0 ∨ k = 1 := by omega
    · exact (same₀ _ agree).symm
    · exact (same₁ _ agree).symm

/-- A logic op on words writes its value. -/
theorem step_lop3 {E : Type} (interp : AluInterp E) {state : AluState E} {pred : Pred} {op : OpLop3}
    (isOn : interp.guard state.vals pred = true) {x : SSAValue} (isDst : op.dst = .ssa [x]) :
    (interp.step state ⟨pred, .lop3 op⟩).vals x = interp.lop3Value state.vals op := by
  rw [AluInterp.step, if_pos isOn, AluInterp.exec, isDst]
  exact update_self _ _ _

/-- A logic op on predicates writes both its values. -/
theorem step_plop3 {E : Type} (interp : AluInterp E) {state : AluState E} {pred : Pred}
    {op : OpPLop3} (isOn : interp.guard state.vals pred = true)
    (nodup : ((op.dsts 0).iterSsa ++ (op.dsts 1).iterSsa).Nodup) {x : SSAValue} {k : Fin 2}
    (isDst : op.dsts k = .ssa [x]) :
    (interp.step state ⟨pred, .plop3 op⟩).vals x = interp.plop3Value state.vals op k := by
  rw [AluInterp.step, if_pos isOn, AluInterp.exec]
  obtain rfl | rfl : k = 0 ∨ k = 1 := by omega
  · have apart : x ∉ (op.dsts 1).iterSsa := by
      intro again
      rw [isDst] at nodup
      exact (nodup_append.mp nodup).2.2 x (by simp [Dst.iterSsa]) x again rfl
    refine (AluInterp.write_of_notMem apart).trans ?_
    rw [isDst]
    exact update_self _ _ _
  · rw [isDst]
    exact update_self _ _ _

/-- What the pass does to one instruction. -/
theorem Sound.optInstr (sound : Sound f rank pass) (strict : f.StrictSsa) (form : f.LopsInForm)
    {p : AluFunction.Place} {instr : AluInstr} (atP : f.instrAt p = some instr)
    (ranked : instr.op.isLop = true → ∀ x ∈ instr.ssaDefs,
      ∀ z ∈ instr.op.srcs.flatMap Src.iterSsa, rank z < rank x) {fuel : Nat} (some : 0 < fuel)
    (enough : ∀ z ∈ instr.op.srcs.flatMap Src.iterSsa, rank z + 1 < fuel) :
    ∃ instr' pass', LopPass.optInstr fuel pass instr = .ok (instr', pass') ∧
      Sound f rank pass' ∧ f.StepsAlike AluOp.isLop p instr instr' := by
  rcases instr with ⟨pred, op⟩
  let bound (n : Nat) : Prop := (∀ x ∈ (AluInstr.mk pred op).ssaDefs, n < rank x) ∧ n + 1 < fuel
  let here (z : SSAValue) : Prop := f.Available z p ∧ bound (rank z)
  have closed : pass.Closed here rank := by
    refine sound.closed strict p bound ?_
    intro n m less isBound
    exact ⟨fun x isDef => less.trans (isBound.1 x isDef),
      (Nat.succ_lt_succ less).trans isBound.2⟩
  have shallow (z : SSAValue) (isHere : here z) : rank z + 1 < fuel := isHere.2.2
  have names (isLop : op.isLop = true) {src : Src} (isSrc : src ∈ op.srcs) :
      ∀ z ∈ src.iterSsa, here z := by
    intro z isName
    have isUse : z ∈ op.srcs.flatMap Src.iterSsa := mem_flatMap.mpr ⟨src, isSrc, isName⟩
    refine ⟨?_, fun x isDef => ranked isLop x isDef z isUse, enough z isUse⟩
    apply strict.dominated p z
    rw [AluFunction.usesAt_eq atP]
    exact mem_append_right _ isUse
  have counted {src : Src} (isSrc : src ∈ op.srcs) (x : SSAValue)
      (isSsa : src.reference = .ssa [x]) : (pass.useCounts x).isSome := by
    rw [sound.counts]
    exact LopPass.useCounts_new atP isSrc isSsa
  cases op with
  | prmt op | base op => exact ⟨_, pass, rfl, sound, fun _ _ _ _ _ => rfl⟩
  | lop3 op =>
    have isSrc (i : Fin 3) : op.srcs i ∈ (AluOp.lop3 op).srcs := mem_ofFn.mpr ⟨i, rfl⟩
    have isForm := form.lop3 p pred op atP
    rcases optLop3_spec closed isForm (fun i => counted (isSrc i)) (fun i => names rfl (isSrc i))
      some shallow with ⟨out, pass', returned, good, value, isPass⟩
    refine ⟨⟨pred, .lop3 { op with op := out.ops 0, srcs := out.srcs }⟩, pass', ?_, ?_, ?_⟩
    · simp only [LopPass.optInstr, returned, ok_bind]
      rfl
    · rcases isPass with rfl | ⟨x, isDst, rfl⟩
      · exact sound
      · have isDef : x ∈ (AluInstr.mk pred (.lop3 op)).ssaDefs := by
          simp [AluInstr.ssaDefs, AluOp.dsts, isDst, Dst.iterSsa]
        rcases isForm.dst [x] isDst with ⟨y, isOne, isGpr⟩
        cases isOne
        have width := RegFile.lopBits_of_isGpr isGpr
        refine sound.record strict atP isDef (fun n isBound => isBound.1 x isDef)
          (width.symm ▸ good) 0 ?_
        intro E interp state history path on bit inside
        rw [width] at inside
        rw [step_lop3 interp (on.last atP rfl) isDst]
        exact value interp _ (sound.holds strict interp state path (on.cut history [p])) bit inside
    · intro E interp state history path on
      have holds : pass.Holds interp (f.run interp history state).vals here :=
        sound.holds strict interp state path (on.cut history [p])
      have same : interp.lop3Value (f.run interp history state).vals
          { op with op := out.ops 0, srcs := out.srcs } =
            interp.lop3Value (f.run interp history state).vals op := by
        apply BitVec.eq_of_getLsbD_eq
        intro bit inside
        rw [value interp _ holds bit inside]
        exact LogicOp3.getLsbD_eval (out.ops 0) (fun i => interp.word _ (out.srcs i).reference)
          inside
      simp only [AluInterp.step, AluInterp.exec, same]
  | plop3 op =>
    have isSrc (i : Fin 3) : op.srcs i ∈ (AluOp.plop3 op).srcs := mem_ofFn.mpr ⟨i, rfl⟩
    have isForm := form.plop3 p pred op atP
    have defs : (AluInstr.mk pred (.plop3 op)).ssaDefs =
        (op.dsts 0).iterSsa ++ (op.dsts 1).iterSsa := by
      simp [AluInstr.ssaDefs, AluOp.dsts]
    have nodup := strict.nodup p
    rw [AluFunction.defsAt_eq atP, defs] at nodup
    rcases optPlop3_spec closed isForm (fun i => counted (isSrc i)) (fun i => names rfl (isSrc i))
      some shallow with ⟨out, pass₁, pass₂, returned, good, value, isPass₁, isPass₂⟩
    have record {pass' : LopPass} (sound' : Sound f rank pass')
        (good' : out.Good pass'.useCounts here 1) {k : Fin 2} {x : SSAValue}
        (isDst : op.dsts k = .ssa [x]) : Sound f rank
          { pass' with ssaLop := update pass'.ssaLop x (Option.some (out.entry k)) } := by
      have isDef : x ∈ (AluInstr.mk pred (.plop3 op)).ssaDefs := by
        rw [defs]
        obtain rfl | rfl : k = 0 ∨ k = 1 := by omega
        all_goals simp [isDst, Dst.iterSsa]
      rcases isForm.dst k [x] isDst with ⟨y, isOne, isPredicate⟩
      cases isOne
      have width := RegFile.lopBits_of_isPredicate isPredicate
      refine sound'.record strict atP isDef (fun n isBound => isBound.1 x isDef)
        (width.symm ▸ good') k ?_
      intro E interp state history path on bit inside
      rw [width, Nat.lt_one_iff] at inside
      rw [step_plop3 interp (on.last atP rfl) nodup isDst,
        value interp _ (sound.holds strict interp state path (on.cut history [p])) k, inside]
      simp
    refine ⟨⟨pred, .plop3 { op with ops := out.ops, srcs := out.srcs }⟩, pass₂, ?_, ?_, ?_⟩
    · simp only [LopPass.optInstr, returned, ok_bind]
      rfl
    · have sound₁ : Sound f rank pass₁ ∧ pass₁.useCounts = pass.useCounts := by
        rcases isPass₁ with rfl | ⟨x, isDst, rfl⟩
        · exact ⟨sound, rfl⟩
        · exact ⟨record sound good isDst, rfl⟩
      rcases isPass₂ with rfl | ⟨x, isDst, rfl⟩
      · exact sound₁.1
      · exact record sound₁.1 (sound₁.2 ▸ good) isDst
    · intro E interp state history path on
      have holds : pass.Holds interp (f.run interp history state).vals here :=
        sound.holds strict interp state path (on.cut history [p])
      have same (k : Fin 2) : interp.plop3Value (f.run interp history state).vals
          { op with ops := out.ops, srcs := out.srcs } k =
            interp.plop3Value (f.run interp history state).vals op k := by
        rw [value interp _ holds k]
        refine congrArg (fun v => BitVec.fill 32 ((out.ops k).result v)) ?_
        funext j
        have plain := (good.bitwise j).plain
        rw [Src.isUnmodified, decide_eq_true_eq] at plain
        simp [AluInterp.truth, srcBits, plain.1]
      simp only [AluInterp.step, AluInterp.exec, same]

end LopPass

/-- A function in strict SSA form comes out of the pass, and whatever it ran from, after any path
all names hold what they held, if no logic op was switched off. -/
theorem optLop_preserves {f : AluFunction} (strict : f.StrictSsa) (form : f.LopsInForm)
    (grounded : f.Grounded AluOp.isLop) :
    ∃ fuel f', f.optLop fuel = .ok f' ∧ f'.Next = f.Next ∧
      ∀ {E : Type} (interp : AluInterp E) (state : AluState E) (history : List AluFunction.Place)
        (q : AluFunction.Place), f.Path history q → f.GuardsOn AluOp.isLop interp state history →
          f'.run interp history state = f.run interp history state := by
  rcases grounded with ⟨rank, ranked⟩
  let bound := (f.sources.map rank).sum
  refine ⟨bound + 2, ?_⟩
  refine AluFunction.mapInstrs_run (LopPass.Sound f rank) .start ?_
  intro p instr pass atP sound
  refine sound.optInstr strict form atP (ranked p instr atP) (by omega) ?_
  intro z isUse
  have le : rank z ≤ bound :=
    List.single_le_sum (fun n _ => Nat.zero_le n) _ (List.mem_map_of_mem (f.mem_sources atP z isUse))
  omega

/-- A logic op of registers, on two operands. -/
def lopOf (lut : BitVec 8) (dst : Nat) (x y : SrcRef) : OpLop3 where
  dst := .ofSsa ⟨.gpr, dst⟩
  srcs := ![{ reference := x }, { reference := y }, { reference := .zero }]
  op := ⟨lut⟩

/-- The complement of a register. -/
def notOf (pred : Pred) (dst src : Nat) : AluInstr :=
  ⟨pred, .lop3 (lopOf 0x0f dst (.ssa [⟨.gpr, src⟩]) .zero)⟩

/-- The conjunction of two registers. -/
def andOf (dst x y : Nat) : AluInstr :=
  ⟨{}, .lop3 (lopOf 0xc0 dst (.ssa [⟨.gpr, x⟩]) (.ssa [⟨.gpr, y⟩]))⟩

/-- A register, its complement, and the conjunction of the two. -/
def contradiction : AluFunction :=
  .apart [[undefined ⟨.gpr, 1⟩, notOf {} 2 1, andOf 3 2 1]]

theorem lopOf_inForm (lut : BitVec 8) (dst : Nat) {x y : SrcRef} (isX : x = .zero ∨ ∃ i, x = .ssa [⟨.gpr, i⟩])
    (isY : y = .zero ∨ ∃ i, y = .ssa [⟨.gpr, i⟩]) : (lopOf lut dst x y).InForm := by
  have operand {r : SrcRef} (isR : r = .zero ∨ ∃ i, r = .ssa [⟨.gpr, i⟩]) :
      Src.supportsType { reference := r } .alu = true ∧ r.getReg = none ∧
        ∀ vec, r = .ssa vec → vec.length = 1 := by
    rcases isR with rfl | ⟨i, rfl⟩
    · exact ⟨rfl, rfl, fun vec never => by cases never⟩
    · refine ⟨rfl, rfl, ?_⟩
      intro vec isSsa
      cases isSsa
      rfl
  have each (i : Fin 3) : ((lopOf lut dst x y).srcs i).supportsType .alu = true ∧
      ((lopOf lut dst x y).srcs i).reference.getReg = none ∧
        ∀ vec, ((lopOf lut dst x y).srcs i).reference = .ssa vec → vec.length = 1 := by
    match i with
    | 0 => exact operand isX
    | 1 => exact operand isY
    | 2 => exact operand (.inl rfl)
  refine ⟨fun i => (each i).1, fun i => (each i).2.1, fun i => (each i).2.2, ?_⟩
  intro vec isDst
  cases isDst
  exact ⟨_, rfl, rfl⟩

theorem optLop_preserves_contradiction :
    ∃ fuel f', contradiction.optLop fuel = .ok f' ∧ f'.Next = contradiction.Next ∧
      ∀ {E : Type} (interp : AluInterp E) (state : AluState E) (history : List AluFunction.Place)
        (q : AluFunction.Place), contradiction.Path history q →
          contradiction.GuardsOn AluOp.isLop interp state history →
            f'.run interp history state = contradiction.run interp history state := by
  refine optLop_preserves (AluFunction.apart_strictSsa (by decide) (by decide)) ?_ ?_
  · have each {p : AluFunction.Place} {instr : AluInstr}
        (atP : contradiction.instrAt p = some instr) :
        (∀ op, instr.op = .lop3 op → op.InForm) ∧ ∀ op, instr.op ≠ .plop3 op := by
      refine AluFunction.forall_instrAt (fun instr =>
        (∀ op, instr.op = .lop3 op → op.InForm) ∧ ∀ op, instr.op ≠ .plop3 op) ?_ atP
      intro bb isBlock instr isInstr
      cases List.mem_singleton.mp isBlock
      simp only [List.mem_cons, List.not_mem_nil, or_false] at isInstr
      rcases isInstr with rfl | rfl | rfl
      · exact ⟨nofun, nofun⟩
      · refine ⟨?_, fun op never => by cases never⟩
        intro op isOp
        cases isOp
        exact lopOf_inForm _ _ (.inr ⟨1, rfl⟩) (.inl rfl)
      · refine ⟨?_, fun op never => by cases never⟩
        intro op isOp
        cases isOp
        exact lopOf_inForm _ _ (.inr ⟨2, rfl⟩) (.inr ⟨1, rfl⟩)
    exact ⟨fun p pred op atP => (each atP).1 op rfl, fun p pred op atP =>
      absurd rfl ((each atP).2 op)⟩
  · refine ⟨SSAValue.idx, ?_⟩
    intro p instr atP
    exact AluFunction.forall_instrAt (fun instr => instr.op.isLop = true →
      ∀ x ∈ instr.ssaDefs, ∀ z ∈ instr.op.srcs.flatMap Src.iterSsa, z.idx < x.idx) (by decide) atP

/-- The complement of a complement that is guarded. -/
def guardedNot : AluFunction :=
  .apart [[undefined ⟨.pred, 1⟩, undefined ⟨.gpr, 2⟩,
    notOf { predicate := .ssa ⟨.pred, 1⟩ } 3 2, notOf {} 4 3]]

/-- A copy that no path reaches, of itself, and a copy of that one. -/
def spinningCopy : AluFunction :=
  .apart [[], [⟨{}, .lop3 (lopOf 0xf0 1 (.ssa [⟨.gpr, 1⟩]) .zero)⟩,
    ⟨{}, .lop3 (lopOf 0xf0 2 (.ssa [⟨.gpr, 1⟩]) .zero)⟩]]

/-- The operand that is the copy itself. -/
def spinningSrc : Src := .ofSsa ⟨.gpr, 1⟩

/-- A pass that has gone through the first copy. -/
structure LopPass.Spins (pass : LopPass) : Prop where
  entry : ∃ entry, pass.ssaLop ⟨.gpr, 1⟩ = some entry ∧ entry.srcsUsed = ![true, false, false] ∧
    entry.srcs 0 = spinningSrc
  counted : (pass.useCounts ⟨.gpr, 1⟩).isSome

theorem LopPass.Spins.step {pass : LopPass} (spins : pass.Spins) {op : LopOps 1}
    (isSrc : op.srcs 0 = spinningSrc) :
    ∃ op', pass.tryPropToSrc 0 op = .ok (some op') ∧ op'.srcs 0 = spinningSrc := by
  rcases spins.entry with ⟨entry, found, used, isEntry⟩
  rcases Option.isSome_iff_exists.mp spins.counted with ⟨count, isCount⟩
  have few : ¬ (1 < entry.numUsed ∧ 1 < count) := by
    intro many
    have isOne : entry.numUsed = 1 := by
      rw [LopEntry.numUsed, used]
      rfl
    omega
  have places : placeSrcs entry op.srcs 0 (finRange 3) (finRange 3) =
      .ok (some (update (fun _ => none) 0 (some 0))) := by
    have here : (finRange 3).find? (fun j =>
        decide ((entry.srcs 0).reference = (op.srcs j).reference)) = some 0 := by
      rw [isEntry]
      exact find?_cons_of_pos (by simp [isSrc])
    have rest : placeSrcs entry op.srcs 0 [1, 2] (finRange 3) = .ok (some fun _ => none) := by
      simp [placeSrcs, used]
    show placeSrcs entry op.srcs 0 (0 :: [1, 2]) (finRange 3) = _
    rw [placeSrcs, used, if_neg (by decide)]
    simp only [here, rest, ok_bind]
    rfl
  refine ⟨op.substitute entry 0 (update (fun _ => none) 0 (some 0)) .zero, ?_, ?_⟩
  · unfold tryPropToSrc
    simp only [isSrc, spinningSrc, Src.ofSsa, length_singleton, head?_cons, expect_some,
      found, isCount, if_neg few, places, ok_bind, clearedSrc]
    rfl
  · exact isEntry

theorem LopPass.Spins.loop {pass : LopPass} (spins : pass.Spins) (fuel : Nat) :
    ∀ {op : LopOps 1}, op.srcs 0 = spinningSrc →
      loopWhileSome (pass.tryPropToSrc 0) fuel op = .error (.panic "out of fuel") := by
  induction fuel with
  | zero => exact fun _ => rfl
  | succ fuel ih =>
    intro op isSrc
    rcases spins.step isSrc with ⟨op', returned, isSrc'⟩
    rw [loopWhileSome, returned, ok_bind]
    exact ih isSrc'

/-- The second copy is looked through for ever. -/
theorem LopPass.Spins.optInstr {pass : LopPass} (spins : pass.Spins) (fuel : Nat) :
    LopPass.optInstr fuel pass ⟨{}, .lop3 (lopOf 0xf0 2 (.ssa [⟨.gpr, 1⟩]) .zero)⟩ =
      .error (.panic "out of fuel") := by
  have deduped : ∃ lut, dedupSrcs ⟨0xf0⟩ (lopOf 0xf0 2 (.ssa [⟨.gpr, 1⟩]) .zero).srcs = .ok lut ∧
      ∃ op : LopOps 1, (finRange 3).foldlM (LopOps.foldSrc .zero)
        (LopOps.mk (fun _ => lut) (lopOf 0xf0 2 (.ssa [⟨.gpr, 1⟩]) .zero).srcs) = .ok op ∧
          op.srcs 0 = spinningSrc := ⟨_, rfl, _, rfl, rfl⟩
  rcases deduped with ⟨lut, deduped, op, folded, isSrc⟩
  have propagated : pass.propagate fuel .zero (LopOps.mk (fun _ : Fin 1 => lut)
      (lopOf 0xf0 2 (.ssa [⟨.gpr, 1⟩]) .zero).srcs) = .error (.panic "out of fuel") := by
    rw [propagate, folded, ok_bind]
    show (loopWhileSome (pass.tryPropToSrc 0) fuel op >>= _) = _
    rw [spins.loop fuel isSrc, error_bind]
  have op3 : pass.optLop3 fuel (lopOf 0xf0 2 (.ssa [⟨.gpr, 1⟩]) .zero) =
      .error (.panic "out of fuel") := by
    have deduped : dedupSrcs (lopOf 0xf0 2 (.ssa [⟨.gpr, 1⟩]) .zero).op
        (lopOf 0xf0 2 (.ssa [⟨.gpr, 1⟩]) .zero).srcs = .ok lut := deduped
    rw [optLop3, deduped, ok_bind, propagated, error_bind]
  simp only [LopPass.optInstr, op3, error_bind]

theorem optLop_spinning (fuel : Nat) :
    spinningCopy.optLop fuel = .error (.panic "out of fuel") := by
  cases fuel with
  | zero => rfl
  | succ fuel =>
    have first : ∃ instr pass, LopPass.optInstr (fuel + 1) (.new spinningCopy)
        ⟨{}, .lop3 (lopOf 0xf0 1 (.ssa [⟨.gpr, 1⟩]) .zero)⟩ = .ok (instr, pass) ∧ pass.Spins := by
      refine ⟨_, _, rfl, ⟨_, rfl, ?_, rfl⟩, rfl⟩
      decide
    rcases first with ⟨instr, pass, first, spins⟩
    have block : mapAccumM (LopPass.optInstr (fuel + 1))
        [⟨{}, .lop3 (lopOf 0xf0 1 (.ssa [⟨.gpr, 1⟩]) .zero)⟩,
          ⟨{}, .lop3 (lopOf 0xf0 2 (.ssa [⟨.gpr, 1⟩]) .zero)⟩] (.new spinningCopy) =
            .error (.panic "out of fuel") := by
      simp only [mapAccumM, first, ok_bind, spins.optInstr, error_bind]
    exact AluFunction.mapInstrs_apart_error block

/-- When the guarded logic op is switched off, its name keeps what it held; the pass reads through
it. And the pass does not end on code that no path reaches. -/
theorem optLop_reads_through_guard :
    (guardedNot.StrictSsa ∧ ∃ f', guardedNot.optLop 9 = .ok f' ∧
      ∃ history, guardedNot.Path history (0, 4) ∧ ∃ state : AluState Unit,
        (f'.run quietInterp history state).vals ⟨.gpr, 4⟩ ≠
          (guardedNot.run quietInterp history state).vals ⟨.gpr, 4⟩) ∧
    (spinningCopy.StrictSsa ∧ ∀ fuel f', spinningCopy.optLop fuel ≠ .ok f') := by
  refine ⟨⟨AluFunction.apart_strictSsa (by decide) (by decide), ?_⟩,
    AluFunction.apart_strictSsa (by decide) (by decide), ?_⟩
  · refine ⟨_, rfl, _, AluFunction.apart_path (by decide), ⟨fun _ => 1, ()⟩, ?_⟩
    decide
  · intro fuel f' returned
    rw [optLop_spinning] at returned
    cases returned

end CoralReef
