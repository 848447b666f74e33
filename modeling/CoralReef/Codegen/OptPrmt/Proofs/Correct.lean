import CoralReef.Codegen.OptPrmt.Proofs.FourWay
import Mathlib.Algebra.Order.BigOperators.Group.List
import Mathlib.Algebra.Order.Group.Nat

/-!
# Permutes are kept and the loops end

The loops run out of sources to look through, and every run of a function in strict SSA form that
switches no permute off is the same after the pass.
-/

open List

namespace CoralReef

namespace PrmtPass

variable {pass : PrmtPass} {here : SSAValue → Prop} {rank : SSAValue → Nat}

/-- The loop over one source ends. -/
theorem sourceLoop (closed : pass.Closed here rank) {op : OpPrmt} (good : op.Good here)
    (srcIdx : Fin 2) (fuel : Nat) (enough : pass.opDepth rank op < fuel) :
    ∃ op', loopWhileSome (pass.tryOptPrmtSrc srcIdx) fuel op = .ok op' ∧ pass.Remade here op op' ∧
      pass.opDepth rank op' ≤ pass.opDepth rank op := by
  refine loopWhileSome_ok (fun op' => pass.Remade here op op' ∧
    pass.opDepth rank op' ≤ pass.opDepth rank op)
    (fun op' => pass.depth rank (op'.source srcIdx).reference) ?_
    ⟨.refl good, Nat.le_refl _⟩ ((depth_le_opDepth op srcIdx).trans_lt enough)
  rintro op' ⟨remade, le⟩
  rcases tryOptPrmtSrc_spec closed remade.good srcIdx with ⟨r, returned, next⟩
  refine ⟨r, returned, ?_⟩
  intro op'' isOp
  rcases next op'' isOp with ⟨remade', less, others⟩
  refine ⟨⟨remade.trans remade', le.trans' ?_⟩, less⟩
  match srcIdx with
  | 0 =>
    rw [opDepth, opDepth, others 1 (by decide)]
    omega
  | 1 =>
    rw [opDepth, opDepth, others 0 (by decide)]
    omega

/-- The loop over the four bytes ends. -/
theorem bytesLoop (closed : pass.Closed here rank) {op : OpPrmt} (good : op.Good here) (fuel : Nat)
    (enough : 2 * pass.opDepth rank op + 1 < fuel) :
    ∃ op', loopWhileSome pass.tryOptPrmt4 fuel op = .ok op' ∧ pass.Remade here op op' := by
  classical
  refine loopWhileSome_ok (fun op' => pass.Remade here op op')
    (fun op' => 2 * pass.opDepth rank op' +
      if pass.tryOptPrmt4 op' = .ok none then 0 else 1) ?_ (.refl good) ?_
  · intro op' remade
    rcases tryOptPrmt4_spec closed remade.good with ⟨r, returned, next⟩
    refine ⟨r, returned, ?_⟩
    intro op'' isOp
    rcases next op'' isOp with ⟨remade', shallower, last⟩
    refine ⟨remade.trans remade', ?_⟩
    have changed : ¬ pass.tryOptPrmt4 op' = .ok none := by
      rw [returned, isOp]
      exact fun never => by cases never
    rw [if_neg changed]
    by_cases shallow : pass.opDepth rank op' = 0
    · rw [last shallow, if_pos rfl]
      omega
    · split <;> omega
  · split <;> omega

/-- What the pass does to one permute: it has the same value, and becomes an entry. -/
theorem optPrmt_spec (closed : pass.Closed here rank) {op : OpPrmt} (good : op.Good here)
    (single : ∀ vec, op.dst = .ssa vec → vec.length = 1) {fuel : Nat}
    (enough : 2 * pass.opDepth rank op + 1 < fuel) :
    ∃ op' pass', pass.optPrmt fuel op = .ok (op', pass') ∧ pass.Remade here op op' ∧
      (pass' = pass ∨ ∃ x sel, op.dst = .ssa [x] ∧ op'.getSel = .ok (some sel) ∧
        pass' = Function.update pass x
          (some { sel, srcs := fun i => (op'.source i).reference })) := by
  rcases sourceLoop closed good 0 fuel (by omega) with ⟨op₁, first, remade₁, le₁⟩
  rcases sourceLoop closed remade₁.good 1 fuel (by omega) with ⟨op₂, second, remade₂, le₂⟩
  rcases bytesLoop closed remade₂.good fuel (by omega) with ⟨op', third, remade₃⟩
  have remade := (remade₁.trans remade₂).trans remade₃
  rw [optPrmt, first, ok_bind, second, ok_bind, third, ok_bind]
  have noEntry : pass.addPrmt op' = .ok pass → ∃ op'' pass', (do
      let pass' ← pass.addPrmt op'
      return (op', pass')) = Except.ok (op'', pass') ∧ pass.Remade here op op'' ∧
      (pass' = pass ∨ ∃ x sel, op.dst = .ssa [x] ∧ op''.getSel = .ok (some sel) ∧
        pass' = Function.update pass x
          (some { sel, srcs := fun i => (op''.source i).reference })) := by
    intro added
    exact ⟨op', pass, by rw [added]; rfl, remade, .inl rfl⟩
  cases isDst : op.dst with
  | none | reg r => exact isDst ▸ noEntry (by rw [addPrmt, remade.dst, isDst])
  | ssa vec =>
    rcases length_eq_one_iff.mp (single vec isDst) with ⟨x, rfl⟩
    have plain : op'.sel.isUnmodified := remade.good.plain 2
    have plain₀ := (remade.good.source 0).1
    have plain₁ := (remade.good.source 1).1
    cases isSel : op'.getSel with
    | error fault =>
      rw [OpPrmt.getSel_eq plain] at isSel
      cases isSel
    | ok sel? =>
      cases sel? with
      | none =>
        refine isDst ▸ noEntry ?_
        rw [addPrmt, remade.dst, isDst]
        simp only [isSel, ok_bind, length_singleton, decide_true, assertThat_true,
          List.head?_cons, expect_some]
        rfl
      | some sel =>
        refine ⟨op', _, ?_, remade, .inr ⟨x, sel, rfl, isSel, rfl⟩⟩
        rw [addPrmt, remade.dst, isDst]
        simp only [isSel, ok_bind, length_singleton, decide_true, assertThat_true,
          List.head?_cons, expect_some, plain₀, plain₁]
        rfl

end PrmtPass

/-- The names of the sources of an entry. -/
def PrmtEntry.names (entry : PrmtEntry) : List SSAValue :=
  (entry.srcs 0).iterSsa ++ (entry.srcs 1).iterSsa

theorem PrmtEntry.mem_names {entry : PrmtEntry} {j : Fin 2} {z : SSAValue}
    (isName : z ∈ (entry.srcs j).iterSsa) : z ∈ entry.names := by
  match j with
  | 0 => exact mem_append_left _ isName
  | 1 => exact mem_append_right _ isName

theorem PrmtEntry.value_congr {E : Type} (interp : AluInterp E)
    {vals vals' : SSAValue → BitVec 32} (entry : PrmtEntry)
    (same : ∀ z ∈ entry.names, vals z = vals' z) :
    entry.value interp vals = entry.value interp vals' := by
  have words : (fun j => interp.word vals (entry.srcs j)) =
      fun j => interp.word vals' (entry.srcs j) :=
    funext fun j => interp.word_congr fun z isName => same z (mem_names isName)
  rw [value, value, words]

/-- What the map of the pass says: a name is the permute of its entry. -/
def prmtFacts : Facts PrmtEntry where
  names := PrmtEntry.names
  Means interp vals x entry := vals x = entry.value interp vals
  onNames interp _ _ _ _ here others means :=
    (here.symm.trans means).trans (PrmtEntry.value_congr interp _ others)

def AluOp.isPrmt : AluOp → Bool
  | .prmt _ => true
  | _ => false

/-- What the pass asserts of a permute, and what SSA form says of it: its operands have their type
and one component, and no register is named. -/
structure OpPrmt.InForm (op : OpPrmt) : Prop where
  type : ∀ i, (op.srcs i).supportsType .alu
  noReg : ∀ i, (op.srcs i).reference.getReg = none
  single : ∀ i vec, (op.srcs i).reference = .ssa vec → vec.length = 1
  dst : ∀ vec, op.dst = .ssa vec → vec.length = 1

def AluFunction.PrmtsInForm (f : AluFunction) : Prop :=
  ∀ p instr op, f.instrAt p = some instr → instr.op = .prmt op → op.InForm

theorem OpPrmt.InForm.good {op : OpPrmt} (form : op.InForm) {here : SSAValue → Prop}
    (names : ∀ z ∈ (AluOp.prmt op).srcs.flatMap Src.iterSsa, here z) : op.Good here := by
  have isAlu : ∀ i, (op.srcs i).isUnmodified = true ∧ (op.srcs i).reference.isAlu = true := by
    intro i
    have type := form.type i
    rwa [Src.supportsType, Bool.and_eq_true] at type
  refine ⟨fun i => (isAlu i).1, fun i => ⟨⟨(isAlu i).2, form.noReg i, form.single i⟩, ?_⟩⟩
  intro z isName
  apply names z
  rw [mem_flatMap]
  exact ⟨op.srcs i, mem_ofFn.mpr ⟨i, rfl⟩, isName⟩

namespace PrmtPass

variable {f : AluFunction} {rank : SSAValue → Nat}
variable {pass : PrmtPass}

/-- What is kept of the map while the pass goes through a function. -/
structure Sound (f : AluFunction) (rank : SSAValue → Nat) (pass : PrmtPass) : Prop where
  recorded : ∀ x entry, pass x = some entry → prmtFacts.Recorded f AluOp.isPrmt x entry
  scalar : ∀ x entry, pass x = some entry → ∀ j, (entry.srcs j).Scalar
  less : ∀ x entry, pass x = some entry → ∀ j, ∀ z ∈ (entry.srcs j).iterSsa, rank z < rank x

/-- Where an instruction stands, the entries speak of names that it may use. -/
theorem Sound.closed (sound : Sound f rank pass) (strict : f.StrictSsa) (p : AluFunction.Place)
    (bound : Nat → Prop) (down : ∀ n m, n < m → bound m → bound n) :
    pass.Closed (fun z => f.Available z p ∧ bound (rank z)) rank where
  refs := by
    intro x entry found isHere j
    refine ⟨sound.scalar x entry found j, ?_⟩
    intro z isName
    exact ⟨(sound.recorded x entry found).available strict isHere.1 z
      (PrmtEntry.mem_names isName),
      down _ _ (sound.less x entry found j z isName) isHere.2⟩
  less := sound.less

/-- On a path to the instruction the entries are true. -/
theorem Sound.holds (sound : Sound f rank pass) (strict : f.StrictSsa) {p : AluFunction.Place}
    {bound : Nat → Prop} {E : Type} (interp : AluInterp E) (state : AluState E)
    {history : List AluFunction.Place} (path : f.Path history p)
    (on : f.GuardsOn AluOp.isPrmt interp state history) :
    pass.Holds (fun z => f.Available z p ∧ bound (rank z)) interp
      (f.run interp history state).vals :=
  fun x entry found isHere =>
    (sound.recorded x entry found).holds strict isHere.1 interp state path on

theorem Sound.empty : Sound f rank fun _ => none where
  recorded := by
    intro x entry never
    cases never
  scalar := by
    intro x entry never
    cases never
  less := by
    intro x entry never
    cases never

theorem depth_le (pass : PrmtPass) {r : SrcRef} {bound : Nat}
    (le : ∀ z ∈ r.iterSsa, rank z + 1 ≤ bound) : pass.depth rank r ≤ bound := by
  unfold depth
  split
  · next x =>
    split
    · exact le x (by simp [SrcRef.iterSsa])
    · exact Nat.zero_le _
  · exact Nat.zero_le _

/-- A permute of one component writes its value. -/
theorem step_prmt {E : Type} (interp : AluInterp E) {state : AluState E} {pred : Pred} {op : OpPrmt}
    (isOn : interp.guard state.vals pred = true) {x : SSAValue} (isDst : op.dst = .ssa [x]) :
    (interp.step state ⟨pred, .prmt op⟩).vals x = interp.prmtValue state.vals op := by
  rw [AluInterp.step, if_pos isOn, AluInterp.exec, isDst]
  exact Function.update_self _ _ _

/-- The entry of a permute that has been gone through is true after it. -/
theorem Sound.record (sound : Sound f rank pass) (strict : f.StrictSsa) {p : AluFunction.Place}
    {pred : Pred} {op op' : OpPrmt} (atP : f.instrAt p = some ⟨pred, .prmt op⟩) {x : SSAValue}
    (isDst : op.dst = .ssa [x]) (bound : Nat → Prop) (below : ∀ n, bound n → n < rank x)
    (remade : pass.Remade (fun z => f.Available z p ∧ bound (rank z)) op op') {sel : PrmtSel}
    (isSel : op'.getSel = .ok (some sel)) :
    Sound f rank (Function.update pass x
      (some { sel, srcs := fun i => (op'.source i).reference })) := by
  let entry : PrmtEntry := { sel, srcs := fun i => (op'.source i).reference }
  have good (j : Fin 2) := (remade.good.source j).2
  have names : ∀ z ∈ entry.names, f.Available z p := by
    intro z isName
    rcases mem_append.mp isName with isName | isName
    · exact ((good 0).names z isName).1
    · exact ((good 1).names z isName).1
  have recorded : prmtFacts.Recorded f AluOp.isPrmt x entry := by
    refine ⟨p, ?_, names, ?_⟩
    · rw [AluFunction.defsAt_eq atP]
      simp [AluInstr.ssaDefs, AluOp.dsts, isDst, Dst.iterSsa]
    · intro E interp state history path on
      show (f.run interp (history ++ [p]) state).vals x =
        entry.value interp (f.run interp (history ++ [p]) state).vals
      rw [AluFunction.run_snoc atP, step_prmt interp (on.last atP rfl) isDst,
        ← remade.value interp _ (sound.holds strict interp state path (on.cut history [p])),
        (OpPrmt.value_of_getSel interp _ (remade.good.plain 2) isSel).2]
      refine PrmtEntry.value_congr interp entry ?_
      intro z isName
      exact (strict.step_available atP path (names z isName) interp _).symm
  constructor
  · intro y entry' found
    by_cases same : y = x
    · rw [same, Function.update_self] at found
      cases found
      rw [same]
      exact recorded
    · rw [Function.update_of_ne same] at found
      exact sound.recorded y entry' found
  · intro y entry' found
    by_cases same : y = x
    · rw [same, Function.update_self] at found
      cases found
      exact fun j => (good j).toScalar
    · rw [Function.update_of_ne same] at found
      exact sound.scalar y entry' found
  · intro y entry' found
    by_cases same : y = x
    · rw [same, Function.update_self] at found
      cases found
      intro j z isName
      rw [same]
      exact below _ ((good j).names z isName).2
    · rw [Function.update_of_ne same] at found
      exact sound.less y entry' found

/-- What the pass does to one instruction. -/
theorem Sound.optInstr (sound : Sound f rank pass) (strict : f.StrictSsa) (form : f.PrmtsInForm)
    {p : AluFunction.Place} {instr : AluInstr} (atP : f.instrAt p = some instr)
    (ranked : instr.op.isPrmt = true → ∀ x ∈ instr.ssaDefs,
      ∀ z ∈ instr.op.srcs.flatMap Src.iterSsa, rank z < rank x) {fuel : Nat} (some : 1 < fuel)
    (enough : ∀ z ∈ instr.op.srcs.flatMap Src.iterSsa, 2 * (rank z + 1) + 1 < fuel) :
    ∃ instr' pass', PrmtPass.optInstr fuel pass instr = .ok (instr', pass') ∧
      Sound f rank pass' ∧ f.StepsAlike AluOp.isPrmt p instr instr' := by
  rcases instr with ⟨pred, op⟩
  cases op with
  | lop3 op | plop3 op | base op => exact ⟨_, pass, rfl, sound, fun _ _ _ _ _ => rfl⟩
  | prmt op =>
    have isForm := form p _ op atP rfl
    let bound (n : Nat) : Prop := ∀ x ∈ op.dst.iterSsa, n < rank x
    have defs : (AluInstr.mk pred (.prmt op)).ssaDefs = op.dst.iterSsa := by
      simp [AluInstr.ssaDefs, AluOp.dsts]
    have closed := sound.closed strict p bound fun n m less isBound x isDef =>
      less.trans (isBound x isDef)
    have good : op.Good fun z => f.Available z p ∧ bound (rank z) := by
      refine isForm.good ?_
      intro z isUse
      constructor
      · apply strict.dominated p z
        rw [AluFunction.usesAt_eq atP]
        exact mem_append_right _ isUse
      · intro x isDef
        refine ranked rfl x ?_ z isUse
        rwa [defs]
    have shallow : 2 * pass.opDepth rank op + 1 < fuel := by
      have each : ∀ j, 2 * pass.depth rank (op.source j).reference + 1 < fuel := by
        intro j
        have le : pass.depth rank (op.source j).reference ≤ (fuel - 2) / 2 := by
          refine depth_le pass ?_
          intro z isName
          have isUse : z ∈ (AluOp.prmt op).srcs.flatMap Src.iterSsa :=
            mem_flatMap.mpr ⟨op.source j, mem_ofFn.mpr ⟨_, rfl⟩, isName⟩
          have := enough z isUse
          omega
        omega
      have first := each 0
      have second := each 1
      rw [opDepth]
      omega
    rcases optPrmt_spec closed good isForm.dst shallow with
      ⟨op', pass', returned, remade, isPass⟩
    refine ⟨⟨pred, .prmt op'⟩, pass', ?_, ?_, ?_⟩
    · simp only [PrmtPass.optInstr, returned, ok_bind]
      rfl
    · rcases isPass with rfl | ⟨x, sel, isDst, isSel, rfl⟩
      · exact sound
      · refine sound.record strict atP isDst bound ?_ remade isSel
        intro n isBound
        exact isBound x (by simp [isDst, Dst.iterSsa])
    · intro E interp state history path on
      have value := remade.value interp _
        (sound.holds strict interp state path (on.cut history [p]))
      simp only [AluInterp.step, AluInterp.exec, remade.dst, value]

end PrmtPass

/-- A function in strict SSA form comes out of the pass, and whatever it ran from, after any path
all names hold what they held, if no permute was switched off. -/
theorem optPrmt_preserves {f : AluFunction} (strict : f.StrictSsa) (form : f.PrmtsInForm)
    (grounded : f.Grounded AluOp.isPrmt) :
    ∃ fuel f', f.optPrmt fuel = .ok f' ∧ f'.Next = f.Next ∧
      ∀ {E : Type} (interp : AluInterp E) (state : AluState E) (history : List AluFunction.Place)
        (q : AluFunction.Place), f.Path history q → f.GuardsOn AluOp.isPrmt interp state history →
          f'.run interp history state = f.run interp history state := by
  rcases grounded with ⟨rank, ranked⟩
  let bound := (f.sources.map rank).sum
  refine ⟨2 * (bound + 1) + 2, ?_⟩
  refine AluFunction.mapInstrs_run (PrmtPass.Sound f rank) .empty ?_
  intro p instr pass atP sound
  refine sound.optInstr strict form atP (ranked p instr atP) (by omega) ?_
  intro z isUse
  have le : rank z ≤ bound :=
    List.single_le_sum (fun n _ => Nat.zero_le n) _ (List.mem_map_of_mem (f.mem_sources atP z isUse))
  omega

/-- A permute of the bytes of one register. -/
def permuteOne (sel dst src : Nat) : OpPrmt where
  dst := .ofSsa ⟨.gpr, dst⟩
  srcs := ![.ofSsa ⟨.gpr, src⟩, { reference := .zero }, { reference := .imm32 sel }]
  mode := .index

/-- The bytes of a register in the opposite order. -/
def byteReversal (pred : Pred) (dst src : Nat) : AluInstr := ⟨pred, .prmt (permuteOne 0x0123 dst src)⟩

theorem byteReversal_inForm (pred : Pred) (dst src : Nat) {op : OpPrmt}
    (isOp : (byteReversal pred dst src).op = .prmt op) : op.InForm := by
  cases isOp
  refine ⟨?_, ?_, ?_, ?_⟩
  · intro i
    match i with
    | 0 => rfl
    | 1 => rfl
    | 2 => rfl
  · intro i
    match i with
    | 0 => rfl
    | 1 => rfl
    | 2 => rfl
  · intro i vec isSsa
    match i with
    | 0 =>
      cases isSsa
      rfl
    | 1 => cases isSsa
    | 2 => cases isSsa
  · intro vec isDst
    cases isDst
    rfl

/-- A register reversed twice. -/
def reversedTwice : AluFunction :=
  .apart [[undefined ⟨.gpr, 1⟩, byteReversal {} 2 1, byteReversal {} 3 2]]

theorem optPrmt_preserves_reversedTwice :
    ∃ fuel f', reversedTwice.optPrmt fuel = .ok f' ∧ f'.Next = reversedTwice.Next ∧
      ∀ {E : Type} (interp : AluInterp E) (state : AluState E) (history : List AluFunction.Place)
        (q : AluFunction.Place), reversedTwice.Path history q →
          reversedTwice.GuardsOn AluOp.isPrmt interp state history →
            f'.run interp history state = reversedTwice.run interp history state := by
  refine optPrmt_preserves (AluFunction.apart_strictSsa (by decide) (by decide)) ?_ ?_
  · intro p instr op atP
    revert op
    refine AluFunction.forall_instrAt (fun instr => ∀ op, instr.op = .prmt op → op.InForm) ?_ atP
    intro bb isBlock instr isInstr op isOp
    cases List.mem_singleton.mp isBlock
    simp only [List.mem_cons, List.not_mem_nil, or_false] at isInstr
    rcases isInstr with rfl | rfl | rfl
    · cases isOp
    · exact byteReversal_inForm _ _ _ isOp
    · exact byteReversal_inForm _ _ _ isOp
  · refine ⟨SSAValue.idx, ?_⟩
    intro p instr atP
    exact AluFunction.forall_instrAt (fun instr => instr.op.isPrmt = true →
      ∀ x ∈ instr.ssaDefs, ∀ z ∈ instr.op.srcs.flatMap Src.iterSsa, z.idx < x.idx) (by decide) atP

/-- A permute of the result of a permute that is guarded. -/
def guardedReversal : AluFunction :=
  .apart [[undefined ⟨.pred, 1⟩, undefined ⟨.gpr, 2⟩,
    byteReversal { predicate := .ssa ⟨.pred, 1⟩ } 3 2, byteReversal {} 4 3]]

/-- A permute that no path reaches, of itself, and a permute of that one. -/
def spinning : AluFunction :=
  .apart [[], [⟨{}, .prmt (permuteOne 0x3210 1 1)⟩, ⟨{}, .prmt (permuteOne 0x3210 2 1)⟩]]

/-- The map after the first permute of `spinning`. -/
def spinningPass : PrmtPass :=
  Function.update (fun _ => none) ⟨.gpr, 1⟩
    (some ⟨⟨0x3210⟩, fun i => ((permuteOne 0x3210 1 1).source i).reference⟩)

theorem tryOptPrmtSrc_spinning : spinningPass.tryOptPrmtSrc 0 (permuteOne 0x3210 2 1) =
    .ok (some (permuteOne 0x3210 2 1)) := by
  refine congrArg (fun srcs => Except.ok (some { permuteOne 0x3210 2 1 with srcs })) ?_
  funext i
  match i with
  | 0 => rfl
  | 1 => rfl
  | 2 => rfl

theorem loop_spinning (fuel : Nat) :
    loopWhileSome (spinningPass.tryOptPrmtSrc 0) fuel (permuteOne 0x3210 2 1) =
      .error (.panic "out of fuel") := by
  induction fuel with
  | zero => rfl
  | succ fuel ih =>
    rw [loopWhileSome, tryOptPrmtSrc_spinning, ok_bind]
    exact ih

theorem optPrmt_spinning (fuel : Nat) : spinning.optPrmt fuel = .error (.panic "out of fuel") := by
  cases fuel with
  | zero => rfl
  | succ fuel =>
    have first : PrmtPass.optInstr (fuel + 1) (fun _ => none) ⟨{}, .prmt (permuteOne 0x3210 1 1)⟩ =
        .ok (⟨{}, .prmt (permuteOne 0x3210 1 1)⟩, spinningPass) := rfl
    have second : PrmtPass.optInstr (fuel + 1) spinningPass ⟨{}, .prmt (permuteOne 0x3210 2 1)⟩ =
        .error (.panic "out of fuel") := by
      simp only [PrmtPass.optInstr, PrmtPass.optPrmt, loop_spinning, error_bind]
    refine AluFunction.mapInstrs_apart_error ?_
    simp only [mapAccumM, first, second, ok_bind, error_bind]

/-- When the guarded permute is switched off, its name keeps what it held; the pass reads through
it. And the pass does not end on code that no path reaches. -/
theorem optPrmt_reads_through_guard :
    (guardedReversal.StrictSsa ∧ ∃ f', guardedReversal.optPrmt 9 = .ok f' ∧
      ∃ history, guardedReversal.Path history (0, 4) ∧ ∃ state : AluState Unit,
        (f'.run quietInterp history state).vals ⟨.gpr, 4⟩ ≠
          (guardedReversal.run quietInterp history state).vals ⟨.gpr, 4⟩) ∧
    (spinning.StrictSsa ∧ ∀ fuel f', spinning.optPrmt fuel ≠ .ok f') := by
  refine ⟨⟨AluFunction.apart_strictSsa (by decide) (by decide), ?_⟩,
    AluFunction.apart_strictSsa (by decide) (by decide), ?_⟩
  · refine ⟨_, rfl, _, AluFunction.apart_path (by decide), ⟨fun _ => 1, ()⟩, ?_⟩
    decide
  · intro fuel f' returned
    rw [optPrmt_spinning] at returned
    cases returned

end CoralReef
