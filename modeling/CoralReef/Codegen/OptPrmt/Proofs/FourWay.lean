import CoralReef.Codegen.OptPrmt.Proofs.Merge

/-!
# The permute as a choice of four bytes

`try_opt_prmt4` builds a permute from the bytes of another. The bytes are the same, and a permute
that no longer looks through anything is rebuilt as it is, so the loop ends.
-/

namespace CoralReef.PrmtPass

variable {pass : PrmtPass} {here : SSAValue → Prop} {rank : SSAValue → Nat}

/-- How far the sources of a permute can be looked through. -/
def opDepth (pass : PrmtPass) (rank : SSAValue → Nat) (op : OpPrmt) : Nat :=
  max (pass.depth rank (op.source 0).reference) (pass.depth rank (op.source 1).reference)

theorem depth_le_opDepth (op : OpPrmt) (i : Fin 2) :
    pass.depth rank (op.source i).reference ≤ pass.opDepth rank op := by
  match i with
  | 0 => exact Nat.le_max_left _ _
  | 1 => exact Nat.le_max_right _ _

/-- An operand that a new permute of `op` may have: no constant, and less deep if not shallow. -/
structure Takes (pass : PrmtPass) (here : SSAValue → Prop) (rank : SSAValue → Nat) (op : OpPrmt)
    (r : SrcRef) : Prop where
  good : r.Good here
  notConst : Src.immediate { reference := r } = none
  shallower : pass.depth rank r = 0 ∨ pass.depth rank r < pass.opDepth rank op

/-- The byte that is added is the one the selector takes. -/
theorem prmtByte_spec (closed : pass.Closed here rank) {op : OpPrmt} (good : op.Good here)
    (selByte : PrmtSelByte) : ∃ byte, pass.prmtByte op selByte = .ok byte ∧
      byte.On (pass.Takes here rank op) ∧
      ∀ {E : Type} (interp : AluInterp E) (vals : SSAValue → BitVec 32),
        pass.Holds here interp vals → byte.value interp vals =
          selByte.foldU32 (interp.word vals (op.source selByte.src).reference) := by
  have source := good.source selByte.src
  unfold prmtByte
  simp only
  rcases getPrmtForSrc_eq pass rank source.1 source.2 with
    ⟨x, entry, isSsa, found, isHere, isEntry⟩ | ⟨shallow, isNone⟩
  · simp only [isEntry, ok_bind]
    have isGood := closed.refs x entry found isHere (entry.sel.get selByte.byte).src
    rw [SrcRef.asU32_of_scalar isGood.toScalar, ok_bind]
    have taken {E : Type} (interp : AluInterp E) (vals : SSAValue → BitVec 32)
        (holds : pass.Holds here interp vals) :
        byteAt (interp.word vals (op.source selByte.src).reference) selByte.byte =
          (entry.sel.get selByte.byte).foldU32
            (interp.word vals (entry.srcs (entry.sel.get selByte.byte).src)) := by
      rw [isSsa]
      show byteAt (vals x) _ = _
      rw [holds x entry found isHere, PrmtEntry.value, PrmtSel.fold, byteAt_wordOfBytes]
    cases isImm : Src.immediate { reference := entry.srcs (entry.sel.get selByte.byte).src } with
    | some u =>
      refine ⟨_, rfl, trivial, ?_⟩
      intro E interp vals holds
      have word : interp.word vals (entry.srcs (entry.sel.get selByte.byte).src) = u :=
        interp.word_immediate vals isImm
      have taken := taken interp vals holds
      rw [word] at taken
      rw [PrmtSelByte.foldU32.eq_1 selByte, taken]
      rfl
    | none =>
      have deep := closed.depth_lt found isHere (entry.sel.get selByte.byte).src
      rw [← isSsa] at deep
      refine ⟨_, rfl, ⟨isGood, isImm, .inr (deep.trans_le (depth_le_opDepth op _))⟩, ?_⟩
      intro E interp vals holds
      exact PrmtSelByte.foldU32_new selByte _ 0 (taken interp vals holds)
  · simp only [isNone, ok_bind]
    rw [Src.asU32_unmodified source.1, ok_bind]
    cases isImm : (op.source selByte.src).immediate with
    | some u =>
      refine ⟨_, rfl, trivial, ?_⟩
      intro E interp vals holds
      rw [interp.word_immediate vals isImm]
      rfl
    | none =>
      refine ⟨_, rfl, ⟨source.2, isImm, .inl shallow⟩, ?_⟩
      intro E interp vals holds
      simp [PrmtByte.value, PrmtSelByte.foldU32]

/-- The bytes that `optBytes` finds give the bytes of the op. -/
theorem optBytes_spec (closed : pass.Closed here rank) {op : OpPrmt} (good : op.Good here)
    (opSel : PrmtSel) : ∀ (places : List (Fin 4)) {n : Nat} {p : PrmtSrcs},
      p.Fits (pass.Takes here rank op) n → n + places.length ≤ 4 →
      ∃ r, pass.optBytes op opSel places p = .ok r ∧ ∀ newSel p', r = some (newSel, p') →
        p'.Fits (pass.Takes here rank op) (n + places.length) ∧ p.Extends p' ∧
        List.Forall₂ (fun i selByte => ∃ byte, pass.prmtByte op (opSel.get i) = .ok byte ∧
          p'.Gives selByte byte) places newSel := by
  intro places
  induction places with
  | nil =>
    intro n p fits _
    refine ⟨_, rfl, ?_⟩
    intro newSel p' same
    cases same
    exact ⟨fits, fun _ _ gives => gives, .nil⟩
  | cons i places ih =>
    intro n p fits few
    rw [List.length_cons] at few
    rcases prmtByte_spec closed good (opSel.get i) with ⟨byte, isByte, isGood, _⟩
    rcases fits.addByte (by omega) isGood (fun r takes => takes.notConst) with ⟨r, returned, added⟩
    unfold optBytes
    rw [isByte, ok_bind, returned, ok_bind]
    rcases r with _ | ⟨selByte, q⟩
    · exact ⟨none, rfl, fun _ _ never => by cases never⟩
    · rcases added selByte q rfl with ⟨fits', extends', gives⟩
      rcases ih fits' (by omega) with ⟨r', returned', later⟩
      simp only [returned', ok_bind]
      rcases r' with _ | ⟨newSel, q'⟩
      · exact ⟨none, rfl, fun _ _ never => by cases never⟩
      · rcases later newSel q' rfl with ⟨fits'', extends'', each⟩
        refine ⟨_, rfl, ?_⟩
        intro newSel' p' same
        cases same
        refine ⟨?_, fun s b given => extends'' s b (extends' s b given), .cons ?_ each⟩
        · rw [List.length_cons, ← Nat.add_assoc, Nat.add_right_comm]
          exact fits''
        · exact ⟨byte, isByte, extends'' selByte byte gives⟩

/-- The loop depends on nothing but the bytes of the op. -/
theorem optBytes_congr {op op' : OpPrmt} {opSel opSel' : PrmtSel} :
    ∀ {places : List (Fin 4)} {p : PrmtSrcs},
      (∀ i ∈ places, pass.prmtByte op' (opSel'.get i) = pass.prmtByte op (opSel.get i)) →
      pass.optBytes op' opSel' places p = pass.optBytes op opSel places p := by
  intro places
  induction places with
  | nil => exact fun _ => rfl
  | cons i places ih =>
    intro p same
    unfold optBytes
    rw [same i List.mem_cons_self]
    refine congrArg _ (funext fun byte => congrArg _ (funext fun r => ?_))
    rcases r with _ | ⟨selByte, q⟩
    · rfl
    · simp only [ih fun j member => same j (List.mem_cons_of_mem i member)]

/-- The op with the bytes and sources that were found. -/
def rebuilt (op : OpPrmt) (newSel : PrmtSel) (p : PrmtSrcs) : OpPrmt :=
  ((op.withSel newSel).withSource 0 (p.srcs 0)).withSource 1 (p.srcs 1)

theorem source_rebuilt (op : OpPrmt) (newSel : PrmtSel) (p : PrmtSrcs) (i : Fin 2) :
    (rebuilt op newSel p).source i = { reference := p.srcs i } := by
  match i with
  | 0 => rfl
  | 1 => rfl

theorem getSel_rebuilt {op : OpPrmt} (isIndex : op.mode = .index) (newSel : PrmtSel)
    (p : PrmtSrcs) : (rebuilt op newSel p).getSel = .ok (some newSel) := by
  rw [rebuilt, OpPrmt.getSel_withSource, OpPrmt.getSel_withSource, OpPrmt.getSel_withSel isIndex]

section

variable {op : OpPrmt} {p : PrmtSrcs} {n : Nat}

/-- The sources found are operands the pass may put into the op. -/
theorem fits_source (fits : p.Fits (pass.Takes here rank op) n) (i : Fin 2) :
    (p.srcs i).Good here ∧
      (pass.depth rank (p.srcs i) = 0 ∨ pass.depth rank (p.srcs i) < pass.opDepth rank op) := by
  by_cases used : i.val < p.numSrcs
  · by_cases isImm : p.immSrc = some i
    · rcases fits.isImm i isImm with ⟨same, _⟩ | ⟨u, same⟩
      · rw [same]
        exact ⟨.zero here, .inl rfl⟩
      · rw [same]
        exact ⟨⟨⟨rfl, rfl, by simp⟩, by simp [SrcRef.iterSsa]⟩, .inl rfl⟩
    · have takes := fits.isSrc i used isImm
      exact ⟨takes.good, takes.shallower⟩
  · rw [fits.empty i (Nat.le_of_not_lt used)]
    exact ⟨.zero here, .inl rfl⟩

/-- The operand of a constant is read as that constant. -/
theorem word_constant (fits : p.Fits (pass.Takes here rank op) n) {i : Fin 2}
    (isImm : p.immSrc = some i) : Src.immediate { reference := p.srcs i } =
      some (p.srcs i).constant := by
  rcases fits.isImm i isImm with ⟨same, _⟩ | ⟨u, same⟩ <;> rw [same] <;> rfl

/-- A byte that the sources give has its value in the new op. -/
theorem value_gives (fits : p.Fits (pass.Takes here rank op) n) {selByte : PrmtSelByte}
    {byte : PrmtByte} (gives : p.Gives selByte byte) {E : Type} (interp : AluInterp E)
    (vals : SSAValue → BitVec 32) :
    selByte.foldU32 (interp.word vals (p.srcs selByte.src)) = byte.value interp vals := by
  cases byte with
  | imm u =>
    rcases gives with ⟨isImm, msb, _, same⟩
    have word : interp.word vals (p.srcs selByte.src) = (p.srcs selByte.src).constant :=
      interp.word_immediate vals (word_constant fits isImm)
    rw [word, PrmtSelByte.foldU32, if_neg (by simp [msb]), same]
    rfl
  | src r byte msb =>
    rcases gives with ⟨_, _, isSrc, isByte, isMsb⟩
    rw [isSrc]
    simp [PrmtByte.value, PrmtSelByte.foldU32, isByte, isMsb]

/-- Looking at the new op again finds the bytes it was made of, if it looks through nothing. -/
theorem prmtByte_rebuilt (shallow : pass.opDepth rank op = 0)
    (fits : p.Fits (pass.Takes here rank op) n) {newSel : PrmtSel} {selByte : PrmtSelByte}
    {byte : PrmtByte} (gives : p.Gives selByte byte) :
    pass.prmtByte (rebuilt op newSel p) selByte = .ok byte := by
  rcases fits_source fits selByte.src with ⟨isGood, depth⟩
  have isShallow : pass.depth rank (p.srcs selByte.src) = 0 := by
    rw [shallow] at depth
    exact depth.resolve_right (Nat.not_lt_zero _)
  unfold prmtByte
  simp only [source_rebuilt]
  have plain : Src.isUnmodified { reference := p.srcs selByte.src } := rfl
  rcases getPrmtForSrc_eq pass rank plain isGood with
    ⟨x, entry, isSsa, found, _, _⟩ | ⟨_, isNone⟩
  · have isSsa : p.srcs selByte.src = .ssa [x] := isSsa
    simp [isSsa, PrmtPass.depth, found] at isShallow
  · simp only [isNone, ok_bind]
    rw [Src.asU32_unmodified plain, ok_bind]
    cases byte with
    | imm u =>
      rcases gives with ⟨isImm, msb, _, same⟩
      rw [word_constant fits isImm]
      refine congrArg (fun u => Except.ok (PrmtByte.imm u)) ?_
      rw [PrmtSelByte.foldU32, if_neg (by simp [msb]), same]
    | src r byte msb =>
      rcases gives with ⟨used, notImm, isSrc, isByte, isMsb⟩
      rw [(fits.isSrc _ used notImm).notConst, ← isSrc, ← isByte, ← isMsb]
      rfl

/-- The permute is rebuilt from its bytes. -/
theorem rebuilt_remade (closed : pass.Closed here rank) (good : op.Good here) {opSel : PrmtSel}
    (isSel : op.getSel = .ok (some opSel)) (fits : p.Fits (pass.Takes here rank op) n)
    {newSel : List PrmtSelByte} (each : List.Forall₂ (fun i selByte => ∃ byte,
      pass.prmtByte op (opSel.get i) = .ok byte ∧ p.Gives selByte byte) (List.finRange 4) newSel) :
    pass.Remade here op (rebuilt op (.new newSel) p) where
  good := ((good.withSel _).withSource 0 (fits_source fits 0).1).withSource 1 (fits_source fits 1).1
  dst := rfl
  value := by
    intro E interp vals holds
    have isIndex := (OpPrmt.value_of_getSel interp vals (good.plain 2) isSel).1
    refine OpPrmt.value_eq_of_bytes interp vals (good.plain 2) rfl isSel
      (getSel_rebuilt isIndex _ p) ?_
    intro i
    rcases PrmtSel.rel_get_new each i with ⟨byte, isByte, gives⟩
    rcases prmtByte_spec closed good (opSel.get i) with ⟨byte', isByte', _, same⟩
    rw [isByte] at isByte'
    cases isByte'
    rw [source_rebuilt, ← same interp vals holds]
    exact value_gives fits gives interp vals

theorem opDepth_rebuilt (fits : p.Fits (pass.Takes here rank op) n) (newSel : PrmtSel) :
    pass.opDepth rank (rebuilt op newSel p) = 0 ∨
      pass.opDepth rank (rebuilt op newSel p) < pass.opDepth rank op := by
  have first := (fits_source fits 0).2
  have second := (fits_source fits 1).2
  show max (pass.depth rank (p.srcs 0)) (pass.depth rank (p.srcs 1)) = 0 ∨
    max (pass.depth rank (p.srcs 0)) (pass.depth rank (p.srcs 1)) < _
  omega

/-- A permute that looks through nothing is rebuilt as it is. -/
theorem tryOptPrmt4_rebuilt (good : op.Good here)
    (shallow : pass.opDepth rank op = 0) {opSel : PrmtSel} (isSel : op.getSel = .ok (some opSel))
    (fits : p.Fits (pass.Takes here rank op) n) {newSel : List PrmtSelByte}
    (found : pass.optBytes op opSel (List.finRange 4) {} = .ok (some (newSel, p)))
    (each : List.Forall₂ (fun i selByte => ∃ byte,
      pass.prmtByte op (opSel.get i) = .ok byte ∧ p.Gives selByte byte) (List.finRange 4) newSel) :
    pass.tryOptPrmt4 (rebuilt op (.new newSel) p) = .ok none := by
  have isIndex : op.mode = .index := by
    rw [OpPrmt.getSel_eq (good.plain 2)] at isSel
    by_contra other
    rw [if_neg other] at isSel
    cases isSel
  have same : pass.optBytes (rebuilt op (.new newSel) p) (.new newSel) (List.finRange 4) {} =
      .ok (some (newSel, p)) := by
    rw [← found]
    refine optBytes_congr ?_
    intro i _
    rcases PrmtSel.rel_get_new each i with ⟨byte, isByte, gives⟩
    rw [isByte]
    exact prmtByte_rebuilt shallow fits gives
  unfold tryOptPrmt4
  simp only [getSel_rebuilt isIndex, ok_bind, same, source_rebuilt, and_self, if_true]
  rfl

end

/-- The permute is rebuilt from its bytes: it has the same value, and its sources lie less deep
unless nothing is looked through any more. -/
theorem tryOptPrmt4_spec (closed : pass.Closed here rank) {op : OpPrmt} (good : op.Good here) :
    ∃ r, pass.tryOptPrmt4 op = .ok r ∧ ∀ op', r = some op' → pass.Remade here op op' ∧
      (pass.opDepth rank op' = 0 ∨ pass.opDepth rank op' < pass.opDepth rank op) ∧
      (pass.opDepth rank op = 0 → pass.tryOptPrmt4 op' = .ok none) := by
  have plain : op.sel.isUnmodified := good.plain 2
  cases isSel : op.getSel with
  | error fault =>
    rw [OpPrmt.getSel_eq plain] at isSel
    cases isSel
  | ok opSel? =>
    cases opSel? with
    | none =>
      refine ⟨none, ?_, fun op' never => by cases never⟩
      rw [tryOptPrmt4, isSel]
      rfl
    | some opSel =>
      rcases optBytes_spec closed good opSel (List.finRange 4) .start (by simp) with
        ⟨r, returned, found⟩
      rcases r with _ | ⟨newSel, p⟩
      · refine ⟨none, ?_, fun op' never => by cases never⟩
        rw [tryOptPrmt4, isSel, ok_bind]
        simp only [returned, ok_bind]
        rfl
      · rcases found newSel p rfl with ⟨fits, _, each⟩
        by_cases same : PrmtSel.new newSel = opSel ∧ p.srcs 0 = (op.source 0).reference ∧
            p.srcs 1 = (op.source 1).reference
        · refine ⟨none, ?_, fun op' never => by cases never⟩
          rw [tryOptPrmt4, isSel, ok_bind]
          simp only [returned, ok_bind, if_pos same]
          rfl
        · refine ⟨some (rebuilt op (.new newSel) p), ?_, ?_⟩
          · rw [tryOptPrmt4, isSel, ok_bind]
            simp only [returned, ok_bind, if_neg same]
            rfl
          · intro op' isOp
            cases isOp
            exact ⟨rebuilt_remade closed good isSel fits each, opDepth_rebuilt fits _,
              fun shallow => tryOptPrmt4_rebuilt good shallow isSel fits returned each⟩

end CoralReef.PrmtPass
