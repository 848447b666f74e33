import CoralReef.Codegen.NagaTranslate.Math
import CoralReef.Codegen.NagaTranslate.Proofs.Unary

/-!
# The values of builtin functions

What the code of the builtin functions computes when the ops on floats have no value.
-/

open List

namespace CoralReef.NagaTranslate

/-! ## One op for each component -/

section each

variable {unit : FloatUnit} {s : FuncTranslator} {a : SSARef}

theorem translateEach_emits (live : s.deadCode = false) (nonempty : a ≠ []) (small : a.length ≤ 4)
    (allocated : ∀ x ∈ a, x.idx ≤ s.count) {op : Dst → Src → ValueOp}
    {g : Option Value → Option Value} (isDst : ∀ dst src, (op dst src).dst = dst)
    (isValue : ∀ sm env dst x, (op (.ofSsa dst) (src x)).value unit sm env dst 0 = g (env x)) :
    EmitsValues unit (translateEach a op) s fun start => (a.map (s.env unit start)).map g := by
  have positive := length_pos_iff.mpr nonempty
  refine (fillVec_emits (g := fun c start => (a[c]?).bind fun x => g (s.env unit start x))
    positive (by omega) ?_).mono (Subset.refl _) ?_
  · intro c s₁ less e₁ counted
    refine .component_bind (freshComp_get less) ?_
    refine .component_bind (getElem?_eq_getElem less) ?_
    refine (pushInstr_emits (e₁.live live) (isDst _ _)).mono (Subset.refl _) ?_
    rintro _ s₂ - ⟨-, effect⟩ start
    rw [effect, Function.update_self, isValue, getElem?_eq_getElem less,
      e₁.keeps (allocated _ (getElem_mem less)) start]
    rfl
  · rintro dst s' - ⟨old, values⟩
    refine ⟨old, fun start => ?_⟩
    rw [values]
    apply ext_getElem
    · simp
    · intro c inside inside'
      have less : c < a.length := by simpa using inside
      simp [getElem?_eq_getElem less]

theorem countOneBits_emits (live : s.deadCode = false) (ready : Ready s a) :
    EmitsValues unit (translateCountOneBits a) s fun start =>
      (a.map (s.env unit start)).map (onWord BitVec.cpop) := by
  refine translateEach_emits live ready.nonempty ready.small ready.allocated (fun _ _ => rfl) ?_
  intro sm env dst x
  show OpPopC.fold _ env = _
  simp [OpPopC.fold, onWord]

theorem reverseBits_emits (live : s.deadCode = false) (ready : Ready s a) :
    EmitsValues unit (translateReverseBits a) s fun start =>
      (a.map (s.env unit start)).map (onWord BitVec.reverse) := by
  refine translateEach_emits live ready.nonempty ready.small ready.allocated (fun _ _ => rfl) ?_
  intro sm env dst x
  show OpBRev.fold _ env = _
  simp [OpBRev.fold, onWord]

/-- What `Flo` computes. -/
def floValue (signed returnShiftAmount : Bool) (x : BitVec 32) : BitVec 32 :=
  let leading := if signed ∧ x.msb then (~~~x).clz else x.clz
  if returnShiftAmount then leading else 31 - leading

theorem flo_emits (live : s.deadCode = false) (nonempty : a ≠ []) (small : a.length ≤ 4)
    (allocated : ∀ x ∈ a, x.idx ≤ s.count) (signed returnShiftAmount : Bool) :
    EmitsValues unit (translateEach a fun dst src => .flo { dst, src, signed, returnShiftAmount }) s
      fun start => (a.map (s.env unit start)).map (onWord (floValue signed returnShiftAmount)) := by
  refine translateEach_emits live nonempty small allocated (fun _ _ => rfl) ?_
  intro sm env dst x
  show OpFlo.fold _ env = _
  cases isWord : Value.word? (env x) <;> simp [OpFlo.fold, onWord, floValue, isWord]

theorem firstTrailingBit_emits (live : s.deadCode = false) (ready : Ready s a) :
    EmitsValues unit (translateFirstTrailingBit a) s fun start =>
      (a.map (s.env unit start)).map (onWord fun x => x.reverse.clz) := by
  refine (reverseBits_emits live ready).bind ?_
  rintro rev s₁ e₁ ⟨old, values⟩
  have lengths : rev.length = a.length := by
    simpa using congrArg length (values fun _ => none)
  have nonempty : rev ≠ [] := by
    rw [← length_pos_iff, lengths]
    exact length_pos_iff.mpr ready.nonempty
  refine (flo_emits (e₁.live live) nonempty (lengths ▸ ready.small) old false true).mono
    (Subset.refl _) ?_
  rintro dst s₂ - ⟨old₂, values₂⟩
  refine ⟨old₂, fun start => ?_⟩
  rw [values₂]
  beta_reduce
  rw [values, map_map]
  refine map_congr_left fun v _ => ?_
  rcases v with _ | value
  · rfl
  · cases value <;> simp [onWord, floValue]

end each

/-! ## Pairs of components -/

section pairs

/-- The pair that a double stands for where the translator takes an operand for doubles. -/
def ensured (l : List (Option Value)) : List (Option Value) :=
  if 2 ≤ l.length then l else [toGpr (l[0]?).join, some (.word 0)]

theorem length_ensured (l : List (Option Value)) : (ensured l).length = max l.length 2 := by
  unfold ensured
  split <;> simp <;> omega

variable {unit : FloatUnit} {s : FuncTranslator} {a b : SSARef}

theorem ensureF64SsaRef_emits (live : s.deadCode = false) (ready : Ready s a) :
    EmitsValues unit (ensureF64SsaRef a) s fun start => ensured (a.map (s.env unit start)) := by
  unfold ensureF64SsaRef ensured
  simp only [length_map]
  by_cases two : 2 ≤ a.length
  · simp only [if_pos two]
    exact .pure ⟨ready.allocated, fun _ => rfl⟩
  · simp only [if_neg two]
    have positive := length_pos_iff.mpr ready.nonempty
    rcases length_eq_one_iff.mp (show a.length = 1 by omega) with ⟨x, rfl⟩
    have oldX : x.idx ≤ s.count := ready.allocated x (by simp)
    refine allocPair_bind ?_
    intro lo hi s₁ e₁ isGpr isGpr' _ less counted same
    have live := e₁.live live
    refine .component_bind (x := lo) rfl (.component_bind (x := x) rfl ?_)
    refine ((pushInstr_emits live rfl).mono (by simp) fun _ _ _ h => h).bind ?_
    rintro _ s₂ e₂ ⟨counted₂, effect₂⟩
    refine .component_bind (x := hi) rfl ?_
    refine ((pushInstr_emits (e₂.live live) rfl).mono (by simp) fun _ _ _ h => h).bind ?_
    rintro _ s₃ e₃ ⟨counted₃, effect₃⟩
    refine .pure ⟨?_, fun start => ?_⟩
    · intro y member
      have member : y = lo ∨ y = hi := by simpa using member
      rcases member with rfl | rfl <;> omega
    · have other : lo ≠ hi := fun equal => absurd (equal ▸ less) (Nat.lt_irrefl _)
      have zero (env : Env) : (copyOp hi srcZero).value unit s₂.sm env hi 0 = some (.word 0) := by
        show OpCopy.fold _ hi.file env = _
        rw [isGpr']
        rfl
      simp [effect₃, effect₂, zero, copyOp_value _ _ _ _ isGpr, other, same]

/-- The double in a pair of components. -/
def doubleAt (l : List (Option Value)) (e : Nat) : Option F64 := do
  let lo ← Value.word? (l[e * 2]?).join
  let hi ← Value.word? (l[e * 2 + 1]?).join
  return hi ++ lo

/-- A selection is between general registers. -/
def selected : Option Value → Option Value
  | some (.pred _) => none
  | value => value

/-- Whether the comparison of doubles takes the pair of the first operand. -/
def takes (cmpOp : FloatCmpOp) (l r : List (Option Value)) (e : Nat) : Option Bool := do
  return cmpOp.eval (← doubleAt l e) (← doubleAt r e)

/-- A component of the pair that is taken. -/
def takenAt (cmpOp : FloatCmpOp) (l r : List (Option Value)) (c : Nat) : Option Value :=
  (takes cmpOp l r (c / 2)).bind fun taken => selected ((if taken then l else r)[c]?).join

/-- What `emit_f64_min_max` computes. -/
def minMaxValues (cmpOp : FloatCmpOp) (l r : List (Option Value)) : List (Option Value) :=
  let l := ensured l
  let r := ensured r
  (List.range (min l.length r.length / 2 * 2)).map (takenAt cmpOp l r)

theorem sel_value {sm : Nat} {env : Env} {pred x y dst : SSAValue} {cond : Option Bool}
    (isCond : env pred = cond.map Value.pred) :
    (ValueOp.sel { dst := .ofSsa dst, srcs := ![src pred, src x, src y] }).value unit sm env dst 0 =
      cond.bind fun cond => selected (env (if cond then x else y)) := by
  show OpSel.fold _ env = _
  unfold OpSel.fold
  show (env.getPredSrc (src pred)) >>= _ = _
  rw [Env.getPredSrc_ofSsa, isCond]
  rcases cond with _ | cond
  · rfl
  · cases cond <;> rfl

theorem dSetP_value {sm : Nat} {env : Env} {dst lo hi lo' hi' : SSAValue} {cmpOp : FloatCmpOp}
    {l r : List (Option Value)} {e : Nat} (isLo : l[e * 2]? = some (env lo))
    (isHi : l[e * 2 + 1]? = some (env hi)) (isLo' : r[e * 2]? = some (env lo'))
    (isHi' : r[e * 2 + 1]? = some (env hi')) :
    (ValueOp.dSetP { dst := .ofSsa dst, setOp := .and, cmpOp
                     srcs := ![srcVec [lo, hi], srcVec [lo', hi'], srcTrue] }).value unit sm env
        dst 0 = (takes cmpOp l r e).map Value.pred := by
  show OpDSetP.fold _ _ = _
  simp [OpDSetP.fold, getF64Src_srcVec, takes, doubleAt, PredSetOp.eval, Option.map_bind, isLo,
    isHi, isLo', isHi']

theorem emitF64MinMax_emits (live : s.deadCode = false) (ready : Ready s a) (ready' : Ready s b)
    (cmpOp : FloatCmpOp) :
    EmitsValues unit (emitF64MinMax a b cmpOp) s fun start =>
      minMaxValues cmpOp (a.map (s.env unit start)) (b.map (s.env unit start)) := by
  refine (ensureF64SsaRef_emits live ready).bind ?_
  rintro a' s₁ e₁ ⟨oldA, valuesA⟩
  have live := e₁.live live
  have ready₁ : Ready s₁ b :=
    ⟨ready'.nonempty, ready'.small, fun x member => (ready'.allocated x member).trans e₁.count⟩
  refine (ensureF64SsaRef_emits live ready₁).bind ?_
  rintro b' s₂ e₂ ⟨oldB, valuesB⟩
  have live := e₂.live live
  have small := ready.small
  have small' := ready'.small
  have lengthA : a'.length = max a.length 2 := by
    simpa [length_ensured] using congrArg length (valuesA fun _ => none)
  have lengthB : b'.length = max b.length 2 := by
    simpa [length_ensured] using congrArg length (valuesB fun _ => none)
  have isA (start : Env) : a'.map (s₂.env unit start) = ensured (a.map (s.env unit start)) := by
    rw [e₂.map_env oldA, valuesA]
  have isB (start : Env) : b'.map (s₂.env unit start) = ensured (b.map (s.env unit start)) := by
    rw [valuesB]
    beta_reduce
    rw [e₁.map_env ready'.allocated]
  have oldA (x : SSAValue) (member : x ∈ a') : x.idx ≤ s₂.count := (oldA x member).trans e₂.count
  refine (fillPairs_emits (min a'.length b'.length / 2) (by omega) rfl (by omega)
    (g := fun c start =>
      takenAt cmpOp (a'.map (s₂.env unit start)) (b'.map (s₂.env unit start)) c) ?_).mono
    (Subset.refl _) ?_
  · intro e s₃ less e₃ counted
    have live := e₃.live live
    have inside : e * 2 < a'.length ∧ e * 2 + 1 < a'.length ∧ e * 2 < b'.length ∧
      e * 2 + 1 < b'.length := by omega
    refine .component_bind (getElem?_eq_getElem inside.1) ?_
    refine .component_bind (getElem?_eq_getElem inside.2.1) ?_
    refine .component_bind (getElem?_eq_getElem inside.2.2.1) ?_
    refine .component_bind (getElem?_eq_getElem inside.2.2.2) ?_
    refine ((emitOp_emits live fun _ => rfl).mono (nil_subset _) fun _ _ _ h => h).bind ?_
    rintro pred s₄ e₄ ⟨oldPred, isFile, isPred⟩
    have live := e₄.live live
    refine .component_bind (freshComp_get (by omega)) ?_
    refine ((pushInstr_emits live rfl).mono (by simp) fun _ _ _ h => h).bind ?_
    rintro _ s₅ e₅ ⟨-, effect₅⟩
    refine .component_bind (freshComp_get (by omega)) ?_
    refine (pushInstr_emits (e₅.live live) rfl).mono (by simp) ?_
    rintro _ s₆ - ⟨-, effect₆⟩ start
    have kept {x : SSAValue} (member : x ∈ a' ∨ x ∈ b') :
        s₃.env unit start x = s₂.env unit start x ∧ s₄.env unit start x = s₂.env unit start x ∧
          s₅.env unit start x = s₂.env unit start x := by
      have old := member.elim (oldA x) (oldB x)
      have absent : x ∉ [freshComp .gpr s₂.count (e * 2), freshComp .gpr s₂.count (e * 2 + 1)] := by
        intro written
        have : x.idx = s₂.count + 1 + e * 2 ∨ x.idx = s₂.count + 1 + (e * 2 + 1) := by
          rcases mem_pair.mp written with rfl | rfl
          · exact .inl rfl
          · exact .inr rfl
        omega
      have kept₃ := e₃.keeps old start
      have kept₄ := e₄.frame start x (old.trans e₃.count) absent
      have kept₅ := e₅.frame start x ((old.trans e₃.count).trans e₄.count) absent
      exact ⟨kept₃, kept₄.trans kept₃, kept₅.trans (kept₄.trans kept₃)⟩
    have atA (c : Nat) (inside : c < a'.length) :
        (a'.map (s₂.env unit start))[c]? = some (s₃.env unit start a'[c]) := by
      simp [inside, (kept (.inl (getElem_mem inside))).1]
    have atB (c : Nat) (inside : c < b'.length) :
        (b'.map (s₂.env unit start))[c]? = some (s₃.env unit start b'[c]) := by
      simp [inside, (kept (.inr (getElem_mem inside))).1]
    have cond := (isPred start).trans
      (dSetP_value (atA _ inside.1) (atA _ inside.2.1) (atB _ inside.2.2.1) (atB _ inside.2.2.2))
    have cond₅ : s₅.env unit start pred = s₄.env unit start pred := by
      refine e₅.frame start pred oldPred fun written => ?_
      rcases mem_pair.mp written with rfl | rfl <;> cases isFile
    have taken (c : Nat) (isPart : c / 2 = e) (insideA : c < a'.length) (insideB : c < b'.length)
        {env : Env} (isA : env a'[c] = s₂.env unit start a'[c])
        (isB : env b'[c] = s₂.env unit start b'[c]) :
        (takes cmpOp (a'.map (s₂.env unit start)) (b'.map (s₂.env unit start)) e).bind
            (fun cond => selected (env (if cond then a'[c] else b'[c]))) =
          takenAt cmpOp (a'.map (s₂.env unit start)) (b'.map (s₂.env unit start)) c := by
      rw [takenAt, isPart]
      refine congrArg (Option.bind _) (funext fun cond => ?_)
      cases cond <;> simp [insideA, insideB, isA, isB]
    have memA (c : Nat) (inside : c < a'.length) := kept (.inl (getElem_mem inside))
    have memB (c : Nat) (inside : c < b'.length) := kept (.inr (getElem_mem inside))
    have other : freshComp .gpr s₂.count (e * 2) ≠ freshComp .gpr s₂.count (e * 2 + 1) := by
      simp [freshComp]
    constructor
    · rw [effect₆, Function.update_of_ne other, effect₅, Function.update_self, sel_value cond]
      exact taken _ (by omega) inside.1 inside.2.2.1 (memA _ inside.1).2.1 (memB _ inside.2.2.1).2.1
    · rw [effect₆, Function.update_self, sel_value (cond₅.trans cond)]
      exact taken _ (by omega) inside.2.1 inside.2.2.2 (memA _ inside.2.1).2.2
        (memB _ inside.2.2.2).2.2
  · rintro dst s' - ⟨old, values⟩
    refine ⟨old, fun start => ?_⟩
    rw [values, isA, isB]
    simp only [minMaxValues, length_ensured, length_map, lengthA, lengthB]

/-- What the code for the magnitude of doubles computes. -/
def absValues (l : List (Option Value)) : List (Option Value) :=
  let l := ensured l
  (List.range (l.length / 2 * 2)).map fun c =>
    if c % 2 = 0 then toGpr (l[c]?).join else onWord (· &&& 0x7FFFFFFF) (l[c]?).join

theorem absF64_emits (live : s.deadCode = false) (ready : Ready s a) {arg : Expression}
    (isF64 : s.ctx.isF64Expr arg = true) :
    EmitsValues unit (translateAbs a arg) s fun start => absValues (a.map (s.env unit start)) := by
  refine .get_bind ?_
  rw [isF64]
  refine (ensureF64SsaRef_emits live ready).bind ?_
  rintro a' s₁ e₁ ⟨oldA, valuesA⟩
  have live := e₁.live live
  have small := ready.small
  have lengthA : a'.length = max a.length 2 := by
    simpa [length_ensured] using congrArg length (valuesA fun _ => none)
  refine (fillPairs_emits (a'.length / 2) (by omega) rfl (by omega) (g := fun c start =>
    if c % 2 = 0 then toGpr ((a'.map (s₁.env unit start))[c]?).join
      else onWord (· &&& 0x7FFFFFFF) ((a'.map (s₁.env unit start))[c]?).join) ?_).mono
    (Subset.refl _) ?_
  · intro e s₂ less e₂ counted
    have live := e₂.live live
    have inside : e * 2 < a'.length ∧ e * 2 + 1 < a'.length := by omega
    refine .component_bind (freshComp_get (by omega)) ?_
    refine .component_bind (getElem?_eq_getElem inside.1) ?_
    refine ((pushInstr_emits live rfl).mono (by simp) fun _ _ _ h => h).bind ?_
    rintro _ s₃ e₃ ⟨-, effect₃⟩
    refine .component_bind (freshComp_get (by omega)) ?_
    refine .component_bind (getElem?_eq_getElem inside.2) ?_
    refine (logicAnd_emits (e₃.live live)).mono (by simp) ?_
    intro _ s₄ _ effect₄ start
    have other : freshComp .gpr s₁.count (e * 2) ≠ freshComp .gpr s₁.count (e * 2 + 1) := by
      simp [freshComp]
    have kept (c : Nat) (inside : c < a'.length) :
        s₂.env unit start a'[c] = s₁.env unit start a'[c] :=
      e₂.keeps (oldA _ (getElem_mem inside)) start
    have notWritten : a'[e * 2 + 1] ≠ freshComp .gpr s₁.count (e * 2) := by
      intro equal
      have old := oldA _ (getElem_mem inside.2)
      rw [equal] at old
      simp only [freshComp] at old
      omega
    constructor
    · rw [effect₄, Function.update_of_ne other, effect₃, Function.update_self,
        copyOp_value _ _ _ _ rfl, kept _ inside.1, if_pos (by omega)]
      simp [inside.1]
    · rw [effect₄, Function.update_self, if_neg (by omega), Env.getU32BnotSrc_ofSsa, effect₃,
        Function.update_of_ne notWritten, kept _ inside.2]
      have mask (env : Env) : env.getU32BnotSrc (newImmU32 0x7FFFFFFF) = some 0x7FFFFFFF := rfl
      simp [mask, inside.2, onWord, Option.map_eq_bind]
  · rintro dst s' - ⟨old, values⟩
    refine ⟨old, fun start => ?_⟩
    rw [values]
    simp only [absValues, length_ensured, length_map, lengthA, valuesA]

theorem length_minMaxValues (cmpOp : FloatCmpOp) (l r : List (Option Value)) :
    (minMaxValues cmpOp l r).length = min (max l.length 2) (max r.length 2) / 2 * 2 := by
  simp [minMaxValues, length_ensured]

theorem clampF64_emits (live : s.deadCode = false) {c : SSARef} (ready : Ready s a)
    (ready' : Ready s b) (ready'' : Ready s c) :
    EmitsValues unit (do
        let tmp ← emitF64MinMax a c .ordLt
        emitF64MinMax tmp b .ordGt) s fun start =>
      minMaxValues .ordGt
        (minMaxValues .ordLt (a.map (s.env unit start)) (c.map (s.env unit start)))
        (b.map (s.env unit start)) := by
  refine (emitF64MinMax_emits live ready ready'' .ordLt).bind ?_
  rintro tmp s₁ e₁ ⟨old, values⟩
  have small := ready.small
  have lengths : tmp.length = min (max a.length 2) (max c.length 2) / 2 * 2 := by
    simpa [length_minMaxValues] using congrArg length (values fun _ => none)
  have readyTmp : Ready s₁ tmp := by
    refine ⟨length_pos_iff.mp ?_, ?_, old⟩ <;> omega
  have readyB : Ready s₁ b :=
    ⟨ready'.nonempty, ready'.small, fun x member => (ready'.allocated x member).trans e₁.count⟩
  refine (emitF64MinMax_emits (e₁.live live) readyTmp readyB .ordGt).mono (Subset.refl _) ?_
  rintro dst s₂ - ⟨old₂, values₂⟩
  refine ⟨old₂, fun start => ?_⟩
  rw [values₂]
  beta_reduce
  rw [values, e₁.map_env ready'.allocated]

end pairs

/-! ## Functions that are computed as floats -/

section floats

variable {s : FuncTranslator} {a b c : SSARef}

/-- A result of one register. -/
theorem single_emits {p : EmitM SSAValue} (emits : Emits noFold p s [] fun dst s' =>
      dst.idx ≤ s'.count ∧ ∀ start, s'.env noFold start dst = none) :
    EmitsValues noFold (do return [← p]) s fun _ => [none] := by
  refine emits.bind ?_
  rintro dst s' - ⟨old, isNone⟩
  exact .pure ⟨by simpa using old, fun start => by simp [isNone]⟩

theorem translateAbs_emits (live : s.deadCode = false) (ready : Ready s a) (arg : Expression) :
    EmitsValues noFold (translateAbs a arg) s fun start =>
      if s.ctx.isF64Expr arg then absValues (a.map (s.env noFold start)) else [none] := by
  cases isF64 : s.ctx.isF64Expr arg with
  | true => exact absF64_emits live ready isF64
  | false =>
    refine .get_bind ?_
    rw [isF64]
    refine .component_bind (getElem?_eq_getElem (length_pos_iff.mpr ready.nonempty)) ?_
    exact single_emits (emitFloat_emits live)

theorem translateMin_emits (live : s.deadCode = false) (ready : Ready s a) (ready' : Ready s b)
    (arg : Expression) :
    EmitsValues noFold (translateMin a b arg) s fun start =>
      if s.ctx.isF64Expr arg then
        minMaxValues .ordLt (a.map (s.env noFold start)) (b.map (s.env noFold start))
      else [none] := by
  refine .get_bind ?_
  cases s.ctx.isF64Expr arg with
  | true => exact emitF64MinMax_emits live ready ready' .ordLt
  | false =>
    refine .component_bind (getElem?_eq_getElem (length_pos_iff.mpr ready.nonempty)) ?_
    refine .component_bind (getElem?_eq_getElem (length_pos_iff.mpr ready'.nonempty)) ?_
    exact single_emits (emitFloat_emits live)

theorem translateMax_emits (live : s.deadCode = false) (ready : Ready s a) (ready' : Ready s b)
    (arg : Expression) :
    EmitsValues noFold (translateMax a b arg) s fun start =>
      if s.ctx.isF64Expr arg then
        minMaxValues .ordGt (a.map (s.env noFold start)) (b.map (s.env noFold start))
      else [none] := by
  refine .get_bind ?_
  cases s.ctx.isF64Expr arg with
  | true => exact emitF64MinMax_emits live ready ready' .ordGt
  | false =>
    refine .component_bind (getElem?_eq_getElem (length_pos_iff.mpr ready.nonempty)) ?_
    refine .component_bind (getElem?_eq_getElem (length_pos_iff.mpr ready'.nonempty)) ?_
    exact single_emits (emitFloat_emits live)

theorem translateClamp_emits (live : s.deadCode = false) (ready : Ready s a) (ready' : Ready s b)
    (ready'' : Ready s c) (arg : Expression) :
    EmitsValues noFold (translateClamp a b c arg) s fun start =>
      if s.ctx.isF64Expr arg then
        minMaxValues .ordGt
          (minMaxValues .ordLt (a.map (s.env noFold start)) (c.map (s.env noFold start)))
          (b.map (s.env noFold start))
      else [none] := by
  refine .get_bind ?_
  cases s.ctx.isF64Expr arg with
  | true => exact clampF64_emits live ready ready' ready''
  | false =>
    refine .component_bind (getElem?_eq_getElem (length_pos_iff.mpr ready.nonempty)) ?_
    refine .component_bind (getElem?_eq_getElem (length_pos_iff.mpr ready''.nonempty)) ?_
    refine (emitFloat_emits live).bind ?_
    rintro tmp s₁ e₁ -
    refine .component_bind (getElem?_eq_getElem (length_pos_iff.mpr ready'.nonempty)) ?_
    exact single_emits (emitFloat_emits (e₁.live live))

/-- The products are summed up one by one. -/
theorem emitDotFrom_emits : ∀ (cs : List Nat) (s : FuncTranslator) (acc : SSAValue),
    s.deadCode = false → (∀ c ∈ cs, c < a.length ∧ c < b.length) → acc.idx ≤ s.count →
    (∀ start, s.env noFold start acc = none) →
      Emits noFold (emitDotFrom a b acc cs) s [] fun dst s' =>
        dst.idx ≤ s'.count ∧ ∀ start, s'.env noFold start dst = none := by
  intro cs
  induction cs with
  | nil => exact fun s acc _ _ old isNone => .pure ⟨old, isNone⟩
  | cons c cs ih =>
    intro s acc live inside _ _
    rcases inside c (by simp) with ⟨insideA, insideB⟩
    refine .component_bind (getElem?_eq_getElem insideA) ?_
    refine .component_bind (getElem?_eq_getElem insideB) ?_
    refine (emitFloat_emits live).bind ?_
    rintro next s₁ e₁ ⟨old, isNone⟩
    exact ih s₁ next (e₁.live live) (fun c member => inside c (by simp [member])) old isNone

theorem translateDot_emits (live : s.deadCode = false) (ready : Ready s a) (ready' : Ready s b) :
    EmitsValues noFold (translateDot a b) s fun _ => [none] := by
  have positive := length_pos_iff.mpr ready.nonempty
  have positive' := length_pos_iff.mpr ready'.nonempty
  refine .component_bind (getElem?_eq_getElem positive) ?_
  refine .component_bind (getElem?_eq_getElem positive') ?_
  refine (emitFloat_emits live).bind ?_
  rintro acc s₁ e₁ ⟨old, isNone⟩
  refine single_emits (emitDotFrom_emits _ s₁ acc (e₁.live live) ?_ old isNone)
  intro c member
  have := mem_range'_1.mp member
  omega

theorem translateSign_emits (live : s.deadCode = false) (ready : Ready s a) :
    EmitsValues noFold (translateSign a) s fun _ => [none] := by
  have positive := length_pos_iff.mpr ready.nonempty
  refine allocSsa_bind ?_
  intro dst s₁ e₁ isGpr _ _ _
  have live := e₁.live live
  refine .component_bind (getElem?_eq_getElem positive) ?_
  refine ((emitOp_emits live fun _ => rfl).mono (by simp) fun _ _ _ h => h).bind ?_
  rintro pos s₂ e₂ ⟨oldPos, isFile, isNone⟩
  have live := e₂.live live
  refine ((emitOp_emits live fun _ => rfl).mono (by simp) fun _ _ _ h => h).bind ?_
  rintro neg s₃ e₃ -
  have live := e₃.live live
  refine ((pushInstr_emits live rfl).mono (by simp) fun _ _ _ h => h).bind ?_
  rintro _ s₄ e₄ -
  have live := e₄.live live
  refine ((emitOp_emits live fun _ => rfl).mono (by simp) fun _ _ _ h => h).bind ?_
  rintro tmp s₅ e₅ -
  refine ((emitOp_emits (e₅.live live) fun _ => rfl).mono (by simp) fun _ _ _ h => h).bind ?_
  rintro result s₆ - ⟨old, -, isResult⟩
  refine .pure ⟨by simpa using old, fun start => ?_⟩
  have other : pos ∉ [dst] := by
    intro written
    rw [mem_singleton.mp written, isGpr] at isFile
    cases isFile
  have kept : s₅.env noFold start pos = none := by
    have after := (e₃.trans e₄).trans e₅
    rw [after.frame start pos oldPos other, isNone]
    rfl
  rw [map_cons, map_nil, isResult]
  refine congrArg (fun value => [value]) ?_
  show ((s₅.env noFold start).getPredSrc (src pos)) >>= _ = _
  rw [Env.getPredSrc_ofSsa, kept]
  rfl

end floats

end CoralReef.NagaTranslate
