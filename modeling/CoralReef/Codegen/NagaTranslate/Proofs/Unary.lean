import CoralReef.Codegen.NagaTranslate.Proofs.Binary

/-!
# The values of unary operators
-/

open List

namespace CoralReef.NagaTranslate

/-- A function of a word. -/
def onWord (h : BitVec 32 → BitVec 32) (a : Option Value) : Option Value :=
  (Value.word? a).map fun x => .word (h x)

/-- What `bnot` copies into a general register, by way of a predicate. -/
def notValue : Option Value → Option Value
  | some (.pred b) => some (.word (if b then 0 else 1))
  | some (.word x) => some (.word (if x = 0 then 1 else 0))
  | _ => none

/-- The value of a component of the result of `translate_unary`. -/
def unaryValue (op : UnaryOperator) (sm : Nat) (isFloat : Bool) (a : Option Value) : Option Value :=
  match op with
  | .negate => if isFloat then none else onWord (fun x => -x) a
  | .logicalNot => notValue a
  | .bitwiseNot => onWord (fun x => if 70 ≤ sm then ~~~x else 0) a

variable {s : FuncTranslator}

/-- A copy of an inverted operand into a predicate. -/
theorem copyNot_value (sm : Nat) (env : Env) (dst x : SSAValue) (isPred : dst.file = .pred) :
    (copyOp dst (bnot (src x))).value noFold sm env dst 0 =
      match env x with
      | some (.pred b) => some (.pred !b)
      | some (.word x) => some (.pred (x == 0))
      | _ => none := by
  show OpCopy.fold { dst := .ofSsa dst, src := bnot (src x) } dst.file env = _
  have read : env.srcValue (bnot (src x)) = env x := rfl
  unfold OpCopy.fold
  rw [isPred, read]
  rcases env x with _ | value
  · rfl
  · cases value with
    | pred b => cases b <;> rfl
    | word x => rfl
    | float q => rfl

/-- One component: the result is written to a register that was allocated before. -/
theorem unaryComponent_emits (live : s.deadCode = false) (op : UnaryOperator) (isFloat : Bool)
    {dst val : SSAValue} (isGpr : dst.file = .gpr) :
    Emits noFold (translateUnaryComponent op isFloat dst val) s [dst] fun _ s' =>
      ∀ start, s'.env noFold start dst =
        unaryValue op s.sm isFloat (s.env noFold start val) := by
  have push {op : ValueOp} {value : Env → Option Value} (isDst : op.dst = .ofSsa dst)
      (isValue : ∀ start, op.value noFold s.sm (s.env noFold start) dst 0 = value start) :
      Emits noFold (pushInstr op) s [dst] fun _ s' => ∀ start, s'.env noFold start dst =
        value start := by
    refine (pushInstr_emits live isDst).mono (List.Subset.refl _) ?_
    rintro _ s' - ⟨-, effect⟩ start
    rw [effect, Function.update_self, isValue]
  refine .get_bind (.get_bind ?_)
  cases op with
  | negate =>
    dsimp only
    cases isFloat with
    | true => exact push rfl fun _ => rfl
    | false =>
      by_cases new : 70 ≤ s.sm
      · simp only [if_pos new]
        refine push rfl fun start => ?_
        show OpIAdd3.fold _ _ = _
        cases isWord : Value.word? (s.env noFold start val) <;>
          simp [OpIAdd3.fold, unaryValue, onWord, isWord]
      · simp only [if_neg new]
        refine push rfl fun start => ?_
        show OpIAdd2.fold _ _ = _
        cases isWord : Value.word? (s.env noFold start val) <;>
          simp [OpIAdd2.fold, unaryValue, onWord, isWord]
  | logicalNot =>
    refine allocSsa_bind ?_
    intro predDst s₁ e₁ isPred _ _ same
    have live := e₁.live live
    refine ((pushInstr_emits live rfl).mono (by simp) fun _ _ _ h => h).bind ?_
    rintro _ s₂ e₂ ⟨-, effect₂⟩
    refine (pushInstr_emits (e₂.live live) rfl).mono (by simp) ?_
    rintro _ s₃ - ⟨-, effect₃⟩ start
    rw [effect₃, Function.update_self, copyOp_value _ _ _ _ isGpr, effect₂, Function.update_self,
      copyNot_value _ _ _ _ isPred, same, unaryValue]
    rcases s.env noFold start val with _ | value
    · rfl
    · cases value with
      | pred b => cases b <;> rfl
      | word x => by_cases zero : x = 0 <;> simp [notValue, toGpr, zero]
      | float q => rfl
  | bitwiseNot =>
    by_cases new : 70 ≤ s.sm
    · simp only [if_pos new]
      refine push rfl fun start => ?_
      show OpLop3.fold _ _ = _
      cases isWord : Value.word? (s.env noFold start val) <;>
        simp [OpLop3.fold, unaryValue, onWord, isWord, new, eval_newLut_not]
    · simp only [if_neg new]
      refine push rfl fun start => ?_
      show OpLop2.fold _ _ = _
      cases isWord : Value.word? (s.env noFold start val) <;>
        simp [OpLop2.fold, unaryValue, onWord, isWord, new, LogicOp2.eval]

/-- The code of a unary operator returns registers with the values of the operator. -/
theorem translateUnary_emits (live : s.deadCode = false) {val : SSARef} (ready : Ready s val)
    (op : UnaryOperator) (expr : Expression) :
    EmitsValues noFold (translateUnary op val expr) s fun start =>
      (val.map (s.env noFold start)).map (unaryValue op s.sm (s.ctx.isFloatExpr expr)) := by
  have positive := length_pos_iff.mpr ready.nonempty
  have small := ready.small
  refine .get_bind ?_
  refine (fillVec_emits (g := fun c start => (val[c]?).bind fun x =>
    unaryValue op s.sm (s.ctx.isFloatExpr expr) (s.env noFold start x)) positive (by omega)
    ?_).mono (List.Subset.refl _) ?_
  · intro c s₁ less e₁ counted
    refine .component_bind (freshComp_get less) ?_
    refine .component_bind (List.getElem?_eq_getElem less) ?_
    have old := ready.allocated _ (getElem_mem less)
    refine (unaryComponent_emits (e₁.live live) op _ rfl).mono (List.Subset.refl _) ?_
    rintro _ s₂ - value start
    rw [value, List.getElem?_eq_getElem less, e₁.sm, e₁.keeps old start]
    rfl
  · rintro dst s' - ⟨old, values⟩
    refine ⟨old, fun start => ?_⟩
    rw [values]
    apply ext_getElem
    · simp
    · intro c inside inside'
      have less : c < val.length := by simpa using inside
      simp [List.getElem?_eq_getElem less]

/-!
## The values of conversions
-/

/-- The values that the code of a conversion returns. -/
def castValues (unit : FloatUnit) (kind : ScalarKind) (convert : Option Nat)
    (l : List (Option Value)) : List (Option Value) :=
  let v := (l[0]?).join
  let number := unit (.i2F .f32 .i32 .nearestEven) [plain v] 0
  match kind, convert with
  | .float, some 4 => [number]
  | .uint, some 4 | .sint, some 4 => [unit (.f2I .i32 .f32 .nearestEven false) [plain v] 0]
  | .float, some 8 =>
    if 2 ≤ l.length then l
    else
      let double := unit (.f2F .f64 .f32 .nearestEven false false false) [plain number]
      [double 0, double 1]
  | .uint, some 8 => [toGpr v, some (.word 0)]
  | .sint, some 8 => [toGpr v, (Value.word? v).map fun w : BitVec 32 => Value.word (w <<< 1)]
  | _, _ => [toGpr v]

variable {unit : FloatUnit} {s : FuncTranslator}

/-- A shift of a pair by 31 to the right that keeps the low word. -/
theorem shiftRight_pair (w : BitVec 32) :
    (BitVec.sshiftRight (w ++ 0#32) 31).setWidth 32 = w <<< 1 := by
  apply BitVec.eq_of_getLsbD_eq
  intro i less
  have inside : 31 + i < 32 + 32 := by omega
  rw [BitVec.getLsbD_setWidth, BitVec.getLsbD_sshiftRight, BitVec.getLsbD_shiftLeft,
    BitVec.getLsbD_append, if_pos inside]
  rcases i with _ | i
  · simp
  · have past : ¬ 31 + (i + 1) < 32 := by omega
    have index : 31 + (i + 1) - 32 = i := by omega
    have short : ¬ 63 ≤ i := by omega
    rw [if_neg past, index]
    simp [short]

theorem signWordOp_value (sm : Nat) (env : Env) (x dst : SSAValue) :
    (signWordOp x dst).value unit sm env dst 0 =
      (Value.word? (env x)).map fun w : BitVec 32 => Value.word (w <<< 1) := by
  show OpShf.fold _ sm env = _
  cases isWord : Value.word? (env x) with
  | none => simp [OpShf.fold, isWord]
  | some w =>
    have isShift : env.getU32Src (newImmU32 31) = some 31 := rfl
    simp [OpShf.fold, isWord, isShift, IntType.bits, IntType.isSigned, shiftRight_pair]

/-- Code that fills a pair from one value. -/
theorem fillPair_emits {vec : SSARef} {x : SSAValue} (live : s.deadCode = false)
    (isFirst : vec[0]? = some x) (old : x.idx ≤ s.count) (low high : SSAValue → SSAValue → ValueOp)
    {g h : Option Value → Option Value} (isLow : ∀ dst, (low x dst).dst = .ofSsa dst)
    (isHigh : ∀ dst, (high x dst).dst = .ofSsa dst)
    (lowValue : ∀ sm env dst, dst.file = .gpr → (low x dst).value unit sm env dst 0 = g (env x))
    (highValue : ∀ sm env dst, dst.file = .gpr →
      (high x dst).value unit sm env dst 0 = h (env x)) :
    EmitsValues unit (do
      let dst ← allocSsaVec .gpr 2
      let word ← component vec 0
      pushInstr (low word (← component dst 0))
      pushInstr (high word (← component dst 1))
      return dst) s fun start => [g (s.env unit start x), h (s.env unit start x)] := by
  refine allocPair_bind ?_
  intro lo hi s₁ e₁ isLo isHi new less old₁ same
  refine .component_bind isFirst ?_
  refine .component_bind (x := lo) rfl ?_
  refine ((pushInstr_emits (e₁.live live) (isLow lo)).mono (by simp) fun _ _ _ h => h).bind ?_
  rintro _ s₂ e₂ ⟨counted₂, effect₂⟩
  refine .component_bind (x := hi) rfl ?_
  refine ((pushInstr_emits (e₂.live (e₁.live live)) (isHigh hi)).mono (by simp)
    fun _ _ _ h => h).bind ?_
  rintro _ s₃ - ⟨counted₃, effect₃⟩
  refine .pure ⟨?_, fun start => ?_⟩
  · intro v member
    rcases mem_cons.mp member with rfl | member
    · omega
    · rw [mem_singleton.mp member]
      omega
  · have otherLo : x ≠ lo := by
      rintro rfl
      omega
    have otherHi : lo ≠ hi := by
      rintro rfl
      omega
    rw [map_cons, map_cons, map_nil, effect₃, Function.update_self,
      Function.update_of_ne otherHi, highValue _ _ _ isHi, effect₂, Function.update_self,
      Function.update_of_ne otherLo, lowValue _ _ _ isLo, same]

/-- The code of a conversion returns registers with its values. -/
theorem translateCast_emits (live : s.deadCode = false) {val : SSARef} (nonempty : val ≠ [])
    (allocated : ∀ x ∈ val, x.idx ≤ s.count) (kind : ScalarKind) (convert : Option Nat) :
    EmitsValues unit (translateCast val kind convert) s fun start =>
      castValues unit kind convert (val.map (s.env unit start)) := by
  rcases exists_cons_of_ne_nil nonempty with ⟨x, rest, rfl⟩
  have old : x.idx ≤ s.count := allocated x mem_cons_self
  have single {file : RegFile} {op : SSAValue → ValueOp} {value : Env → Option Value}
      (isDst : ∀ dst, (op dst).dst = .ofSsa dst)
      (isValue : ∀ dst start, dst.file = file →
        (op dst).value unit s.sm (s.env unit start) dst 0 = value start) :
      EmitsValues unit (do let dst ← emitOp file op; return [dst]) s fun start =>
        [value start] := by
    refine (emitOp_emits live isDst).bind ?_
    rintro dst s₁ - ⟨old₁, isFile, value₁⟩
    refine .pure ⟨by simpa using old₁, fun start => ?_⟩
    rw [map_cons, map_nil, value₁, isValue dst start isFile]
  have copied {kind : ScalarKind} {convert : Option Nat}
      (others : ∀ l, castValues unit kind convert l = [toGpr (l[0]?).join]) :
      EmitsValues unit (do
        let word ← component (x :: rest) 0
        let dst ← emitOp .gpr fun dst => copyOp dst (src word)
        return [dst]) s fun start =>
          castValues unit kind convert ((x :: rest).map (s.env unit start)) := by
    simp only [others]
    refine .component_bind (x := x) rfl ?_
    refine single (fun _ => rfl) fun dst start isGpr => ?_
    exact copyOp_value _ _ _ _ isGpr
  unfold translateCast
  split
  · refine .component_bind (x := x) rfl ?_
    exact single (fun _ => rfl) fun dst start _ => rfl
  · refine .component_bind (x := x) rfl ?_
    exact single (fun _ => rfl) fun dst start _ => rfl
  · refine .component_bind (x := x) rfl ?_
    exact single (fun _ => rfl) fun dst start _ => rfl
  · by_cases pair : 2 ≤ (x :: rest).length
    · rw [if_pos pair]
      refine .pure ⟨allocated, fun start => ?_⟩
      simp only [castValues, length_map, if_pos pair]
    · rw [if_neg pair]
      refine .component_bind (x := x) rfl ?_
      refine (emitFloat_emits live).bind ?_
      rintro f32Val s₁ e₁ ⟨-, value₁⟩
      refine (emitPair_emits (e₁.live live)).mono (List.Subset.refl _) ?_
      rintro dst s₂ - ⟨-, old₂, value₂⟩
      refine ⟨old₂, fun start => ?_⟩
      rw [value₂]
      have one : rest = [] := length_eq_zero_iff.mp (by
        rw [length_cons] at pair
        omega)
      simp only [one, castValues, map_cons, map_nil, Env.floatSrc, src, Src.ofSsa,
        value₁]
      rfl
  · refine fillPair_emits live rfl old (fun word dst => copyOp dst (src word))
      (fun _ dst => copyOp dst srcZero) (g := toGpr) (h := fun _ => some (.word 0)) (fun _ => rfl)
      (fun _ => rfl) (fun sm env dst isGpr => copyOp_value sm env dst x isGpr) ?_
    intro sm env dst isGpr
    show OpCopy.fold _ dst.file env = _
    rw [isGpr]
    rfl
  · exact fillPair_emits live rfl old (fun word dst => copyOp dst (src word)) signWordOp
      (g := toGpr) (h := fun v => (Value.word? v).map fun w : BitVec 32 => .word (w <<< 1))
      (fun _ => rfl) (fun _ => rfl) (fun sm env dst isGpr => copyOp_value sm env dst x isGpr)
      fun sm env dst _ => signWordOp_value sm env x dst
  · refine copied fun l => ?_
    unfold castValues
    split
    all_goals simp_all

end CoralReef.NagaTranslate
