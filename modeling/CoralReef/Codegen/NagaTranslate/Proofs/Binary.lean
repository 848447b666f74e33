import CoralReef.Codegen.NagaTranslate.Binary
import CoralReef.Codegen.NagaTranslate.Proofs.Emit

/-!
# The values of operators

`binaryValues` and `unaryValues` are what the code of the operators computes when the ops on floats
have no value. They do not depend on the SM, but for the bitwise not.
-/

/-!
## The scalar code of the operators

What the code for two words or two predicates computes. It is the same function for the two
families of SMs.
-/

open List

namespace CoralReef

namespace Env

variable (env : Env) (x : SSAValue)

@[simp] theorem getU32Src_ofSsa : env.getU32Src (.ofSsa x) = Value.word? (env x) := rfl

@[simp] theorem getAddend_ofSsa : env.getAddend (.ofSsa x) = Value.word? (env x) := by
  show (Value.word? (env x)).map _ = _
  cases Value.word? (env x) <;> simp [Src.ofSsa]

@[simp] theorem getPredSrc_ofSsa : env.getPredSrc (.ofSsa x) = Value.pred? (env x) := by
  show (Value.pred? (env x)).map _ = _
  cases Value.pred? (env x) <;> simp [Src.ofSsa]

@[simp] theorem getU32BnotSrc_ofSsa : env.getU32BnotSrc (.ofSsa x) = Value.word? (env x) := by
  show (Value.word? (env x)).map _ = _
  cases Value.word? (env x) <;> simp [Src.ofSsa]

end Env

namespace NagaTranslate

variable {lut : BitVec 8 → BitVec 8 → BitVec 8 → BitVec 8}

@[simp] theorem getU32Src_srcZero (env : Env) : env.getU32Src srcZero = some 0 := rfl

@[simp] theorem getAddend_srcZero (env : Env) : env.getAddend srcZero = some 0 := rfl

@[simp] theorem getU32BnotSrc_srcZero (env : Env) : env.getU32BnotSrc srcZero = some 0 := rfl

@[simp] theorem getPredSrc_srcTrue (env : Env) : env.getPredSrc srcTrue = some true := rfl

@[simp] theorem getAddend_ineg (env : Env) (x : SSAValue) :
    env.getAddend (ineg (src x)) = (Value.word? (env x)).map fun w => -w := by
  show (Value.word? (env x)).map _ = _
  cases Value.word? (env x) with
  | none => rfl
  | some w => simp [ineg, BitVec.neg_eq_not_add]

/-- A function of two words. -/
def onWords (h : BitVec 32 → BitVec 32 → Value) (a b : Option Value) : Option Value := do
  return h (← Value.word? a) (← Value.word? b)

/-- A function of two predicates. -/
def onPreds (h : Bool → Bool → Bool) (a b : Option Value) : Option Value := do
  return .pred (h (← Value.pred? a) (← Value.pred? b))

variable (unit : FloatUnit)

theorem iAdd_computes : Computes unit (fun a b => emitIAdd (src a) (src b))
    (onWords fun x y => .word (x + y)) := by
  refine computes_emitBySm (fun _ _ _ => rfl) (fun _ _ _ => rfl) ?_ ?_
  · intro sm env a b dst _
    show OpIAdd3.fold _ env = _
    simp [OpIAdd3.fold, onWords]
  · intro sm env a b dst _
    show OpIAdd2.fold _ env = _
    simp [OpIAdd2.fold, onWords]

theorem iSub_computes : Computes unit (fun a b => emitIAdd (src a) (ineg (src b)))
    (onWords fun x y => .word (x - y)) := by
  refine computes_emitBySm (fun _ _ _ => rfl) (fun _ _ _ => rfl) ?_ ?_
  · intro sm env a b dst _
    show OpIAdd3.fold _ env = _
    simp [OpIAdd3.fold, onWords, BitVec.sub_eq_add_neg, Option.bind_map]
  · intro sm env a b dst _
    show OpIAdd2.fold _ env = _
    simp [OpIAdd2.fold, onWords, BitVec.sub_eq_add_neg, Option.bind_map]

theorem iMul_computes : Computes unit (fun a b => emitIMul (src a) (src b))
    (onWords fun x y => .word (x * y)) := by
  refine computes_emitBySm (fun _ _ _ => rfl) (fun _ _ _ => rfl) ?_ ?_
  · intro sm env a b dst _
    show OpIMad.fold _ env = _
    simp [OpIMad.fold, onWords]
  · intro sm env a b dst _
    show OpIMul.fold _ env = _
    have low (x y : BitVec 32) :
        (x.setWidth 64 * y.setWidth 64 : BitVec 64).setWidth 32 = x * y := by
      rw [BitVec.setWidth_mul _ _ (by decide)]
      simp
    simp [OpIMul.fold, onWords, low, Option.bind_map]

/-- Bitwise operations of two operands. -/
theorem lop_computes {op : LogicOp2} {h : BitVec 32 → BitVec 32 → BitVec 32}
    (newer : ∀ x y, (LogicOp3.newLut lut).eval x y 0#32 = h x y)
    (older : ∀ x y, op.eval x y = h x y) :
    Computes unit (fun a b => emitLop lut op (src a) (src b))
      (onWords fun x y => .word (h x y)) := by
  refine computes_emitBySm (fun _ _ _ => rfl) (fun _ _ _ => rfl) ?_ ?_
  · intro sm env a b dst _
    show OpLop3.fold _ env = _
    simp [OpLop3.fold, onWords, newer]
  · intro sm env a b dst _
    show OpLop2.fold _ env = _
    simp [OpLop2.fold, onWords, older]

/-- A truth table of the first two inputs, applied to words. -/
theorem eval_newLut {g : (Fin 3 → Bool) → Bool} {x y z w : BitVec 32} (bitwise : ∀ x y z i, i < 8 →
      (lut x y z).getLsbD i = g ![x.getLsbD i, y.getLsbD i, z.getLsbD i])
    (wordwise : ∀ i, i < 32 → w.getLsbD i = g ![x.getLsbD i, y.getLsbD i, z.getLsbD i]) :
    (LogicOp3.newLut lut).eval x y z = w := by
  apply BitVec.eq_of_getLsbD_eq
  intro i inside
  have bit := LogicOp3.getLsbD_eval (.newLut lut) ![x, y, z] inside
  rw [LogicOp3.result_newLut bitwise] at bit
  rw [wordwise i inside]
  refine bit.trans (congrArg g ?_)
  funext j
  match j with
  | 0 => rfl
  | 1 => rfl
  | 2 => rfl

theorem eval_newLut_and (x y z : BitVec 32) :
    (LogicOp3.newLut fun x y _ => x &&& y).eval x y z = x &&& y :=
  eval_newLut (g := fun v => v 0 && v 1) (fun _ _ _ _ _ => by simp) fun _ _ => by simp

theorem eval_newLut_or (x y z : BitVec 32) :
    (LogicOp3.newLut fun x y _ => x ||| y).eval x y z = x ||| y :=
  eval_newLut (g := fun v => v 0 || v 1) (fun _ _ _ _ _ => by simp) fun _ _ => by simp

theorem eval_newLut_xor (x y z : BitVec 32) :
    (LogicOp3.newLut fun x y _ => x ^^^ y).eval x y z = x ^^^ y :=
  eval_newLut (g := fun v => v 0 ^^ v 1) (fun _ _ _ _ _ => by simp) fun _ _ => by simp

theorem eval_newLut_not (x y z : BitVec 32) :
    (LogicOp3.newLut fun x _ _ => ~~~x).eval x y z = ~~~x :=
  eval_newLut (g := fun v => !v 0) (fun _ _ _ _ inside => by simp [inside])
    fun _ inside => by simp [inside]

/-- The amount that a wrapping shift shifts by. -/
theorem wrapped_shift (n : Nat) : n &&& 31 = n % 32 := Nat.and_two_pow_sub_one_eq_mod n 5

theorem shl_computes : Computes unit (fun a b => emitShl (src a) (src b))
    (onWords fun x y => .word (x <<< (y.toNat % 32))) := by
  refine computes_emitBySm (fun _ _ _ => rfl) (fun _ _ _ => rfl) ?_ ?_
  · intro sm env a b dst new
    show OpShf.fold _ sm env = _
    have low (x : BitVec 32) : (0#32 ++ x).setWidth 32 = x := BitVec.setWidth_append_eq_right
    have newer : ¬ sm < 70 := by omega
    simp [OpShf.fold, onWords, newer, IntType.bits, wrapped_shift, low]
  · intro sm env a b dst _
    show OpShl.fold _ env = _
    simp [OpShl.fold, onWords, wrapped_shift]

theorem shr_computes : Computes unit (fun a b => emitShr (src a) (src b))
    (onWords fun x y => .word (x >>> (y.toNat % 32))) := by
  refine computes_emitBySm (fun _ _ _ => rfl) (fun _ _ _ => rfl) ?_ ?_
  · intro sm env a b dst new
    show OpShf.fold _ sm env = _
    have high (x : BitVec 32) (n : Nat) : ((x ++ 0#32) >>> (n + 32)).setWidth 32 = x >>> n := by
      apply BitVec.eq_of_getLsbD_eq
      intro i inside
      have beyond : ¬ n + 32 + i < 32 := by omega
      rw [BitVec.getLsbD_setWidth, BitVec.getLsbD_ushiftRight, BitVec.getLsbD_ushiftRight,
        BitVec.getLsbD_append, if_neg beyond, show n + 32 + i - 32 = n + i by omega]
      simp [inside]
    have newer : ¬ sm < 70 := by omega
    simp [OpShf.fold, onWords, newer, IntType.bits, IntType.isSigned, wrapped_shift,
      ← BitVec.shiftRight_add, high]
  · intro sm env a b dst _
    show OpShr.fold _ env = _
    simp [OpShr.fold, onWords, wrapped_shift]

theorem iSetP_computes (cmpOp : IntCmpOp) :
    Computes unit (fun a b => emitISetP cmpOp (src a) (src b))
      (onWords fun x y => .pred (cmpOp.eval false x y)) := by
  refine computes_emitOp (fun _ _ _ => rfl) ?_
  intro sm env a b dst
  show OpISetP.fold _ sm env = _
  simp [OpISetP.fold, onWords, IntCmpType.isSigned, PredSetOp.eval]

/-- Logical operations of two predicates. -/
theorem logical_computes {op : PredSetOp}
    (bitwise : ∀ x y z i, i < 8 → (lut x y z).getLsbD i = op.eval (x.getLsbD i) (y.getLsbD i)) :
    Computes unit (fun a b => emitLogical lut op (src a) (src b)) (onPreds op.eval) := by
  refine computes_emitBySm (fun _ _ _ => rfl) (fun _ _ _ => rfl) ?_ ?_
  · intro sm env a b dst _
    show OpPLop3.fold _ env = _
    have table (x y z : Bool) : (LogicOp3.newLut lut).result ![x, y, z] = op.eval x y :=
      LogicOp3.result_newLut (g := fun v => op.eval (v 0) (v 1)) bitwise _
    simp [OpPLop3.fold, onPreds, table]
  · intro sm env a b dst _
    show OpPSetP.fold _ env = _
    simp [OpPSetP.fold, onPreds, PredSetOp.eval]

/-- What a loop over components computes. -/
def eachValue (g : Option Value → Option Value → Option Value) (l r : List (Option Value)) :
    List (Option Value) :=
  (List.range (max l.length 1)).map fun c => toGpr (g (broadcast l c) (broadcast r c))

/-- What `emit_f64_componentwise` yields: words of pairs. -/
def pairsValue (l r : List (Option Value)) : List (Option Value) :=
  let total := max l.length r.length
  List.replicate (total + total % 2) none

/-- The arms of an arithmetic operator. -/
def arithmeticValues (isFloat isF64 : Bool) (h : BitVec 32 → BitVec 32 → Value)
    (l r : List (Option Value)) : List (Option Value) :=
  if isF64 then pairsValue l r
  else if isFloat then List.replicate (max l.length 1) none
  else eachValue (onWords h) l r

/-- The value of the components 0 and 1 as a double, or of the component 0 twice. -/
def pairF64 (vec : List (Option Value)) : Option F64 := do
  let lo ← Value.word? (vec[0]?).join
  let hi ← Value.word? (vec[if 2 ≤ vec.length then 1 else 0]?).join
  return hi ++ lo

/-- The arms of a comparison. -/
def comparisonValues (isFloat isF64 : Bool) (floatOp : FloatCmpOp) (intOp : IntCmpOp)
    (l r : List (Option Value)) : List (Option Value) :=
  if isF64 then
    [do return .pred (floatOp.eval (← pairF64 l) (← pairF64 r))]
  else if isFloat then [none]
  else [onWords (fun x y => .pred (intOp.eval false x y)) (l[0]?).join (r[0]?).join]

/-- The values of the result of `translate_binary`. -/
def binaryValues (op : BinaryOperator) (isFloat isF64 : Bool) (l r : List (Option Value)) :
    List (Option Value) :=
  match op with
  | .add => arithmeticValues isFloat isF64 (fun x y => .word (x + y)) l r
  | .subtract => arithmeticValues isFloat isF64 (fun x y => .word (x - y)) l r
  | .multiply => arithmeticValues isFloat isF64 (fun x y => .word (x * y)) l r
  | .divide | .modulo =>
    if isF64 then pairsValue l r else List.replicate (max l.length 1) none
  | .and => eachValue (onWords fun x y => .word (x &&& y)) l r
  | .inclusiveOr => eachValue (onWords fun x y => .word (x ||| y)) l r
  | .exclusiveOr => eachValue (onWords fun x y => .word (x ^^^ y)) l r
  | .shiftLeft => eachValue (onWords fun x y => .word (x <<< (y.toNat % 32))) l r
  | .shiftRight => eachValue (onWords fun x y => .word (x >>> (y.toNat % 32))) l r
  | .equal => comparisonValues isFloat isF64 .ordEq .eq l r
  | .notEqual => comparisonValues isFloat isF64 .ordNe .ne l r
  | .less => comparisonValues isFloat isF64 .ordLt .lt l r
  | .lessEqual => comparisonValues isFloat isF64 .ordLe .le l r
  | .greater => comparisonValues isFloat isF64 .ordGt .gt l r
  | .greaterEqual => comparisonValues isFloat isF64 .ordGe .ge l r
  | .logicalAnd => [onPreds (fun a b => a && b) (l[0]?).join (r[0]?).join]
  | .logicalOr => [onPreds (fun a b => a || b) (l[0]?).join (r[0]?).join]

/-! ## Code on floats -/

section floats

variable {unit : FloatUnit}

/-- What a float op of general registers computes. -/
theorem emitFloat_emits {code : FloatCode} {file : RegFile} {srcs : List Src} {s : FuncTranslator}
    (live : s.deadCode = false) :
    Emits unit (emitOp file fun dst => .float code (.ofSsa dst) srcs) s [] fun dst s' =>
      dst.idx ≤ s'.count ∧
        ∀ start, s'.env unit start dst = unit code (srcs.map (s.env unit start).floatSrc) 0 := by
  refine (emitOp_emits live fun _ => rfl).mono (Subset.refl _) ?_
  exact fun dst s' _ holds => ⟨holds.1, holds.2.2⟩

/-- An operand without modifiers. -/
abbrev plain (a : Option Value) : SrcMod × List (Option Value) := (.none, [a])

abbrev negated (a : Option Value) : SrcMod × List (Option Value) := (.fNeg, [a])

/-- The quotient as a float, before it is truncated. -/
def quotient (unit : FloatUnit) (fa fb : Option Value) : Option Value :=
  unit (.fMul false .nearestEven false false)
    [plain fa, plain (unit (.transcendental .rcp) [plain fb] 0)] 0

/-- An integer operand as a float. -/
def asFloat (unit : FloatUnit) (a : Option Value) : Option Value :=
  unit (.i2F .f32 .i32 .nearestEven) [plain a] 0

def truncated (unit : FloatUnit) (q : Option Value) : Option Value :=
  unit (.fRnd .f32 .f32 .zero false) [plain q] 0

def asInt (unit : FloatUnit) (q : Option Value) : Option Value :=
  unit (.f2I .i32 .f32 .zero false) [plain q] 0

/-- What the integer division computes. -/
def divideValue (unit : FloatUnit) (a b : Option Value) : Option Value :=
  asInt unit (truncated unit (quotient unit (asFloat unit a) (asFloat unit b)))

/-- What the integer remainder computes. -/
def moduloValue (unit : FloatUnit) (a b : Option Value) : Option Value :=
  let fa := asFloat unit a
  let fb := asFloat unit b
  let prod := unit (.fMul false .nearestEven false false)
    [plain (truncated unit (quotient unit fa fb)), plain fb] 0
  asInt unit (unit (.fAdd false .nearestEven false) [plain fa, negated prod] 0)

theorem truncatedQuotient_emits {s : FuncTranslator} {a b : SSAValue} (live : s.deadCode = false)
    (oldB : b.idx ≤ s.count) : Emits unit (emitTruncatedQuotient a b) s [] fun q s' =>
      (q.1.idx ≤ s'.count ∧ q.2.1.idx ≤ s'.count ∧ q.2.2.idx ≤ s'.count) ∧ ∀ start,
        let fa := asFloat unit (s.env unit start a)
        let fb := asFloat unit (s.env unit start b)
        s'.env unit start q.1 = fa ∧ s'.env unit start q.2.1 = fb ∧
          s'.env unit start q.2.2 = truncated unit (quotient unit fa fb) := by
  refine (emitFloat_emits live).bind ?_
  rintro fa s₁ e₁ ⟨old₁, v₁⟩
  refine (emitFloat_emits (e₁.live live)).bind ?_
  rintro fb s₂ e₂ ⟨old₂, v₂⟩
  refine (emitFloat_emits ((e₁.trans e₂).live live)).bind ?_
  rintro rcp s₃ e₃ ⟨old₃, v₃⟩
  refine (emitFloat_emits ((e₁.trans (e₂.trans e₃)).live live)).bind ?_
  rintro quotF s₄ e₄ ⟨old₄, v₄⟩
  refine (emitFloat_emits ((e₁.trans (e₂.trans (e₃.trans e₄))).live live)).bind ?_
  rintro trunc s₅ e₅ ⟨old₅, v₅⟩
  have afterB := (e₃.trans e₄).trans e₅
  refine .pure ⟨⟨old₁.trans (e₂.trans afterB).count, old₂.trans afterB.count, old₅⟩, ?_⟩
  intro start
  have keptB : s₁.env unit start b = s.env unit start b := e₁.keeps oldB start
  have keptA : s₃.env unit start fa = s₁.env unit start fa := (e₂.trans e₃).keeps old₁ start
  refine ⟨?_, ?_, ?_⟩
  · rw [(e₂.trans afterB).keeps old₁ start, v₁]
    rfl
  · rw [afterB.keeps old₂ start, v₂]
    exact congrArg (asFloat unit) keptB
  · simp only [v₅, v₄, v₃, v₂, v₁, map_cons, map_nil, Env.floatSrc, src, Src.ofSsa,
      keptA, keptB, truncated, quotient, asFloat]

/-- What the division of floats computes. -/
def floatDivideValue (unit : FloatUnit) (a b : Option Value) : Option Value := quotient unit a b

/-- What the remainder of floats computes. -/
def floatModuloValue (unit : FloatUnit) (a b : Option Value) : Option Value :=
  let floored := unit (.fRnd .f32 .f32 .negInf false) [plain (quotient unit a b)] 0
  let prod := unit (.fMul false .nearestEven false false) [plain floored, plain b] 0
  unit (.fAdd false .nearestEven false) [plain a, negated prod] 0

theorem floatDivide_computes : Computes unit emitFloatDivide (floatDivideValue unit) := by
  intro s a b live oldA _
  refine (emitFloat_emits live).bind ?_
  rintro rcp s₁ e₁ ⟨-, v₁⟩
  refine (emitFloat_emits (e₁.live live)).mono (Subset.refl _) ?_
  rintro dst s₂ - ⟨old₂, v₂⟩
  refine ⟨old₂, fun start => ?_⟩
  have keptA : s₁.env unit start a = s.env unit start a := e₁.keeps oldA start
  simp only [v₂, v₁, map_cons, map_nil, Env.floatSrc, src, Src.ofSsa, keptA,
    floatDivideValue, quotient]

theorem floatModulo_computes : Computes unit emitFloatModulo (floatModuloValue unit) := by
  intro s a b live oldA oldB
  refine (emitFloat_emits live).bind ?_
  rintro rcp s₁ e₁ ⟨-, v₁⟩
  refine (emitFloat_emits (e₁.live live)).bind ?_
  rintro quot s₂ e₂ ⟨-, v₂⟩
  have e₁₂ := e₁.trans e₂
  refine (emitFloat_emits (e₁₂.live live)).bind ?_
  rintro floored s₃ e₃ ⟨-, v₃⟩
  have e₁₃ := e₁₂.trans e₃
  refine (emitFloat_emits (e₁₃.live live)).bind ?_
  rintro prod s₄ e₄ ⟨-, v₄⟩
  have e₁₄ := e₁₃.trans e₄
  refine (emitFloat_emits (e₁₄.live live)).mono (Subset.refl _) ?_
  rintro dst s₅ - ⟨old₅, v₅⟩
  refine ⟨old₅, fun start => ?_⟩
  have keptA₁ : s₁.env unit start a = s.env unit start a := e₁.keeps oldA start
  have keptA₄ : s₄.env unit start a = s.env unit start a := e₁₄.keeps oldA start
  have keptB₃ : s₃.env unit start b = s.env unit start b := e₁₃.keeps oldB start
  simp only [v₅, v₄, v₃, v₂, v₁, map_cons, map_nil, Env.floatSrc, src, Src.ofSsa, fneg,
    keptA₁, keptA₄, keptB₃, floatModuloValue, quotient]

theorem divide_computes : Computes unit emitIntDivide (divideValue unit) := by
  intro s a b live oldA oldB
  refine (truncatedQuotient_emits live oldB).bind ?_
  rintro ⟨fa, fb, trunc⟩ s₁ e₁ ⟨-, values⟩
  refine (emitFloat_emits (e₁.live live)).mono (Subset.refl _) ?_
  rintro dst s₂ - ⟨old₂, v₂⟩
  refine ⟨old₂, fun start => ?_⟩
  rw [v₂]
  exact congrArg (asInt unit) (values start).2.2

theorem modulo_computes : Computes unit emitIntModulo (moduloValue unit) := by
  intro s a b live oldA oldB
  refine (truncatedQuotient_emits live oldB).bind ?_
  rintro ⟨fa, fb, trunc⟩ s₁ e₁ ⟨⟨oldFa, -, -⟩, values⟩
  refine (emitFloat_emits (e₁.live live)).bind ?_
  rintro prod s₂ e₂ ⟨-, v₂⟩
  refine (emitFloat_emits ((e₁.trans e₂).live live)).bind ?_
  rintro remF s₃ e₃ ⟨-, v₃⟩
  refine (emitFloat_emits ((e₁.trans (e₂.trans e₃)).live live)).mono (Subset.refl _) ?_
  rintro dst s₄ - ⟨old₄, v₄⟩
  refine ⟨old₄, fun start => ?_⟩
  have keptA : s₂.env unit start fa = s₁.env unit start fa := e₂.keeps oldFa start
  rcases values start with ⟨isA, isB, isT⟩
  simp only [v₄, v₃, v₂, map_cons, map_nil, Env.floatSrc, src, Src.ofSsa, fneg, keptA,
    isA, isB, isT, moduloValue, asInt]

end floats

/-! ## Floats without folds -/

section nofold

theorem fAdd_computes (negate : Src → Src) :
    Computes noFold (fun a b => emitFAdd (src a) (negate (src b))) fun _ _ => none :=
  computes_emitOp (fun _ _ _ => rfl) fun _ _ _ _ _ => rfl

theorem fMul_computes :
    Computes noFold (fun a b => emitFMul (src a) (src b)) fun _ _ => none :=
  computes_emitOp (fun _ _ _ => rfl) fun _ _ _ _ _ => rfl

theorem fSetP_computes (cmpOp : FloatCmpOp) :
    Computes noFold (fun a b => emitFSetP cmpOp (src a) (src b)) fun _ _ => none :=
  computes_emitOp (fun _ _ _ => rfl) fun _ _ _ _ _ => rfl

end nofold

section doubles

variable {unit : FloatUnit}
variable {s : FuncTranslator}

/-- The code for a pair of doubles returns a pair of words without values. -/
def Undefined (unit : FloatUnit) (f : SSARef → SSARef → EmitM SSARef) : Prop :=
  ∀ (s : FuncTranslator) (lp rp : SSARef), s.deadCode = false → lp.length = 2 → rp.length = 2 →
    Emits unit (f lp rp) s [] fun dst s' => dst.length = 2 ∧ (∀ x ∈ dst, x.idx ≤ s'.count) ∧
      ∀ start, dst.map (s'.env unit start) = [none, none]

/-- An op on doubles without values. -/
theorem emitPair_undefined {code : FloatCode} {srcs : List Src} (live : s.deadCode = false)
    (silent : ∀ srcs i, unit code srcs i = none) :
    Emits unit (emitPair code srcs) s [] fun dst s' => dst.length = 2 ∧
      (∀ x ∈ dst, x.idx ≤ s'.count) ∧ ∀ start, dst.map (s'.env unit start) = [none, none] := by
  refine (emitPair_emits live).mono (Subset.refl _) ?_
  rintro dst s' - ⟨pair, old, values⟩
  refine ⟨pair, old, fun start => ?_⟩
  rw [values, silent, silent]

theorem pair_undefined {code : FloatCode} {srcs : SSARef → SSARef → List Src}
    (silent : ∀ srcs i, unit code srcs i = none) :
    Undefined unit fun lp rp => emitPair code (srcs lp rp) :=
  fun _ _ _ live _ _ => emitPair_undefined live silent

theorem f64Divide_undefined (silent : ∀ srcs i, unit (.dMul .nearestEven) srcs i = none) :
    Undefined unit emitF64Divide := by
  intro s lp rp live _ _
  refine (emitPair_emits live).bind ?_
  rintro rcp s₁ e₁ -
  exact emitPair_undefined (e₁.live live) silent

/-- A conjunction is the same for the two families. -/
theorem logicAnd_emits (live : s.deadCode = false) {dst : SSAValue} {a b : Src} :
    Emits unit (emitLogicAnd dst a b) s [dst] fun _ s' => ∀ start, s'.env unit start =
      Function.update (s.env unit start) dst (do
        let x ← (s.env unit start).getU32BnotSrc a
        let y ← (s.env unit start).getU32BnotSrc b
        return .word (x &&& y)) := by
  refine .get_bind ?_
  split
  · refine (pushInstr_emits live rfl).mono (Subset.refl _) ?_
    rintro _ s' - ⟨-, effect⟩ start
    rw [effect]
    refine congrArg (Function.update _ _) ?_
    show OpLop3.fold _ _ = _
    simp [OpLop3.fold, eval_newLut_and]
  · refine (pushInstr_emits live rfl).mono (Subset.refl _) ?_
    rintro _ s' - ⟨-, effect⟩ start
    rw [effect]
    rfl

theorem logicOr_emits (live : s.deadCode = false) {dst : SSAValue} {a b : Src} :
    Emits unit (emitLogicOr dst a b) s [dst] fun _ _ => True := by
  refine .get_bind ?_
  split
  · exact (pushInstr_emits live rfl).mono (Subset.refl _) fun _ _ _ _ => trivial
  · exact (pushInstr_emits live rfl).mono (Subset.refl _) fun _ _ _ _ => trivial

theorem f64Round_emits (live : s.deadCode = false) {x : SSARef} (pair : x.length = 2) :
    Emits unit (emitF64Round x) s [] fun dst _ => dst.length = 2 := by
  rcases length_eq_two.mp pair with ⟨lo, hi, rfl⟩
  refine allocSsa_bind ?_
  intro signBit s₁ e₁ _ _ _ _
  refine .component_bind (x := hi) rfl ?_
  have live := e₁.live live
  refine ((logicAnd_emits live).mono (by simp) fun _ _ _ h => h).bind ?_
  rintro _ s₂ e₂ -
  have live := e₂.live live
  refine allocSsa_bind ?_
  intro signedHi s₃ e₃ _ _ _ _
  have live := e₃.live live
  refine ((logicOr_emits live).mono (by simp) fun _ _ _ h => h).bind ?_
  rintro _ s₄ e₄ -
  have live := e₄.live live
  refine allocPair_bind ?_
  intro lo' hi' s₅ e₅ _ _ _ _ _ _
  have live := e₅.live live
  refine .component_bind (x := lo') rfl ?_
  refine ((pushInstr_emits live rfl).mono (by simp) fun _ _ _ h => h).bind ?_
  rintro _ s₆ e₆ -
  have live := e₆.live live
  refine .component_bind (x := hi') rfl ?_
  refine ((pushInstr_emits live rfl).mono (by simp) fun _ _ _ h => h).bind ?_
  rintro _ s₇ e₇ -
  have live := e₇.live live
  refine (emitPair_emits live).bind ?_
  rintro tmp s₈ e₈ -
  exact (emitPair_emits (e₈.live live)).mono (Subset.refl _) fun _ _ _ holds => holds.1

theorem f64Floor_emits (live : s.deadCode = false) {x : SSARef} (pair : x.length = 2) :
    Emits unit (emitF64Floor x) s [] fun dst _ => dst.length = 2 := by
  refine (f64Round_emits live pair).bind ?_
  intro rounded s₁ e₁ roundedPair
  rcases length_eq_two.mp roundedPair with ⟨lo, hi, rfl⟩
  have live := e₁.live live
  refine allocPair_bind ?_
  intro lo' hi' s₂ e₂ _ _ _ _ _ _
  have live := e₂.live live
  refine .component_bind (x := lo') rfl ?_
  refine ((pushInstr_emits live rfl).mono (by simp) fun _ _ _ h => h).bind ?_
  rintro _ s₃ e₃ -
  have live := e₃.live live
  refine .component_bind (x := hi') rfl ?_
  refine ((pushInstr_emits live rfl).mono (by simp) fun _ _ _ h => h).bind ?_
  rintro _ s₄ e₄ -
  have live := e₄.live live
  refine ((emitOp_emits live fun _ => rfl).mono (by simp) fun _ _ _ h => h).bind ?_
  rintro pred s₅ e₅ -
  have live := e₅.live live
  refine (emitPair_emits live).bind ?_
  rintro adjusted s₆ e₆ ⟨adjustedPair, -⟩
  rcases length_eq_two.mp adjustedPair with ⟨lo₂, hi₂, rfl⟩
  have live := e₆.live live
  refine allocPair_bind ?_
  intro lo₃ hi₃ s₇ e₇ _ _ _ _ _ _
  have live := e₇.live live
  refine Emits.bind (?_ : Emits unit _ _ _ fun _ _ => True) fun _ _ _ _ => .pure rfl
  refine (Emits.forComps (fun _ _ => True) trivial 2 ?_).mono (Subset.refl _)
    fun _ _ _ _ => trivial
  intro c s₈ less e₈ _
  have live := e₈.live live
  match c, less with
  | 0, _ =>
    refine .component_bind (x := lo₂) rfl ?_
    refine .component_bind (x := lo) rfl ?_
    refine .component_bind (x := lo₃) rfl ?_
    exact (pushInstr_emits live rfl).mono (by simp) fun _ _ _ _ => trivial
  | 1, _ =>
    refine .component_bind (x := hi₂) rfl ?_
    refine .component_bind (x := hi) rfl ?_
    refine .component_bind (x := hi₃) rfl ?_
    exact (pushInstr_emits live rfl).mono (by simp) fun _ _ _ _ => trivial

theorem f64Modulo_undefined (silent : ∀ srcs i, unit (.dAdd .nearestEven) srcs i = none) :
    Undefined unit emitF64Modulo := by
  intro s lp rp live _ _
  refine (emitPair_emits live).bind ?_
  rintro rcp s₁ e₁ -
  refine (emitPair_emits (e₁.live live)).bind ?_
  rintro quot s₂ e₂ ⟨pair, -⟩
  refine (f64Floor_emits ((e₁.trans e₂).live live) pair).bind ?_
  rintro floored s₃ e₃ -
  refine (emitPair_emits ((e₁.trans (e₂.trans e₃)).live live)).bind ?_
  rintro prod s₄ e₄ -
  exact emitPair_undefined ((e₁.trans (e₂.trans (e₃.trans e₄))).live live) silent

/-- The pair of an element has two components. -/
theorem elementPair_bind {vec : SSARef} {e : Nat} {writes : List SSAValue} {β : Type}
    {q : SSARef → EmitM β} {post : β → FuncTranslator → Prop} (nonempty : vec ≠ [])
    (rest : ∀ pair : SSARef, pair.length = 2 → Emits unit (q pair) s writes post) :
    Emits unit (elementPair vec e >>= q) s writes post := by
  have positive := length_pos_iff.mpr nonempty
  have two (i j : Nat) (inside : i < vec.length) (inside' : j < vec.length) :
      Emits unit ((do return [← component vec i, ← component vec j]) >>= q) s writes post := by
    simp only [bind_assoc, pure_bind]
    refine .component_bind (getElem?_eq_getElem inside) ?_
    refine .component_bind (getElem?_eq_getElem inside') ?_
    exact rest _ rfl
  unfold elementPair
  dsimp only
  generalize (if 0 < vec.length / 2 then min e (vec.length / 2 - 1) * 2 else 0) = i
  split
  · exact two _ _ (by omega) (by omega)
  · exact two _ _ positive positive

/-- On words that are no doubles, the code for doubles yields words without values. -/
theorem emitF64Componentwise_emits {f : SSARef → SSARef → EmitM SSARef}
    (undefined : Undefined unit f) (live : s.deadCode = false) {l r : SSARef} (nonempty : l ≠ [])
    (nonempty' : r ≠ []) (small : l.length ≤ 4) (small' : r.length ≤ 4) :
    Emits unit (emitF64Componentwise l r f) s [] fun dst s' =>
      (∀ x ∈ dst, x.idx ≤ s'.count) ∧ ∀ start, dst.map (s'.env unit start) =
        pairsValue (l.map (s.env unit start)) (r.map (s.env unit start)) := by
  have positive := length_pos_iff.mpr nonempty
  unfold emitF64Componentwise pairsValue
  simp only [length_map]
  have even : (if max l.length r.length % 2 ≠ 0 then max l.length r.length + 1
      else max l.length r.length) = max l.length r.length + max l.length r.length % 2 := by
    split <;> omega
  rw [even]
  generalize total : max l.length r.length + max l.length r.length % 2 = n
  have bounds : 2 ≤ n ∧ n ≤ 4 ∧ n % 2 = 0 := by omega
  by_cases single : n / 2 = 1 ∧ 1 ≤ l.length / 2 ∧ 1 ≤ r.length / 2
  · rw [if_pos single, show n = 2 by omega]
    refine (undefined s l r live (by omega) (by omega)).mono (Subset.refl _) ?_
    exact fun dst s' _ holds => ⟨holds.2.1, holds.2.2⟩
  · rw [if_neg single]
    have constant : replicate n (none : Option Value) = (range n).map fun _ => none := by
      simp
    simp only [constant]
    refine fillPairs_emits (n / 2) (by omega) (by omega) (by omega) ?_
    intro e s₁ less e₁ _
    have live := e₁.live live
    refine elementPair_bind nonempty fun lp lPair => ?_
    refine elementPair_bind nonempty' fun rp rPair => ?_
    refine ((undefined s₁ lp rp live lPair rPair).mono (nil_subset _)
      fun _ _ _ h => h).bind ?_
    rintro result s₂ e₂ ⟨resultPair, -, values⟩
    rcases length_eq_two.mp resultPair with ⟨lo, hi, rfl⟩
    have live := e₂.live live
    have isNone (start : Env) : s₂.env unit start lo = none ∧ s₂.env unit start hi = none := by
      simpa using values start
    refine .component_bind (freshComp_get (by omega)) ?_
    refine .component_bind (x := lo) rfl ?_
    refine ((pushInstr_emits live rfl).mono (by simp) fun _ _ _ h => h).bind ?_
    rintro _ s₃ e₃ ⟨-, effect₃⟩
    refine .component_bind (freshComp_get (by omega)) ?_
    refine .component_bind (x := hi) rfl ?_
    refine (pushInstr_emits (e₃.live live) rfl).mono (by simp) ?_
    rintro _ s₄ - ⟨-, effect₄⟩ start
    have first : s₃.env unit start =
        Function.update (s₂.env unit start) (freshComp .gpr s.count (e * 2)) none := by
      rw [effect₃, copyOp_value _ _ _ _ rfl, (isNone start).1]
      rfl
    have second : s₄.env unit start =
        Function.update (s₃.env unit start) (freshComp .gpr s.count (e * 2 + 1)) none := by
      rw [effect₄, copyOp_value _ _ _ _ rfl, first, Function.update_apply, (isNone start).2]
      simp [toGpr]
    rw [second, first]
    constructor
    · simp [Function.update_apply]
    · simp

end doubles

variable {g : Option Value → Option Value → Option Value}

/-! ## Comparisons -/

theorem getF64Src_srcVec (env : Env) (lo hi : SSAValue) :
    env.getF64Src (srcVec [lo, hi]) = do
      let lo ← Value.word? (env lo)
      let hi ← Value.word? (env hi)
      return hi ++ lo := rfl

/-- A comparison of doubles reads the first two components, or the only one twice. -/
theorem emitF64Cmp_emits {s : FuncTranslator} (live : s.deadCode = false) {l r : SSARef}
    (nonempty : l ≠ []) (nonempty' : r ≠ []) (cmpOp : FloatCmpOp) :
    Emits noFold (emitF64Cmp l r cmpOp) s [] fun dst s' => (∀ x ∈ dst, x.idx ≤ s'.count) ∧
      ∀ start, dst.map (s'.env noFold start) =
        [do return .pred (cmpOp.eval (← pairF64 (l.map (s.env noFold start)))
          (← pairF64 (r.map (s.env noFold start))))] := by
  have pair {vec : SSARef} (nonempty : vec ≠ []) : ∃ lo hi, vec[0]? = some lo ∧
      vec[if 2 ≤ vec.length then 1 else 0]? = some hi ∧ ∀ env : Env,
        env.getF64Src (srcVec [lo, hi]) = pairF64 (vec.map env) := by
    have positive := length_pos_iff.mpr nonempty
    have inside : (if 2 ≤ vec.length then 1 else 0) < vec.length := by split <;> omega
    refine ⟨_, _, getElem?_eq_getElem positive, getElem?_eq_getElem inside, ?_⟩
    intro env
    simp only [getF64Src_srcVec, pairF64, length_map, getElem?_map,
      getElem?_eq_getElem positive, getElem?_eq_getElem inside, Option.map_some,
      Option.join_some]
  rcases pair nonempty with ⟨lo, hi, isLo, isHi, value⟩
  rcases pair nonempty' with ⟨lo', hi', isLo', isHi', value'⟩
  refine .component_bind isLo (.component_bind isHi ?_)
  refine .component_bind isLo' (.component_bind isHi' ?_)
  refine (emitOp_emits live fun _ => rfl).bind ?_
  rintro dst s₁ - ⟨old, -, isDst⟩
  refine .pure ⟨by simpa using old, fun start => ?_⟩
  rw [map_cons, map_nil, isDst]
  refine congrArg (fun value => [value]) ?_
  show OpDSetP.fold _ _ = _
  simp [OpDSetP.fold, value, value', PredSetOp.eval]

/-- A comparison is of the first components. -/
theorem emitCmpComponentwise_emits {unit : FloatUnit} {f : SSAValue → SSAValue → EmitM SSAValue}
    (computes : Computes unit f g) {s : FuncTranslator} (live : s.deadCode = false) {l r : SSARef}
    (nonempty : l ≠ []) (nonempty' : r ≠ []) (allocated : ∀ x ∈ l, x.idx ≤ s.count)
    (allocated' : ∀ x ∈ r, x.idx ≤ s.count) :
    Emits unit (emitCmpComponentwise l r f) s [] fun dst s' => (∀ x ∈ dst, x.idx ≤ s'.count) ∧
      ∀ start, dst.map (s'.env unit start) =
        [g ((l.map (s.env unit start))[0]?).join ((r.map (s.env unit start))[0]?).join] := by
  rcases exists_cons_of_ne_nil nonempty with ⟨a, l, rfl⟩
  rcases exists_cons_of_ne_nil nonempty' with ⟨b, r, rfl⟩
  refine .component_bind (x := a) rfl (.component_bind (x := b) rfl ?_)
  refine (computes s a b live (allocated a mem_cons_self)
    (allocated' b mem_cons_self)).bind ?_
  rintro dst s₁ - ⟨old, value⟩
  refine .pure ⟨by simpa using old, fun start => ?_⟩
  rw [map_cons, map_nil, value]
  rfl

theorem translateLogical_emits {unit : FloatUnit} {emit : Src → Src → EmitM SSAValue}
    (computes : Computes unit (fun a b => emit (src a) (src b)) g) {s : FuncTranslator}
    (live : s.deadCode = false) {l r : SSARef} (nonempty : l ≠ []) (nonempty' : r ≠ [])
    (allocated : ∀ x ∈ l, x.idx ≤ s.count) (allocated' : ∀ x ∈ r, x.idx ≤ s.count) :
    Emits unit (translateLogical l r emit) s [] fun dst s' => (∀ x ∈ dst, x.idx ≤ s'.count) ∧
      ∀ start, dst.map (s'.env unit start) =
        [g ((l.map (s.env unit start))[0]?).join ((r.map (s.env unit start))[0]?).join] :=
  emitCmpComponentwise_emits computes live nonempty nonempty' allocated allocated'

/-! ## The operators -/

/-- An operand whose code has been emitted: a scalar or a vector. -/
structure Ready (s : FuncTranslator) (vec : SSARef) : Prop where
  nonempty : vec ≠ []
  small : vec.length ≤ 4
  allocated : ∀ x ∈ vec, x.idx ≤ s.count

/-- The code returns allocated values that hold `values`. -/
abbrev EmitsValues (unit : FloatUnit) (p : EmitM SSARef) (s : FuncTranslator)
    (values : Env → List (Option Value)) : Prop :=
  Emits unit p s [] fun dst s' =>
    (∀ x ∈ dst, x.idx ≤ s'.count) ∧ ∀ start, dst.map (s'.env unit start) = values start

section operators

variable {s : FuncTranslator} {l r : SSARef}

theorem componentwise_emits {unit : FloatUnit} {f : SSAValue → SSAValue → EmitM SSAValue}
    {g : Option Value → Option Value → Option Value} (computes : Computes unit f g)
    (live : s.deadCode = false) (left : Ready s l) (right : Ready s r) :
    EmitsValues unit (emitIntComponentwise (max l.length 1) l r f) s fun start =>
      eachValue g (l.map (s.env unit start)) (r.map (s.env unit start)) := by
  have small := left.small
  refine (emitComponentwise_emits computes live (by omega) (by omega) left.nonempty right.nonempty
    left.allocated right.allocated).mono (Subset.refl _) ?_
  rintro dst s' - ⟨old, values⟩
  refine ⟨old, fun start => ?_⟩
  rw [values]
  simp only [eachValue, length_map]

theorem arithmetic_emits {unit : FloatUnit} {onF64 : SSARef → SSARef → EmitM SSARef}
    {onFloat onInt : SSAValue → SSAValue → EmitM SSAValue}
    {g h : Option Value → Option Value → Option Value} (undefined : Undefined unit onF64)
    (floats : Computes unit onFloat g) (ints : Computes unit onInt h) (live : s.deadCode = false)
    (left : Ready s l) (right : Ready s r) (isFloat isF64 : Bool) :
    EmitsValues unit (translateArithmetic isFloat isF64 l r onF64 onFloat onInt) s fun start =>
      if isF64 then pairsValue (l.map (s.env unit start)) (r.map (s.env unit start))
      else eachValue (if isFloat then g else h) (l.map (s.env unit start))
        (r.map (s.env unit start)) := by
  unfold translateArithmetic
  cases isF64 with
  | true =>
    exact emitF64Componentwise_emits undefined live left.nonempty right.nonempty left.small
      right.small
  | false =>
    cases isFloat with
    | true => exact componentwise_emits floats live left right
    | false => exact componentwise_emits ints live left right

/-- The same values, written in another way. -/
theorem EmitsValues.congr {unit : FloatUnit} {p : EmitM SSARef}
    {values values' : Env → List (Option Value)} (emits : EmitsValues unit p s values)
    (same : ∀ start, values start = values' start) : EmitsValues unit p s values' :=
  emits.mono (Subset.refl _) fun _ _ _ holds =>
    ⟨holds.1, fun start => (holds.2 start).trans (same start)⟩

@[simp] theorem eachValue_none (l r : List (Option Value)) :
    eachValue (fun _ _ => none) l r = replicate (max l.length 1) none := by
  simp [eachValue, toGpr]

theorem comparison_emits (live : s.deadCode = false) (left : Ready s l) (right : Ready s r)
    (isFloat isF64 : Bool) (floatOp : FloatCmpOp) (intOp : IntCmpOp) :
    EmitsValues noFold (translateComparison isFloat isF64 l r floatOp intOp) s fun start =>
      comparisonValues isFloat isF64 floatOp intOp (l.map (s.env noFold start))
        (r.map (s.env noFold start)) := by
  unfold translateComparison comparisonValues
  cases isF64 with
  | true => exact emitF64Cmp_emits live left.nonempty right.nonempty floatOp
  | false =>
    cases isFloat with
    | true =>
      exact emitCmpComponentwise_emits (fSetP_computes floatOp) live left.nonempty right.nonempty
        left.allocated right.allocated
    | false =>
      exact emitCmpComponentwise_emits (iSetP_computes noFold intOp) live left.nonempty
        right.nonempty left.allocated right.allocated

/-- The code of a binary operator returns registers with the values of the operator. -/
theorem translateBinary_emits (live : s.deadCode = false) (left : Ready s l) (right : Ready s r)
    (op : BinaryOperator) (expr : Expression) :
    EmitsValues noFold (translateBinary op l r expr) s fun start =>
      binaryValues op (s.ctx.isFloatExpr expr) (s.ctx.isF64Expr expr)
        (l.map (s.env noFold start)) (r.map (s.env noFold start)) := by
  refine .get_bind (.get_bind ?_)
  have words {lut : BitVec 8 → BitVec 8 → BitVec 8 → BitVec 8} {op : LogicOp2}
      {h : BitVec 32 → BitVec 32 → BitVec 32}
      (computes : Computes noFold (fun a b => emitLop lut op (src a) (src b))
        (onWords fun x y => .word (h x y))) :=
    componentwise_emits computes live left right
  have logical {emit : Src → Src → EmitM SSAValue} {g : Bool → Bool → Bool}
      (computes : Computes noFold (fun a b => emit (src a) (src b)) (onPreds g)) :=
    translateLogical_emits computes live left.nonempty right.nonempty left.allocated
      right.allocated
  have silent {code : FloatCode} : ∀ srcs i, noFold code srcs i = none := fun _ _ => rfl
  have arithmetic {onF64 : SSARef → SSARef → EmitM SSARef}
      {onFloat onInt : SSAValue → SSAValue → EmitM SSAValue} {h : BitVec 32 → BitVec 32 → Value}
      (undefined : Undefined noFold onF64) (floats : Computes noFold onFloat fun _ _ => none)
      (ints : Computes noFold onInt (onWords h)) (isFloat isF64 : Bool) :
      EmitsValues noFold (translateArithmetic isFloat isF64 l r onF64 onFloat onInt) s fun start =>
        arithmeticValues isFloat isF64 h (l.map (s.env noFold start))
          (r.map (s.env noFold start)) := by
    refine (arithmetic_emits undefined floats ints live left right isFloat isF64).congr ?_
    intro start
    cases isFloat <;> simp [arithmeticValues]
  have division {onF64 : SSARef → SSARef → EmitM SSARef}
      {onFloat onInt : SSAValue → SSAValue → EmitM SSAValue}
      (undefined : Undefined noFold onF64) (floats : Computes noFold onFloat fun _ _ => none)
      (ints : Computes noFold onInt fun _ _ => none) (isFloat isF64 : Bool) :
      EmitsValues noFold (translateArithmetic isFloat isF64 l r onF64 onFloat onInt) s fun start =>
        if isF64 then pairsValue (l.map (s.env noFold start)) (r.map (s.env noFold start))
        else replicate (max (l.map (s.env noFold start)).length 1) none := by
    refine (arithmetic_emits undefined floats ints live left right isFloat isF64).congr ?_
    intro start
    rw [ite_self, eachValue_none]
  cases op with
  | add => exact arithmetic (pair_undefined silent) (fAdd_computes id) (iAdd_computes _) _ _
  | subtract => exact arithmetic (pair_undefined silent) (fAdd_computes fneg) (iSub_computes _) _ _
  | multiply => exact arithmetic (pair_undefined silent) fMul_computes (iMul_computes _) _ _
  | divide => exact division (f64Divide_undefined silent) floatDivide_computes divide_computes _ _
  | modulo => exact division (f64Modulo_undefined silent) floatModulo_computes modulo_computes _ _
  | and => exact words (lop_computes _ (fun x y => eval_newLut_and x y 0#32) fun _ _ => rfl)
  | inclusiveOr => exact words (lop_computes _ (fun x y => eval_newLut_or x y 0#32) fun _ _ => rfl)
  | exclusiveOr => exact words (lop_computes _ (fun x y => eval_newLut_xor x y 0#32) fun _ _ => rfl)
  | shiftLeft => exact componentwise_emits (shl_computes _) live left right
  | shiftRight => exact componentwise_emits (shr_computes _) live left right
  | equal => exact comparison_emits live left right _ _ _ _
  | notEqual => exact comparison_emits live left right _ _ _ _
  | less => exact comparison_emits live left right _ _ _ _
  | lessEqual => exact comparison_emits live left right _ _ _ _
  | greater => exact comparison_emits live left right _ _ _ _
  | greaterEqual => exact comparison_emits live left right _ _ _ _
  | logicalAnd
  | logicalOr => exact logical (logical_computes _ fun _ _ _ _ _ => by simp [PredSetOp.eval])

end operators

end NagaTranslate

end CoralReef
