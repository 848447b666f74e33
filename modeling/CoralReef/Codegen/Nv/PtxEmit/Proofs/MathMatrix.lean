import Mathlib.LinearAlgebra.Matrix.NonsingularInverse
import CoralReef.Codegen.Nv.PtxEmit.MathMatrix

/-!
# The matrices that are emitted

Every instruction is read as the operation of a field.
-/

open List

namespace CoralReef.Ptx

open CoralReef.Straight Matrix

namespace FloatInstr

def dst : FloatInstr → Reg
  | mul dst .. | sub dst .. | add dst .. | rcp dst _ | neg dst _ => dst

/-- The exact result of an instruction. -/
def value {K : Type} [Field K] (env : Reg → K) : FloatInstr → K
  | mul _ a b => env a * env b
  | sub _ a b => env a - env b
  | add _ a b => env a + env b
  | rcp _ a => (env a)⁻¹
  | neg _ a => -env a

/-- The instructions, with exact results. -/
def machine (K : Type) [Field K] : Machine FloatInstr Reg K where
  writes := fun i => [i.dst]
  exec := fun i env => Function.update env i.dst (i.value env)
  frame := by
    intro i env r other
    exact Function.update_of_ne (fun same => other (List.mem_singleton.mpr same)) _ _

end FloatInstr

variable {K : Type} [Field K] {start : Reg → K} {s t : PtxEmitter FloatInstr}

/-- A scalar in a register. -/
abbrev HoldsScalar (start : Reg → K) (s : PtxEmitter FloatInstr) (val : PtxVal) (x : K) : Prop :=
  HoldsVal (FloatInstr.machine K) start s val x

abbrev EmitsFloat (K : Type) [Field K] {α : Type} (p : PtxM FloatInstr α)
    (s : PtxEmitter FloatInstr) (post : α → PtxEmitter FloatInstr → Prop) : Prop :=
  EmitsVal (FloatInstr.machine K) p s post

/-- Code is added that keeps the registers allocated before. -/
abbrev ExtendsFloat (K : Type) [Field K] (s t : PtxEmitter FloatInstr) : Prop :=
  Extends (FloatInstr.machine K) (emitter FloatInstr) s t

/-- The columns of a matrix. -/
def HoldsCols (start : Reg → K) (s : PtxEmitter FloatInstr) {rows cols : Nat}
    (vals : List PtxVal) (M : Matrix (Fin rows) (Fin cols) K) : Prop :=
  vals.length = cols ∧ ∀ c : Fin cols, ∃ elems, vals[c.val]? = some (.vec elems) ∧
    elems.length = rows ∧ ∀ r : Fin rows, ∃ val, elems[r.val]? = some val ∧
      HoldsScalar start s val (M r c)

/-- A matrix in registers. -/
def HoldsMatrix (start : Reg → K) (s : PtxEmitter FloatInstr) {rows cols : Nat} (val : PtxVal)
    (M : Matrix (Fin rows) (Fin cols) K) : Prop :=
  ∃ vals, val = .vec vals ∧ HoldsCols start s vals M

section rules

variable {rows cols : Nat} {vals : List PtxVal} {M : Matrix (Fin rows) (Fin cols) K}
  {a b : PtxVal} {x y : K}

theorem HoldsCols.mono (held : HoldsCols start s vals M) (more : ExtendsFloat K s t) :
    HoldsCols start t vals M := by
  refine ⟨held.1, fun c => ?_⟩
  rcases held.2 c with ⟨elems, isCol, length, each⟩
  refine ⟨elems, isCol, length, fun r => ?_⟩
  rcases each r with ⟨val, isElem, holds⟩
  exact ⟨val, isElem, holds.mono more⟩

theorem getMatElem_bind {β : Type} {q : PtxVal → PtxM FloatInstr β}
    {post : β → PtxEmitter FloatInstr → Prop} (held : HoldsCols start s vals M) (c : Fin cols)
    (r : Fin rows) (rest : ∀ val, HoldsScalar start s val (M r c) → EmitsFloat K (q val) s post) :
    EmitsFloat K (getMatElem vals c r >>= q) s post := by
  rcases held.2 c with ⟨elems, isCol, -, each⟩
  rcases each r with ⟨val, isElem, holds⟩
  have ran : getMatElem vals c r s = .ok (val, s) := by
    unfold getMatElem
    rw [isCol]
    show StateT.lift (expect elems[r.val]? _) s = _
    rw [isElem]
    rfl
  rcases rest val holds with ⟨b, t, ran', rest'⟩
  exact ⟨b, t, (run_bind ran).trans ran', rest'⟩

theorem emitFloat_emits (instr : Reg → FloatInstr) (isDst : ∀ r, (instr r).dst = r) :
    EmitsFloat K (emitFloat instr) s fun val t => HoldsScalar start t val
      ((instr (.r s.r32Next)).value (s.env (FloatInstr.machine K) start)) := by
  refine (allocR32_writeln start fun r => congrArg (fun r => [r]) (isDst r)).mono ?_
  intro val t _ holds
  have isResult : (FloatInstr.machine K).exec (instr (.r s.r32Next))
      (s.env (FloatInstr.machine K) start) (.r s.r32Next) =
        (instr (.r s.r32Next)).value (s.env (FloatInstr.machine K) start) := by
    show Function.update _ _ _ _ = _
    rw [isDst, Function.update_self]
  rwa [isResult] at holds

theorem emitFmul_emits (first : HoldsScalar start s a x) (second : HoldsScalar start s b y) :
    EmitsFloat K (emitFmul a b) s fun val t => HoldsScalar start t val (x * y) := by
  rcases first with ⟨r, isR, holds⟩
  rcases second with ⟨r', isR', holds'⟩
  refine operand_bind isR (operand_bind isR' ?_)
  rw [← holds.value, ← holds'.value]
  exact emitFloat_emits _ fun _ => rfl

theorem emitFsub_emits (first : HoldsScalar start s a x) (second : HoldsScalar start s b y) :
    EmitsFloat K (emitFsub a b) s fun val t => HoldsScalar start t val (x - y) := by
  rcases first with ⟨r, isR, holds⟩
  rcases second with ⟨r', isR', holds'⟩
  refine operand_bind isR (operand_bind isR' ?_)
  rw [← holds.value, ← holds'.value]
  exact emitFloat_emits _ fun _ => rfl

theorem emitFadd_emits (first : HoldsScalar start s a x) (second : HoldsScalar start s b y) :
    EmitsFloat K (emitFadd a b) s fun val t => HoldsScalar start t val (x + y) := by
  rcases first with ⟨r, isR, holds⟩
  rcases second with ⟨r', isR', holds'⟩
  refine operand_bind isR (operand_bind isR' ?_)
  rw [← holds.value, ← holds'.value]
  exact emitFloat_emits _ fun _ => rfl

theorem emitRcp_emits (first : HoldsScalar start s a x) :
    EmitsFloat K (emitRcp a) s fun val t => HoldsScalar start t val x⁻¹ := by
  rcases first with ⟨r, isR, holds⟩
  refine operand_bind isR ?_
  rw [← holds.value]
  exact emitFloat_emits _ fun _ => rfl

theorem emitNeg_emits (first : HoldsScalar start s a x) :
    EmitsFloat K (emitNeg a) s fun val t => HoldsScalar start t val (-x) := by
  rcases first with ⟨r, isR, holds⟩
  refine operand_bind isR ?_
  rw [← holds.value]
  exact emitFloat_emits _ fun _ => rfl

/-- A difference of two products. -/
theorem products_bind {β : Type} {c d : PtxVal} {z w : K} {q : PtxVal → PtxM FloatInstr β}
    {post : β → PtxEmitter FloatInstr → Prop} (first : HoldsScalar start s a x)
    (second : HoldsScalar start s b y) (third : HoldsScalar start s c z)
    (fourth : HoldsScalar start s d w)
    (rest : ∀ val t, ExtendsFloat K s t → HoldsScalar start t val (x * y - z * w) →
      EmitsFloat K (q val) t post) :
    EmitsFloat K (do
      let p ← emitFmul a b
      let n ← emitFmul c d
      let difference ← emitFsub p n
      q difference) s post := by
  refine (emitFmul_emits first second).bind ?_
  intro p t₁ e₁ isP
  refine (emitFmul_emits (third.mono e₁) (fourth.mono e₁)).bind ?_
  intro n t₂ e₂ isN
  refine (emitFsub_emits (isP.mono e₂) isN).bind ?_
  intro difference t₃ e₃ isDifference
  exact rest difference t₃ (e₁.trans (e₂.trans e₃)) isDifference

end rules

/-! ## Determinants -/

theorem emitDet2x2_emits {vals : List PtxVal} {M : Matrix (Fin 2) (Fin 2) K}
    (held : HoldsCols start s vals M) :
    EmitsFloat K (emitDet2x2 vals) s fun val t => HoldsScalar start t val M.det := by
  refine getMatElem_bind held 0 0 fun a isA => ?_
  refine getMatElem_bind held 1 0 fun b isB => ?_
  refine getMatElem_bind held 0 1 fun c isC => ?_
  refine getMatElem_bind held 1 1 fun d isD => ?_
  refine (emitFmul_emits isA isD).bind ?_
  intro ad t₁ e₁ isAd
  refine (emitFmul_emits (isB.mono e₁) (isC.mono e₁)).bind ?_
  intro bc t₂ e₂ isBc
  rw [det_fin_two]
  exact emitFsub_emits (isAd.mono e₂) isBc

theorem emitDet3x3_emits {vals : List PtxVal} {M : Matrix (Fin 3) (Fin 3) K}
    (held : HoldsCols start s vals M) :
    EmitsFloat K (emitDet3x3 vals) s fun val t => HoldsScalar start t val M.det := by
  refine getMatElem_bind held 0 0 fun a00 is00 => ?_
  refine getMatElem_bind held 1 0 fun a01 is01 => ?_
  refine getMatElem_bind held 2 0 fun a02 is02 => ?_
  refine getMatElem_bind held 0 1 fun a10 is10 => ?_
  refine getMatElem_bind held 1 1 fun a11 is11 => ?_
  refine getMatElem_bind held 2 1 fun a12 is12 => ?_
  refine getMatElem_bind held 0 2 fun a20 is20 => ?_
  refine getMatElem_bind held 1 2 fun a21 is21 => ?_
  refine getMatElem_bind held 2 2 fun a22 is22 => ?_
  refine products_bind is11 is22 is12 is21 fun m00 t₁ e₁ isM00 => ?_
  refine products_bind (is10.mono e₁) (is22.mono e₁) (is12.mono e₁) (is20.mono e₁)
    fun m01 t₂ e₂ isM01 => ?_
  have e₁₂ := e₁.trans e₂
  refine products_bind (is10.mono e₁₂) (is21.mono e₁₂) (is11.mono e₁₂) (is20.mono e₁₂)
    fun m02 t₃ e₃ isM02 => ?_
  have e₁₃ := e₁₂.trans e₃
  refine (emitFmul_emits (is00.mono e₁₃) (isM00.mono (e₂.trans e₃))).bind ?_
  intro p0 t₄ e₄ isP0
  refine (emitFmul_emits (is01.mono (e₁₃.trans e₄)) (isM01.mono (e₃.trans e₄))).bind ?_
  intro p1 t₅ e₅ isP1
  have e₄₅ := e₄.trans e₅
  refine (emitFmul_emits (is02.mono (e₁₃.trans e₄₅)) (isM02.mono e₄₅)).bind ?_
  intro p2 t₆ e₆ isP2
  refine (emitFsub_emits (isP0.mono (e₅.trans e₆)) (isP1.mono e₆)).bind ?_
  intro d01 t₇ e₇ isD01
  refine (emitFadd_emits isD01 (isP2.mono e₇)).mono ?_
  intro val t₈ _ holds
  convert holds using 1
  rw [det_fin_three]
  ring

/-! ## Minors -/

theorem forall₂_at {α β : Type} {R : α → β → Prop} {l : List α} {out : List β}
    (related : Forall₂ R l out) {k : Nat} {a : α} (isItem : l[k]? = some a) :
    ∃ b, out[k]? = some b ∧ R a b := by
  induction related generalizing k with
  | nil => cases isItem
  | cons here _ ih =>
    cases k with
    | zero =>
      cases isItem
      exact ⟨_, rfl, here⟩
    | succ k => exact ih isItem

theorem finRange_at {n : Nat} (i : Fin n) : (finRange n)[i.val]? = some i := by
  have inside : i.val < (finRange n).length := by
    rw [length_finRange]
    exact i.isLt
  rw [List.getElem?_eq_getElem inside, getElem_finRange]
  rfl

/-- Columns of what is emitted at each place. -/
theorem columns_emits {rows cols : Nat} {f : Fin cols → Fin rows → PtxM FloatInstr PtxVal}
    {N : Matrix (Fin rows) (Fin cols) K}
    (each : ∀ c r t, ExtendsFloat K s t →
      EmitsFloat K (f c r) t fun val w => HoldsScalar start w val (N r c)) :
    EmitsFloat K ((finRange cols).mapM fun c => do
      let column ← (finRange rows).mapM fun r => f c r
      return PtxVal.vec column) s fun out t => HoldsCols start t out N := by
  have column (c : Fin cols) (s' : PtxEmitter FloatInstr) (later : ExtendsFloat K s s') :
      EmitsFloat K (do
        let column ← (finRange rows).mapM fun r => f c r
        return PtxVal.vec column) s' fun val t => ∃ elems, val = .vec elems ∧
          Forall₂ (fun r val => HoldsScalar start t val (N r c)) (finRange rows) elems := by
    refine (Straight.Emits.mapM (fun _ t => ExtendsFloat K s t)
      (fun r val t => HoldsScalar start t val (N r c)) (fun more later => later.trans more)
      (fun more holds => holds.mono more) (fun {r t} later => each c r t later)
      fun _ _ => later).bind ?_
    intro elems t _ all
    exact .pure ⟨elems, rfl, all⟩
  refine (Straight.Emits.mapM (fun _ t => ExtendsFloat K s t) _ (fun more later => later.trans more) ?_
    (fun {c s'} later => column c s' later) fun _ _ => .refl s).mono ?_
  · rintro c val t t' more ⟨elems, isVec, all⟩
    exact ⟨elems, isVec, all.imp fun r val holds => holds.mono more⟩
  · intro out t _ all
    refine ⟨all.length_eq.symm.trans length_finRange, fun c => ?_⟩
    rcases forall₂_at all (finRange_at c) with ⟨_, isOut, elems, rfl, inner⟩
    refine ⟨elems, isOut, inner.length_eq.symm.trans length_finRange, fun r => ?_⟩
    exact forall₂_at inner (finRange_at r)

/-- The indices without one, in their order. -/
theorem range_without {n : Nat} (isSize : n = 2 ∨ n = 3) (excluded : Fin (n + 1)) :
    (range (n + 1)).filter (· ≠ excluded.val) =
      (finRange n).map fun k => (excluded.succAbove k).val := by
  rcases isSize with rfl | rfl <;> revert excluded <;> decide

theorem minorCols_emits {n : Nat} {vals : List PtxVal} {M : Matrix (Fin (n + 1)) (Fin (n + 1)) K}
    (isSize : n = 2 ∨ n = 3) (held : HoldsCols start s vals M) (excludeRow excludeCol : Fin (n + 1)) :
    EmitsFloat K (minorCols (n + 1) vals excludeRow excludeCol) s fun out t =>
      HoldsCols start t out (M.submatrix excludeRow.succAbove excludeCol.succAbove) := by
  unfold minorCols
  rw [range_without isSize excludeRow, range_without isSize excludeCol]
  simp only [mapM_map]
  refine columns_emits fun c r t later => ?_
  show EmitsFloat K (getMatElem vals (excludeCol.succAbove c) (excludeRow.succAbove r)) t _
  rw [← bind_pure (getMatElem vals _ _)]
  exact getMatElem_bind (held.mono later) (excludeCol.succAbove c) (excludeRow.succAbove r)
    fun val holds => .pure holds

section fourfold

variable {vals : List PtxVal} {M : Matrix (Fin 4) (Fin 4) K}

/-- A product of the expansion along the first row. -/
def detTerm (M : Matrix (Fin 4) (Fin 4) K) (j : Fin 4) : K :=
  M 0 j * (M.submatrix Fin.succ j.succAbove).det

theorem detProduct_bind {β : Type} {q : PtxVal → PtxM FloatInstr β}
    {post : β → PtxEmitter FloatInstr → Prop} (held : HoldsCols start s vals M) (j : Fin 4)
    (rest : ∀ val t, ExtendsFloat K s t → HoldsScalar start t val (detTerm M j) →
      EmitsFloat K (q val) t post) :
    EmitsFloat K (do
      let cofactorElem ← getMatElem vals j 0
      let minor ← emitDet3x3 (← minorCols 4 vals 0 j)
      let contrib ← emitFmul cofactorElem minor
      q contrib) s post := by
  refine getMatElem_bind held j 0 fun elem isElem => ?_
  refine (minorCols_emits (.inr rfl) held 0 j).bind ?_
  intro minor t₁ e₁ isMinor
  refine (emitDet3x3_emits isMinor).bind ?_
  intro det t₂ e₂ isDet
  refine (emitFmul_emits (isElem.mono (e₁.trans e₂)) isDet).bind ?_
  intro contrib t₃ e₃ isContrib
  exact rest contrib t₃ (e₁.trans (e₂.trans e₃)) isContrib

theorem detStep_first (held : HoldsCols start s vals M) (j : Fin 4) :
    EmitsFloat K (detStep vals none j) s fun result t => ∃ val, result = some val ∧
      HoldsScalar start t val (detTerm M j) :=
  detProduct_bind held j fun val _ _ holds => .pure ⟨val, rfl, holds⟩

theorem detStep_even (held : HoldsCols start s vals M) {j : Fin 4} (even : j.val % 2 = 0)
    {acc : PtxVal} {x : K} (isAcc : HoldsScalar start s acc x) :
    EmitsFloat K (detStep vals (some acc) j) s fun result t => ∃ val, result = some val ∧
      HoldsScalar start t val (x + detTerm M j) := by
  refine detProduct_bind held j fun contrib t more isContrib => ?_
  simp only [even, if_true]
  refine (emitFadd_emits (isAcc.mono more) isContrib).bind ?_
  intro val w _ holds
  exact .pure ⟨val, rfl, holds⟩

theorem detStep_odd (held : HoldsCols start s vals M) {j : Fin 4} (odd : ¬ j.val % 2 = 0)
    {acc : PtxVal} {x : K} (isAcc : HoldsScalar start s acc x) :
    EmitsFloat K (detStep vals (some acc) j) s fun result t => ∃ val, result = some val ∧
      HoldsScalar start t val (x - detTerm M j) := by
  refine detProduct_bind held j fun contrib t more isContrib => ?_
  simp only [odd, if_false]
  refine (emitFsub_emits (isAcc.mono more) isContrib).bind ?_
  intro val w _ holds
  exact .pure ⟨val, rfl, holds⟩

theorem det_terms (M : Matrix (Fin 4) (Fin 4) K) :
    M.det = detTerm M 0 - detTerm M 1 + detTerm M 2 - detTerm M 3 := by
  rw [det_succ_row_zero, Fin.sum_univ_four]
  simp only [detTerm, Fin.val_zero, Fin.val_one, Fin.val_two]
  have last : ((3 : Fin 4) : Nat) = 3 := rfl
  rw [last]
  ring

theorem emitDet4x4_emits (held : HoldsCols start s vals M) :
    EmitsFloat K (emitDet4x4 vals) s fun val t => HoldsScalar start t val M.det := by
  have steps : range 4 = [0, 1, 2, 3] := rfl
  unfold emitDet4x4
  rw [steps, foldlM_cons, bind_assoc]
  refine (detStep_first held 0).bind ?_
  rintro _ t₁ e₁ ⟨acc₀, rfl, is₀⟩
  rw [foldlM_cons, bind_assoc]
  refine (detStep_odd (held.mono e₁) (j := 1) (by decide) is₀).bind ?_
  rintro _ t₂ e₂ ⟨acc₁, rfl, is₁⟩
  rw [foldlM_cons, bind_assoc]
  refine (detStep_even (held.mono (e₁.trans e₂)) (j := 2) (by decide) is₁).bind ?_
  rintro _ t₃ e₃ ⟨acc₂, rfl, is₂⟩
  rw [foldlM_cons, bind_assoc]
  refine (detStep_odd (held.mono (e₁.trans (e₂.trans e₃))) (j := 3) (by decide) is₂).bind ?_
  rintro _ t₄ e₄ ⟨acc₃, rfl, is₃⟩
  rw [det_terms]
  exact .pure is₃

end fourfold

/-! ## Inverses -/

/-- An emitter of a determinant. -/
def EmitsDet (n : Nat) (emitDet : List PtxVal → PtxM FloatInstr PtxVal) : Prop :=
  ∀ (K : Type) [Field K] (start : Reg → K) (s : PtxEmitter FloatInstr) (vals : List PtxVal)
    (M : Matrix (Fin n) (Fin n) K), HoldsCols start s vals M →
      EmitsFloat K (emitDet vals) s fun val t => HoldsScalar start t val M.det

section inverse

variable {n : Nat} {vals : List PtxVal} {M : Matrix (Fin (n + 1)) (Fin (n + 1)) K}
variable {emitDet : List PtxVal → PtxM FloatInstr PtxVal}

/-- A cofactor is an element of the adjugate matrix, in the place of the other index. -/
theorem emitCofactor_emits (isSize : n = 2 ∨ n = 3) (isDet : EmitsDet n emitDet)
    (held : HoldsCols start s vals M) (row col : Fin (n + 1)) :
    EmitsFloat K (emitCofactor (n + 1) emitDet vals row col) s fun val t =>
      HoldsScalar start t val (M.adjugate col row) := by
  refine (minorCols_emits isSize held row col).bind ?_
  intro minor t₁ _ isMinor
  refine (isDet K start t₁ minor _ isMinor).bind ?_
  intro detMinor t₂ _ holds
  rw [adjugate_fin_succ_eq_det_submatrix]
  by_cases even : (row.val + col.val) % 2 = 0
  · rw [if_pos even, (Nat.even_iff.mpr even).neg_one_pow, one_mul]
    exact .pure holds
  · have odd : Odd (row.val + col.val) := Nat.odd_iff.mpr (by omega)
    rw [if_neg even, odd.neg_one_pow, neg_one_mul]
    exact emitNeg_emits holds

/-- The inverse is transposed. -/
theorem emitInverse_emits {emitCofactor : List PtxVal → Nat → Nat → PtxM FloatInstr PtxVal}
    (isDet : EmitsDet (n + 1) emitDet)
    (isCofactor : ∀ (t : PtxEmitter FloatInstr) (row col : Fin (n + 1)),
      HoldsCols start t vals M → EmitsFloat K (emitCofactor vals row col) t fun val w =>
        HoldsScalar start w val (M.adjugate col row)) (held : HoldsCols start s vals M) :
    EmitsFloat K (emitInverse (n + 1) emitDet emitCofactor vals) s fun val t =>
      HoldsMatrix start t val M⁻¹ᵀ := by
  refine (isDet K start s vals M held).bind ?_
  intro det t₁ e₁ holdsDet
  refine (emitRcp_emits holdsDet).bind ?_
  intro rcp t₂ e₂ isRcp
  have held₂ := held.mono (e₁.trans e₂)
  have isRange : range (n + 1) = (finRange (n + 1)).map Fin.val :=
    map_coe_finRange_eq_range.symm
  rw [isRange]
  simp only [mapM_map]
  have columns := @columns_emits K _ start t₂ (n + 1) (n + 1)
  refine (columns (N := M⁻¹ᵀ) fun c r t later => ?_).bind ?_
  · refine (isCofactor t r c (held₂.mono later)).bind ?_
    intro cofactor t₃ e₃ holds
    have isElem : M⁻¹ᵀ r c = M.adjugate c r * M.det⁻¹ := by
      rw [transpose_apply, inv_def, Ring.inverse_eq_inv', Matrix.smul_apply, smul_eq_mul, mul_comm]
    rw [isElem]
    exact emitFmul_emits holds (isRcp.mono (later.trans e₃))
  · intro out t₃ _ holds
    exact .pure ⟨out, rfl, holds⟩

end inverse

theorem emitInverse2x2_emits {vals : List PtxVal} {M : Matrix (Fin 2) (Fin 2) K}
    (held : HoldsCols start s vals M) :
    EmitsFloat K (emitInverse2x2 vals) s fun val t => HoldsMatrix start t val M⁻¹ := by
  refine getMatElem_bind held 0 0 fun a isA => ?_
  refine getMatElem_bind held 1 0 fun b isB => ?_
  refine getMatElem_bind held 0 1 fun c isC => ?_
  refine getMatElem_bind held 1 1 fun d isD => ?_
  refine (emitDet2x2_emits held).bind ?_
  intro det t₁ e₁ isDet
  refine (emitRcp_emits isDet).bind ?_
  intro rcp t₂ e₂ isRcp
  have e₁₂ := e₁.trans e₂
  refine (emitNeg_emits (isB.mono e₁₂)).bind ?_
  intro negB t₃ e₃ isNegB
  refine (emitNeg_emits (isC.mono (e₁₂.trans e₃))).bind ?_
  intro negC t₄ e₄ isNegC
  have e₃₄ := e₃.trans e₄
  refine (emitFmul_emits (isD.mono (e₁₂.trans e₃₄)) (isRcp.mono e₃₄)).bind ?_
  intro r00 t₅ e₅ is00
  refine (emitFmul_emits (isNegB.mono (e₄.trans e₅)) (isRcp.mono (e₃₄.trans e₅))).bind ?_
  intro r01 t₆ e₆ is01
  have e₅₆ := e₅.trans e₆
  refine (emitFmul_emits (isNegC.mono e₅₆) (isRcp.mono (e₃₄.trans e₅₆))).bind ?_
  intro r10 t₇ e₇ is10
  have e₃₇ := e₃₄.trans (e₅₆.trans e₇)
  refine (emitFmul_emits (isA.mono (e₁₂.trans e₃₇)) (isRcp.mono e₃₇)).bind ?_
  intro r11 t₈ e₈ is11
  have isInverse : M⁻¹ = !![M 1 1 * M.det⁻¹, -M 0 1 * M.det⁻¹; -M 1 0 * M.det⁻¹,
      M 0 0 * M.det⁻¹] := by
    rw [inv_def, Ring.inverse_eq_inv', adjugate_fin_two]
    ext i j
    fin_cases i <;> fin_cases j <;> simp [mul_comm]
  rw [isInverse]
  refine .pure ⟨_, rfl, rfl, ?_⟩
  have h00 := is00.mono (e₆.trans (e₇.trans e₈))
  have h01 := is01.mono (e₇.trans e₈)
  have h10 := is10.mono e₈
  intro col
  fin_cases col
  · refine ⟨_, rfl, rfl, fun row => ?_⟩
    fin_cases row
    · exact ⟨_, rfl, h00⟩
    · exact ⟨_, rfl, h10⟩
  · refine ⟨_, rfl, rfl, fun row => ?_⟩
    fin_cases row
    · exact ⟨_, rfl, h01⟩
    · exact ⟨_, rfl, is11⟩

/-! ## The builtins -/

/-- The element of a row in each column. -/
theorem row_emits {rows cols : Nat} {vals : List PtxVal} {M : Matrix (Fin rows) (Fin cols) K}
    (held : HoldsCols start s vals M) (r : Fin rows) :
    EmitsFloat K (vals.mapM fun col => match col with
      | .vec elems => StateT.lift (expect elems[r.val]? "index out of bounds")
      | scalar => pure scalar) s fun row t => row.length = cols ∧
        ∀ c : Fin cols, ∃ val, row[c.val]? = some val ∧ HoldsScalar start t val (M r c) := by
  refine (Straight.Emits.mapM (fun col t => (∃ c : Fin cols, vals[c.val]? = some col) ∧
      HoldsCols start t vals M)
    (fun col val t => ∀ c : Fin cols, vals[c.val]? = some col → HoldsScalar start t val (M r c))
    ?_ ?_ ?_ ?_).mono ?_
  · rintro col t t' more ⟨isCol, held⟩
    exact ⟨isCol, held.mono more⟩
  · intro col val t t' more holds c isCol
    exact (holds c isCol).mono more
  · rintro col t ⟨⟨c, isCol⟩, held⟩
    rcases held.2 c with ⟨elems, isVec, -, each⟩
    rcases each r with ⟨val, isElem, -⟩
    cases isCol.symm.trans isVec
    refine ⟨val, t, ?_, .refl t, ?_⟩
    · show StateT.lift (expect elems[r.val]? _) t = _
      rw [isElem]
      rfl
    · intro c' isCol'
      rcases held.2 c' with ⟨elems', isVec', -, each'⟩
      cases isCol'.symm.trans isVec'
      rcases each' r with ⟨val', isElem', holds⟩
      cases isElem.symm.trans isElem'
      exact holds
  · intro col member
    rcases List.getElem?_of_mem member with ⟨c, isCol⟩
    refine ⟨⟨⟨c, ?_⟩, isCol⟩, held⟩
    rw [← held.1]
    exact (List.getElem?_eq_some_iff.mp isCol).1
  · intro row t _ all
    refine ⟨all.length_eq.symm.trans held.1, fun c => ?_⟩
    rcases held.2 c with ⟨elems, isVec, -⟩
    rcases forall₂_at all isVec with ⟨val, isVal, holds⟩
    exact ⟨val, isVal, holds c isVec⟩

theorem emitTranspose_emits {rows cols : Nat} (positive : 0 < cols) {arg : PtxVal}
    {M : Matrix (Fin rows) (Fin cols) K} (held : HoldsMatrix start s arg M) :
    EmitsFloat K (emitTranspose arg) s fun val t => HoldsMatrix start t val Mᵀ := by
  rcases held with ⟨vals, rfl, held⟩
  rcases held.2 ⟨0, positive⟩ with ⟨elems, isFirst, isRows, -⟩
  have first : expect vals[0]? "index out of bounds" = .ok (.vec elems) := by
    rw [isFirst]
    rfl
  refine .lift_bind first ?_
  have isRange : range elems.length = (finRange rows).map Fin.val := by
    rw [isRows]
    exact map_coe_finRange_eq_range.symm
  simp only [isRange, mapM_map]
  refine (Straight.Emits.mapM (fun _ t => HoldsCols start t vals M)
    (fun (r : Fin rows) val t => ∃ row, val = .vec row ∧ row.length = cols ∧
      ∀ c : Fin cols, ∃ val, row[c.val]? = some val ∧ HoldsScalar start t val (M r c))
    (fun more held => held.mono more) ?_ ?_ fun _ _ => held).bind ?_
  · rintro r val t t' more ⟨row, isVec, length, each⟩
    refine ⟨row, isVec, length, fun c => ?_⟩
    rcases each c with ⟨val, isElem, holds⟩
    exact ⟨val, isElem, holds.mono more⟩
  · intro r t held
    refine (row_emits held r).bind ?_
    intro row t' _ holds
    exact .pure ⟨row, rfl, holds⟩
  · intro out t _ all
    refine .pure ⟨out, rfl, all.length_eq.symm.trans length_finRange, fun r => ?_⟩
    rcases forall₂_at all (finRange_at r) with ⟨_, isOut, row, rfl, length, each⟩
    exact ⟨row, isOut, length, each⟩

theorem emitDeterminant_emits {n : Nat} (isSize : n = 2 ∨ n = 3 ∨ n = 4) {arg : PtxVal}
    {M : Matrix (Fin n) (Fin n) K} (held : HoldsMatrix start s arg M) :
    EmitsFloat K (emitDeterminant arg) s fun val t => HoldsScalar start t val M.det := by
  rcases held with ⟨vals, rfl, held⟩
  unfold emitDeterminant
  simp only [held.1]
  rcases isSize with rfl | rfl | rfl
  · exact emitDet2x2_emits held
  · exact emitDet3x3_emits held
  · exact emitDet4x4_emits held

/-- The inverse of a matrix of two columns, and of more columns its transposed inverse. -/
theorem emitMatrixInverse_emits {n : Nat} (isSize : n = 2 ∨ n = 3 ∨ n = 4) {arg : PtxVal}
    {M : Matrix (Fin n) (Fin n) K} (held : HoldsMatrix start s arg M) :
    EmitsFloat K (emitMatrixInverse arg) s fun val t =>
      HoldsMatrix start t val (if n = 2 then M⁻¹ else M⁻¹ᵀ) := by
  rcases held with ⟨vals, rfl, held⟩
  unfold emitMatrixInverse
  simp only [held.1]
  have det2 : EmitsDet 2 emitDet2x2 := fun _ _ _ _ _ _ held => emitDet2x2_emits held
  have det3 : EmitsDet 3 emitDet3x3 := fun _ _ _ _ _ _ held => emitDet3x3_emits held
  have det4 : EmitsDet 4 emitDet4x4 := fun _ _ _ _ _ _ held => emitDet4x4_emits held
  rcases isSize with rfl | rfl | rfl
  · exact emitInverse2x2_emits held
  · exact emitInverse_emits det3
      (fun t row col held => emitCofactor_emits (.inl rfl) det2 held row col) held
  · exact emitInverse_emits det4
      (fun t row col held => emitCofactor_emits (.inr rfl) det3 held row col) held

/-- Registers hold one matrix. -/
theorem HoldsMatrix.unique {rows cols : Nat} {val : PtxVal} {M N : Matrix (Fin rows) (Fin cols) K}
    (first : HoldsMatrix start s val M) (second : HoldsMatrix start s val N) : M = N := by
  rcases first with ⟨vals, rfl, held⟩
  rcases second with ⟨_, same, held'⟩
  cases same
  ext r c
  rcases held.2 c with ⟨elems, isVec, -, each⟩
  rcases held'.2 c with ⟨_, isVec', -, each'⟩
  cases isVec.symm.trans isVec'
  rcases each r with ⟨val, isElem, reg, isReg, holds⟩
  rcases each' r with ⟨_, isElem', reg', isReg', holds'⟩
  cases isElem.symm.trans isElem'
  cases isReg.symm.trans isReg'
  exact holds.value.symm.trans holds'.value

/-- The code of `inverse` leaves a matrix whose products with the operand are the identity. -/
def InverseMeets (start : Reg → K) (s : PtxEmitter FloatInstr) {n : Nat} (arg : PtxVal)
    (M : Matrix (Fin n) (Fin n) K) : Prop :=
  EmitsFloat K (emitMatrixInverse arg) s fun val t =>
    ∃ R : Matrix (Fin n) (Fin n) K, HoldsMatrix start t val R ∧ M * R = 1 ∧ R * M = 1

theorem inverseMeets_iff {n : Nat} (isSize : n = 2 ∨ n = 3 ∨ n = 4) {arg : PtxVal}
    {M : Matrix (Fin n) (Fin n) K} (held : HoldsMatrix start s arg M) (isUnit : M.det ≠ 0) :
    InverseMeets start s arg M ↔ n = 2 ∨ M.IsSymm := by
  have emits := emitMatrixInverse_emits isSize held
  have unit : IsUnit M.det := isUnit.isUnit
  constructor
  · rintro ⟨val, t, ran, -, R, holds, product, -⟩
    rcases emits with ⟨val', t', ran', -, holds'⟩
    cases ran.symm.trans ran'
    have isResult := holds.unique holds'
    by_cases two : n = 2
    · exact .inl two
    · rw [if_neg two] at isResult
      have isInverse : M⁻¹ = R := inv_eq_right_inv product
      refine .inr ?_
      have symmetric : M⁻¹ᵀ = M⁻¹ := isResult.symm.trans isInverse.symm
      rw [transpose_nonsing_inv] at symmetric
      exact inv_inj symmetric (by rwa [det_transpose])
  · intro right
    refine emits.mono fun val t _ holds => ⟨_, holds, ?_⟩
    have isInverse : (if n = 2 then M⁻¹ else M⁻¹ᵀ) = M⁻¹ := by
      rcases right with two | symmetric
      · exact if_pos two
      · rw [transpose_nonsing_inv, symmetric.eq, ite_self]
    rw [isInverse]
    exact ⟨mul_nonsing_inv M unit, nonsing_inv_mul M unit⟩

/-- The transposed matrix and the determinant are right; the inverse is for two columns and for
symmetric matrices. -/
theorem matrixBuiltins_correct_iff (start : Reg → Rat) (s : PtxEmitter FloatInstr) (arg : PtxVal) :
    (∀ (rows cols : Nat) (M : Matrix (Fin rows) (Fin cols) Rat), 0 < cols →
      HoldsMatrix start s arg M →
        EmitsFloat Rat (emitTranspose arg) s fun val t => HoldsMatrix start t val Mᵀ) ∧
    (∀ (n : Nat) (M : Matrix (Fin n) (Fin n) Rat), n = 2 ∨ n = 3 ∨ n = 4 →
      HoldsMatrix start s arg M →
        EmitsFloat Rat (emitDeterminant arg) s fun val t => HoldsScalar start t val M.det) ∧
    (∀ (n : Nat) (M : Matrix (Fin n) (Fin n) Rat), n = 2 ∨ n = 3 ∨ n = 4 →
      HoldsMatrix start s arg M → M.det ≠ 0 →
        (InverseMeets start s arg M ↔ n = 2 ∨ M.IsSymm)) :=
  ⟨fun _ _ _ positive held => emitTranspose_emits positive held,
    fun _ _ isSize held => emitDeterminant_emits isSize held,
    fun _ _ isSize held isUnit => inverseMeets_iff isSize held isUnit⟩

/-- The registers of a square matrix, column after column. -/
def squareVal (n : Nat) : PtxVal :=
  .vec ((List.range n).map fun c => .vec ((List.range n).map fun r => .r32 (c * n + r)))

theorem squareVal_holds (n : Nat) (start : Reg → K) :
    HoldsMatrix start { r32Next := n * n } (squareVal n)
      (Matrix.of fun r c : Fin n => start (.r (c * n + r))) := by
  refine ⟨_, rfl, by simp, fun c => ⟨(range n).map fun r => .r32 (c * n + r), ?_, ?_,
    fun r => ⟨.r32 (c * n + r), ?_, .r (c * n + r), rfl, ?_, rfl⟩⟩⟩
  · rw [List.getElem?_map, List.getElem?_range c.isLt]
    rfl
  · simp
  · rw [List.getElem?_map, List.getElem?_range r.isLt]
    rfl
  · show c * n + r < n * n
    calc c * n + r < c * n + n := Nat.add_lt_add_left r.isLt _
      _ = (c + 1) * n := (Nat.succ_mul c.val n).symm
      _ ≤ n * n := Nat.mul_le_mul_right n c.isLt

/-- The elements of a matrix of two columns. -/
def twoColumns : Reg → Rat
  | .r 0 => 1
  | .r 1 => 3
  | .r 2 => 2
  | .r 3 => 4
  | _ => 0

theorem matrixBuiltins_correct_twoColumns :
    (EmitsFloat Rat (emitTranspose (squareVal 2)) { r32Next := 4 } fun val t =>
        HoldsMatrix twoColumns t val (Matrix.of fun r c : Fin 2 => twoColumns (.r (c * 2 + r)))ᵀ) ∧
      (EmitsFloat Rat (emitDeterminant (squareVal 2)) { r32Next := 4 } fun val t =>
        HoldsScalar twoColumns t val
          (Matrix.of fun r c : Fin 2 => twoColumns (.r (c * 2 + r))).det) ∧
      InverseMeets twoColumns { r32Next := 4 } (squareVal 2)
        (Matrix.of fun r c : Fin 2 => twoColumns (.r (c * 2 + r))) := by
  have held := squareVal_holds 2 twoColumns
  rcases matrixBuiltins_correct_iff twoColumns { r32Next := 4 } (squareVal 2) with
    ⟨transposes, determines, inverts⟩
  have isUnit : (Matrix.of fun r c : Fin 2 => twoColumns (.r (c * 2 + r))).det ≠ 0 := by
    rw [det_fin_two]
    show (1 : Rat) * 4 - 2 * 3 ≠ 0
    norm_num
  exact ⟨transposes 2 2 _ two_pos held, determines 2 _ (.inl rfl) held,
    (inverts 2 _ (.inl rfl) held isUnit).mpr (.inl rfl)⟩

/-- The elements of the matrix that adds the second row to the first. -/
def shear : Reg → Rat
  | .r 0 | .r 3 | .r 4 | .r 8 => 1
  | _ => 0

/-- The inverse of a shear is emitted transposed. -/
theorem emitMatrixInverse_shear_fails :
    (Matrix.of fun r c : Fin 3 => shear (.r (c * 3 + r))).det ≠ 0 ∧
      HoldsMatrix shear { r32Next := 9 } (squareVal 3)
        (Matrix.of fun r c : Fin 3 => shear (.r (c * 3 + r))) ∧
      ¬ InverseMeets shear { r32Next := 9 } (squareVal 3)
        (Matrix.of fun r c : Fin 3 => shear (.r (c * 3 + r))) := by
  have held := squareVal_holds 3 shear
  have isUnit : (Matrix.of fun r c : Fin 3 => shear (.r (c * 3 + r))).det ≠ 0 := by
    rw [det_fin_three]
    show (1 : Rat) * 1 * 1 - 1 * 0 * 0 - 1 * 0 * 1 + 1 * 0 * 0 + 0 * 0 * 0 - 0 * 1 * 0 ≠ 0
    norm_num
  refine ⟨isUnit, held, ?_⟩
  rw [inverseMeets_iff (.inr (.inl rfl)) held isUnit]
  rintro (never | symmetric)
  · exact absurd never (by decide)
  · have same : (0 : Rat) = 1 := symmetric.apply 0 1
    exact absurd same (by norm_num)

end CoralReef.Ptx
