import CoralReef.Codegen.Ir.SrcDst
import Mathlib.Data.Fin.VecNotation

/-!
# ALU ops

`codegen/ir/types/cmp.rs`, `types/scalar.rs` and the op structs of `ir/op_int`, `ir/op_float` and
`ir/op_shuffle.rs` that more than one pass or encoder matches on. Sources and destinations are
functions of their number, as the arrays of the source are.
-/

namespace CoralReef

inductive PredSetOp where
  | and | or | xor
  deriving DecidableEq, Repr

inductive IntCmpOp where
  | «false» | «true» | eq | ne | lt | le | gt | ge
  deriving DecidableEq, Repr

inductive IntCmpType where
  | u32 | i32
  deriving DecidableEq, Repr

def IntCmpType.isSigned : IntCmpType → Bool
  | .u32 => false
  | .i32 => true

inductive FloatCmpOp where
  | ordEq | ordNe | ordLt | ordLe | ordGt | ordGe
  | unordEq | unordNe | unordLt | unordLe | unordGt | unordGe
  | isNum | isNan
  deriving DecidableEq, Repr

inductive FRndMode where
  | nearestEven | negInf | posInf | zero
  deriving DecidableEq, Repr

inductive FloatType where
  | f16 | f32 | f64
  deriving DecidableEq, Repr

inductive IntType where
  | u8 | i8 | u16 | i16 | u32 | i32 | u64 | i64
  deriving DecidableEq, Repr

inductive LogicOp2 where
  | and | or | xor | passB
  deriving DecidableEq, Repr

/-- A truth table of three inputs: bit `4 * x + 2 * y + z` is the result. -/
structure LogicOp3 where
  lut : BitVec 8
  deriving DecidableEq, Repr

namespace LogicOp3

/-- `SRC_MASKS`: the truth tables of the inputs. -/
def srcMasks : Fin 3 → BitVec 8 := ![0xf0, 0xcc, 0xaa]

/-- `LogicOp3::new_lut`. -/
def newLut (f : BitVec 8 → BitVec 8 → BitVec 8 → BitVec 8) : LogicOp3 :=
  ⟨f (srcMasks 0) (srcMasks 1) (srcMasks 2)⟩

end LogicOp3

structure OpIAdd3 where
  dsts : Fin 3 → Dst
  srcs : Fin 3 → Src

structure OpISetP where
  dst : Dst
  setOp : PredSetOp
  cmpOp : IntCmpOp
  cmpType : IntCmpType
  ex : Bool
  srcs : Fin 4 → Src

structure OpLop3 where
  dst : Dst
  srcs : Fin 3 → Src
  op : LogicOp3

structure OpPLop3 where
  dsts : Fin 2 → Dst
  srcs : Fin 3 → Src
  ops : Fin 2 → LogicOp3

structure OpSel where
  dst : Dst
  srcs : Fin 3 → Src

namespace LogicOp3

/-!
## Truth tables of three inputs

The operations of `LogicOp3` in `codegen/ir/types/cmp.rs`, and what they do to the table.
-/

/-- `SRC_MASKS[src_idx].trailing_zeros()`. -/
def srcShift : Fin 3 → Nat := ![4, 2, 1]

def newConst (val : Bool) : LogicOp3 := ⟨if val then 0xff else 0⟩

/-- `LogicOp3::src_used`. -/
def srcUsed (op : LogicOp3) (i : Fin 3) : Bool :=
  op.lut &&& ~~~srcMasks i ≠ (op.lut >>> srcShift i) &&& ~~~srcMasks i

/-- `LogicOp3::fix_src`. -/
def fixSrc (op : LogicOp3) (i : Fin 3) (val : Bool) : LogicOp3 :=
  if val then
    let tBits := op.lut &&& srcMasks i
    ⟨tBits ||| (tBits >>> srcShift i)⟩
  else
    let fBits := op.lut &&& ~~~srcMasks i
    ⟨(fBits <<< srcShift i) ||| fBits⟩

/-- `LogicOp3::invert_src`. -/
def invertSrc (op : LogicOp3) (i : Fin 3) : LogicOp3 :=
  let tBits := op.lut &&& srcMasks i
  let fBits := op.lut &&& ~~~srcMasks i
  ⟨(fBits <<< srcShift i) ||| (tBits >>> srcShift i)⟩

/-- `LogicOp3::eval`, on words of any width. -/
def eval {w : Nat} (op : LogicOp3) (x y z : BitVec w) : BitVec w :=
  let row (i : Nat) (term : BitVec w) : BitVec w := if op.lut.getLsbD i then term else 0
  row 0 (~~~x &&& ~~~y &&& ~~~z) ||| row 1 (~~~x &&& ~~~y &&& z) |||
    row 2 (~~~x &&& y &&& ~~~z) ||| row 3 (~~~x &&& y &&& z) |||
    row 4 (x &&& ~~~y &&& ~~~z) ||| row 5 (x &&& ~~~y &&& z) |||
    row 6 (x &&& y &&& ~~~z) ||| row 7 (x &&& y &&& z)

/-- The row of the table for an input. -/
def rowOf (v : Fin 3 → Bool) : Nat := 4 * (v 0).toNat + 2 * (v 1).toNat + (v 2).toNat

/-- The entry of the table for an input. -/
def result (op : LogicOp3) (v : Fin 3 → Bool) : Bool := op.lut.getLsbD (rowOf v)

theorem rowOf_lt (v : Fin 3 → Bool) : rowOf v < 8 := by
  unfold rowOf
  cases v 0 <;> cases v 1 <;> cases v 2 <;> decide

/-- The masks are the tables of the inputs. -/
theorem getLsbD_srcMasks (i : Fin 3) (v : Fin 3 → Bool) : (srcMasks i).getLsbD (rowOf v) = v i := by
  unfold rowOf
  cases h₀ : v 0 <;> cases h₁ : v 1 <;> cases h₂ : v 2 <;>
    match i with
    | 0 => rw [h₀]; rfl
    | 1 => rw [h₁]; rfl
    | 2 => rw [h₂]; rfl

/-- The table applied bit by bit. -/
theorem getLsbD_eval {w : Nat} (op : LogicOp3) (s : Fin 3 → BitVec w) {i : Nat} (inside : i < w) :
    (op.eval (s 0) (s 1) (s 2)).getLsbD i = op.result fun j => (s j).getLsbD i := by
  have row (c : Bool) (term : BitVec w) :
      (if c then term else 0).getLsbD i = (c && term.getLsbD i) := by
    cases c <;> simp
  simp only [eval, result, rowOf, BitVec.getLsbD_or, row, BitVec.getLsbD_and, BitVec.getLsbD_not,
    inside, decide_true, Bool.true_and]
  cases (s 0).getLsbD i <;> cases (s 1).getLsbD i <;> cases (s 2).getLsbD i <;> simp

/-- A table made by a function that works bit by bit. -/
theorem result_newLut {f : BitVec 8 → BitVec 8 → BitVec 8 → BitVec 8} {g : (Fin 3 → Bool) → Bool}
    (bitwise : ∀ x y z i, i < 8 →
      (f x y z).getLsbD i = g ![x.getLsbD i, y.getLsbD i, z.getLsbD i]) (v : Fin 3 → Bool) :
    (newLut f).result v = g v := by
  refine (bitwise _ _ _ _ (rowOf_lt v)).trans (congrArg g ?_)
  funext i
  match i with
  | 0 => exact getLsbD_srcMasks 0 v
  | 1 => exact getLsbD_srcMasks 1 v
  | 2 => exact getLsbD_srcMasks 2 v

theorem input_eq (v : Fin 3 → Bool) : v = ![v 0, v 1, v 2] := by
  funext i
  match i with
  | 0 => rfl
  | 1 => rfl
  | 2 => rfl

/-- Fixing an input looks the table up with that value in its place. -/
theorem result_fixSrc (op : LogicOp3) (i : Fin 3) (b : Bool) (v : Fin 3 → Bool) :
    (op.fixSrc i b).result v = op.result (Function.update v i b) := by
  rw [input_eq v]
  match i with
  | 0 => cases b <;> cases v 0 <;> cases v 1 <;> cases v 2 <;>
      simp [result, rowOf, fixSrc, srcMasks, srcShift]
  | 1 => cases b <;> cases v 0 <;> cases v 1 <;> cases v 2 <;>
      simp [result, rowOf, fixSrc, srcMasks, srcShift]
  | 2 => cases b <;> cases v 0 <;> cases v 1 <;> cases v 2 <;>
      simp [result, rowOf, fixSrc, srcMasks, srcShift]

theorem result_invertSrc (op : LogicOp3) (i : Fin 3) (v : Fin 3 → Bool) :
    (op.invertSrc i).result v = op.result (Function.update v i !v i) := by
  rw [input_eq v]
  match i with
  | 0 => cases v 0 <;> cases v 1 <;> cases v 2 <;>
      simp [result, rowOf, invertSrc, srcMasks, srcShift]
  | 1 => cases v 0 <;> cases v 1 <;> cases v 2 <;>
      simp [result, rowOf, invertSrc, srcMasks, srcShift]
  | 2 => cases v 0 <;> cases v 1 <;> cases v 2 <;>
      simp [result, rowOf, invertSrc, srcMasks, srcShift]

/-- The result does not depend on an input that is not used. -/
def Ignores (op : LogicOp3) (i : Fin 3) : Prop :=
  ∀ v b, op.result (Function.update v i b) = op.result v

theorem ignores_of_not_srcUsed {op : LogicOp3} {i : Fin 3} (unused : op.srcUsed i = false) :
    op.Ignores i := by
  have same : op.lut &&& ~~~srcMasks i = (op.lut >>> srcShift i) &&& ~~~srcMasks i := by
    simpa [srcUsed] using unused
  have rows (v : Fin 3 → Bool) : op.result (Function.update v i true) =
      op.result (Function.update v i false) := by
    have row := congrArg (fun lut => lut.getLsbD (rowOf (Function.update v i false))) same
    rw [input_eq v] at row ⊢
    match i with
    | 0 => cases h₁ : v 1 <;> cases h₂ : v 2 <;>
        simpa [result, rowOf, srcMasks, srcShift, h₁, h₂] using row.symm
    | 1 => cases h₀ : v 0 <;> cases h₂ : v 2 <;>
        simpa [result, rowOf, srcMasks, srcShift, h₀, h₂] using row.symm
    | 2 => cases h₀ : v 0 <;> cases h₁ : v 1 <;>
        simpa [result, rowOf, srcMasks, srcShift, h₀, h₁] using row.symm
  have any (v : Fin 3 → Bool) (b : Bool) : op.result (Function.update v i b) =
      op.result (Function.update v i false) := by
    cases b
    · rfl
    · exact rows v
  intro v b
  rw [any v b, ← any v (v i), Function.update_eq_self]

/-- A table whose input has been fixed ignores it. -/
theorem ignores_fixSrc (op : LogicOp3) (i : Fin 3) (b : Bool) : (op.fixSrc i b).Ignores i := by
  intro v b'
  rw [result_fixSrc, result_fixSrc, Function.update_idem]

/-- Fixing an input leaves the others ignored that were. -/
theorem Ignores.fixSrc {op : LogicOp3} {i j : Fin 3} (ignores : op.Ignores i) (b : Bool) :
    (op.fixSrc j b).Ignores i := by
  intro v b'
  rw [result_fixSrc, result_fixSrc]
  by_cases same : i = j
  · rw [same, Function.update_idem]
  · rw [Function.update_comm same, ignores]

end LogicOp3

end CoralReef
