import Mathlib.Data.Matrix.Basic
import CoralReef.Codegen.Nv.PtxEmit.Values

/-!
# Matrix builtins

`codegen/nv/ptx_emit/math_matrix.rs`. A matrix is a vector of its columns.
-/

namespace CoralReef.Ptx

/-- The instructions of the matrix builtins. -/
inductive FloatInstr where
  | mul (dst a b : Reg)
  | sub (dst a b : Reg)
  | add (dst a b : Reg)
  | rcp (dst a : Reg)
  | neg (dst a : Reg)
  deriving DecidableEq, Repr

/-- `emit_transpose`. -/
def emitTranspose (arg : PtxVal) : PtxM FloatInstr PtxVal :=
  match arg with
  | .vec cols => do
    let first ← StateT.lift (expect cols[0]? "index out of bounds")
    let nrows := match first with
      | .vec r => r.length
      | _ => 1
    let resultCols ← (List.range nrows).mapM fun r => do
      let row ← cols.mapM fun col => match col with
        | .vec elems => StateT.lift (expect elems[r]? "index out of bounds")
        | scalar => pure scalar
      return PtxVal.vec row
    return .vec resultCols
  | _ => return arg

/-- `get_mat_elem`. -/
def getMatElem (cols : List PtxVal) (col row : Nat) : PtxM FloatInstr PtxVal := do
  match ← StateT.lift (expect cols[col]? "index out of bounds") with
  | .vec elems => StateT.lift (expect elems[row]? "index out of bounds")
  | scalar => return scalar

/-- An instruction with a new register for its result. -/
def emitFloat (instr : Reg → FloatInstr) : PtxM FloatInstr PtxVal := do
  let dst ← allocR32
  writeln (instr (← operand dst))
  return dst

/-- `emit_fmul`. -/
def emitFmul (a b : PtxVal) : PtxM FloatInstr PtxVal := do
  let a ← operand a
  let b ← operand b
  emitFloat (.mul · a b)

/-- `emit_fsub`. -/
def emitFsub (a b : PtxVal) : PtxM FloatInstr PtxVal := do
  let a ← operand a
  let b ← operand b
  emitFloat (.sub · a b)

/-- `emit_fadd`. -/
def emitFadd (a b : PtxVal) : PtxM FloatInstr PtxVal := do
  let a ← operand a
  let b ← operand b
  emitFloat (.add · a b)

/-- `rcp.approx.f32`. -/
def emitRcp (a : PtxVal) : PtxM FloatInstr PtxVal := do
  let a ← operand a
  emitFloat (.rcp · a)

/-- `neg.f32`. -/
def emitNeg (a : PtxVal) : PtxM FloatInstr PtxVal := do
  let a ← operand a
  emitFloat (.neg · a)

/-- `emit_det2x2`. -/
def emitDet2x2 (cols : List PtxVal) : PtxM FloatInstr PtxVal := do
  let a ← getMatElem cols 0 0
  let b ← getMatElem cols 1 0
  let c ← getMatElem cols 0 1
  let d ← getMatElem cols 1 1
  let ad ← emitFmul a d
  let bc ← emitFmul b c
  emitFsub ad bc

/-- `emit_det3x3`. -/
def emitDet3x3 (cols : List PtxVal) : PtxM FloatInstr PtxVal := do
  let a00 ← getMatElem cols 0 0
  let a01 ← getMatElem cols 1 0
  let a02 ← getMatElem cols 2 0
  let a10 ← getMatElem cols 0 1
  let a11 ← getMatElem cols 1 1
  let a12 ← getMatElem cols 2 1
  let a20 ← getMatElem cols 0 2
  let a21 ← getMatElem cols 1 2
  let a22 ← getMatElem cols 2 2
  let m00P ← emitFmul a11 a22
  let m00N ← emitFmul a12 a21
  let m00 ← emitFsub m00P m00N
  let m01P ← emitFmul a10 a22
  let m01N ← emitFmul a12 a20
  let m01 ← emitFsub m01P m01N
  let m02P ← emitFmul a10 a21
  let m02N ← emitFmul a11 a20
  let m02 ← emitFsub m02P m02N
  let t0 ← emitFmul a00 m00
  let t1 ← emitFmul a01 m01
  let t2 ← emitFmul a02 m02
  let d01 ← emitFsub t0 t1
  emitFadd d01 t2

/-- The columns of a matrix of `n` columns and rows without one of each. -/
def minorCols (n : Nat) (cols : List PtxVal) (excludeRow excludeCol : Nat) :
    PtxM FloatInstr (List PtxVal) :=
  ((List.range n).filter (· ≠ excludeCol)).mapM fun c => do
    let minorCol ← ((List.range n).filter (· ≠ excludeRow)).mapM fun r => getMatElem cols c r
    return PtxVal.vec minorCol

/-- An iteration of the loop of `emit_det4x4`, with the sum of those before. -/
def detStep (cols : List PtxVal) (result : Option PtxVal) (j : Nat) :
    PtxM FloatInstr (Option PtxVal) := do
  let cofactorElem ← getMatElem cols j 0
  let minor ← emitDet3x3 (← minorCols 4 cols 0 j)
  let contrib ← emitFmul cofactorElem minor
  match result with
  | none => return some contrib
  | some acc =>
    if j % 2 = 0 then return some (← emitFadd acc contrib)
    else return some (← emitFsub acc contrib)

/-- `emit_det4x4`. -/
def emitDet4x4 (cols : List PtxVal) : PtxM FloatInstr PtxVal := do
  let result ← (List.range 4).foldlM (detStep cols) none
  StateT.lift (expect result "4x4 matrix has columns")

/-- `emit_inverse2x2`. -/
def emitInverse2x2 (cols : List PtxVal) : PtxM FloatInstr PtxVal := do
  let a ← getMatElem cols 0 0
  let b ← getMatElem cols 1 0
  let c ← getMatElem cols 0 1
  let d ← getMatElem cols 1 1
  let det ← emitDet2x2 cols
  let rcp ← emitRcp det
  let negB ← emitNeg b
  let negC ← emitNeg c
  let r00 ← emitFmul d rcp
  let r01 ← emitFmul negB rcp
  let r10 ← emitFmul negC rcp
  let r11 ← emitFmul a rcp
  return .vec [.vec [r00, r10], .vec [r01, r11]]

/-- A cofactor of a matrix of `n` columns, with the determinant of its minors. -/
def emitCofactor (n : Nat) (emitDet : List PtxVal → PtxM FloatInstr PtxVal) (cols : List PtxVal)
    (excludeRow excludeCol : Nat) : PtxM FloatInstr PtxVal := do
  let detMinor ← emitDet (← minorCols n cols excludeRow excludeCol)
  if (excludeRow + excludeCol) % 2 = 0 then return detMinor
  else emitNeg detMinor

/-- `emit_cofactor3x3`. -/
def emitCofactor3x3 : List PtxVal → Nat → Nat → PtxM FloatInstr PtxVal := emitCofactor 3 emitDet2x2

/-- `emit_cofactor4x4`. -/
def emitCofactor4x4 : List PtxVal → Nat → Nat → PtxM FloatInstr PtxVal := emitCofactor 4 emitDet3x3

/-- The inverse of a matrix of `n` columns, with its determinant and cofactors. -/
def emitInverse (n : Nat) (emitDet : List PtxVal → PtxM FloatInstr PtxVal)
    (emitCofactor : List PtxVal → Nat → Nat → PtxM FloatInstr PtxVal) (cols : List PtxVal) :
    PtxM FloatInstr PtxVal := do
  let rcp ← emitRcp (← emitDet cols)
  let resultCols ← (List.range n).mapM fun col => do
    let resultRow ← (List.range n).mapM fun row => do
      emitFmul (← emitCofactor cols row col) rcp
    return PtxVal.vec resultRow
  return .vec resultCols

/-- `emit_inverse3x3`. -/
def emitInverse3x3 : List PtxVal → PtxM FloatInstr PtxVal := emitInverse 3 emitDet3x3 emitCofactor3x3

/-- `emit_inverse4x4`. -/
def emitInverse4x4 : List PtxVal → PtxM FloatInstr PtxVal := emitInverse 4 emitDet4x4 emitCofactor4x4

/-- `emit_determinant`. -/
def emitDeterminant (arg : PtxVal) : PtxM FloatInstr PtxVal :=
  match arg with
  | .vec cols =>
    match cols.length with
    | 2 => emitDet2x2 cols
    | 3 => emitDet3x3 cols
    | 4 => emitDet4x4 cols
    | n => throw (.compileError s!"determinant for {n}x{n} matrix")
  | _ => return arg

/-- `emit_matrix_inverse`. -/
def emitMatrixInverse (arg : PtxVal) : PtxM FloatInstr PtxVal :=
  match arg with
  | .vec cols =>
    match cols.length with
    | 2 => emitInverse2x2 cols
    | 3 => emitInverse3x3 cols
    | 4 => emitInverse4x4 cols
    | n => throw (.compileError s!"inverse for {n}x{n} matrix")
  | _ => throw (.compileError "inverse of non-matrix")

end CoralReef.Ptx
