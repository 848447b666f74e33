import CoralReef.Codegen.Ir.Fold
import CoralReef.Codegen.NagaTranslate.Types

/-!
# Emitting code for expressions

`FuncTranslator` (`naga_translate/func.rs`) as the translation of one expression sees it, and the
loops over components of `naga_translate/func_ops.rs`.
-/

namespace CoralReef.NagaTranslate

structure FuncTranslator where
  ctx : Context
  sm : Nat
  ssaAlloc : SSAValueAllocator := {}
  deadCode : Bool := false
  currentInstrs : List ValueOp := []

abbrev EmitM := StateT FuncTranslator (Except Fault)

/-- `Src::ZERO`. -/
def srcZero : Src := { reference := .zero }

/-- `Src::new_imm_u32`. -/
def newImmU32 (u : Nat) : Src := { reference := .imm32 u }

/-- `SrcRef::True.into()`. -/
def srcTrue : Src := { reference := .boolTrue }

/-- `SrcRef::False.into()`. -/
def srcFalse : Src := { reference := .boolFalse }

/-- `Src::from` a vector. -/
def srcVec (vec : SSARef) : Src := { reference := .ssa vec }

/-- `fneg` of an operand without modifiers. -/
def fneg (src : Src) : Src := { src with modifier := .fNeg }

/-- `fabs` of an operand without modifiers. -/
def fabs (src : Src) : Src := { src with modifier := .fAbs }

/-- `ineg` of an operand without modifiers. -/
def ineg (src : Src) : Src := { src with modifier := .iNeg }

/-- `bnot` of an operand without modifiers. -/
def bnot (src : Src) : Src := { src with modifier := .bNot }

/-- `alloc_ssa`. -/
def allocSsa (file : RegFile) : EmitM SSAValue := fun s =>
  let (ssa, ssaAlloc) := s.ssaAlloc.alloc file
  .ok (ssa, { s with ssaAlloc })

/-- `push_instr`. -/
def pushInstr (op : ValueOp) : EmitM Unit := fun s =>
  .ok ((), if s.deadCode then s else { s with currentInstrs := s.currentInstrs ++ [op] })

theorem pushInstr_run {s : FuncTranslator} (live : s.deadCode = false) (op : ValueOp) :
    pushInstr op s = .ok ((), { s with currentInstrs := s.currentInstrs ++ [op] }) := by
  unfold pushInstr
  rw [live]
  rfl

/-- `alloc_ssa_vec`. -/
def allocSsaVec (file : RegFile) (comps : Nat) : EmitM SSARef := fun s => do
  assertThat (0 < comps ∧ comps ≤ 16) "assertion failed: len > 0 && len <= Self::LARGE_SIZE"
  return ((List.range comps).map fun c => ⟨file, s.ssaAlloc.count + 1 + c⟩,
    { s with ssaAlloc := ⟨s.ssaAlloc.count + comps⟩ })

/-- A component of a vector. -/
def component (vec : SSARef) (c : Nat) : EmitM SSAValue :=
  StateT.lift (expect vec[c]? "index out of bounds")

/-- Allocate a value and compute it with one op. -/
def emitOp (file : RegFile) (op : SSAValue → ValueOp) : EmitM SSAValue := do
  let dst ← allocSsa file
  pushInstr (op dst)
  return dst

/-- Allocate a value and compute it with the op of the SM's family: `newer` from SM70 on. -/
def emitBySm (file : RegFile) (newer older : SSAValue → ValueOp) : EmitM SSAValue := do
  if 70 ≤ (← get).sm then emitOp file newer else emitOp file older

/-- Allocate a pair of words and compute it with one float op. -/
def emitPair (code : FloatCode) (srcs : List Src) : EmitM SSARef := do
  let dst ← allocSsaVec .gpr 2
  pushInstr (.float code (.ssa dst) srcs)
  return dst

def copyOp (dst : SSAValue) (src : Src) : ValueOp := .copy { dst := .ofSsa dst, src }

/-- `for c in 0..comps`. -/
def forComps : Nat → (Nat → EmitM Unit) → EmitM Unit
  | 0, _ => pure ()
  | comps + 1, body => do
    forComps comps body
    body comps

/-- A component, or the first where the vector has fewer. -/
def componentOrFirst (vec : SSARef) (c : Nat) : EmitM SSAValue :=
  component vec (if c < vec.length then c else 0)

/-- `emit_componentwise`. -/
def emitComponentwise (comps : Nat) (l r : SSARef) (f : SSAValue → SSAValue → EmitM SSAValue) :
    EmitM SSARef := do
  let dst ← allocSsaVec .gpr comps
  forComps comps fun c => do
    let lc ← componentOrFirst l c
    let rc ← componentOrFirst r c
    let result ← f lc rc
    pushInstr (copyOp (← component dst c) (.ofSsa result))
  return dst

/-- `emit_int_componentwise`. -/
def emitIntComponentwise (comps : Nat) (l r : SSARef)
    (f : SSAValue → SSAValue → EmitM SSAValue) : EmitM SSARef := emitComponentwise comps l r f

/-- The pair of an element, or the first component twice where the vector has none. -/
def elementPair (vec : SSARef) (e : Nat) : EmitM SSARef := do
  let elements := vec.length / 2
  let i := if 0 < elements then min e (elements - 1) * 2 else 0
  if i + 1 < vec.length then return [← component vec i, ← component vec (i + 1)]
  else return [← component vec 0, ← component vec 0]

/-- `emit_f64_componentwise`. -/
def emitF64Componentwise (l r : SSARef) (f : SSARef → SSARef → EmitM SSARef) : EmitM SSARef := do
  let total := max l.length r.length
  let total := if total % 2 ≠ 0 then total + 1 else total
  let nElements := total / 2
  if nElements = 1 ∧ 1 ≤ l.length / 2 ∧ 1 ≤ r.length / 2 then f l r
  else
    let dst ← allocSsaVec .gpr total
    forComps nElements fun e => do
      let lPair ← elementPair l e
      let rPair ← elementPair r e
      let result ← f lPair rPair
      pushInstr (copyOp (← component dst (e * 2)) (.ofSsa (← component result 0)))
      pushInstr (copyOp (← component dst (e * 2 + 1)) (.ofSsa (← component result 1)))
    return dst

/-- `emit_f64_cmp`. -/
def emitF64Cmp (l r : SSARef) (cmpOp : FloatCmpOp) : EmitM SSARef := do
  let lPair := [← component l 0, ← component l (if 2 ≤ l.length then 1 else 0)]
  let rPair := [← component r 0, ← component r (if 2 ≤ r.length then 1 else 0)]
  let dst ← emitOp .pred fun dst => .dSetP
    { dst := .ofSsa dst, setOp := .and, cmpOp, srcs := ![srcVec lPair, srcVec rPair, srcTrue] }
  return [dst]

/-- `emit_cmp_componentwise`. -/
def emitCmpComponentwise (l r : SSARef) (f : SSAValue → SSAValue → EmitM SSAValue) :
    EmitM SSARef := do
  let result ← f (← component l 0) (← component r 0)
  return [result]

/-- `emit_logic_and`. -/
def emitLogicAnd (dst : SSAValue) (a b : Src) : EmitM Unit := do
  if 70 ≤ (← get).sm then
    pushInstr (.lop3
      { dst := .ofSsa dst, srcs := ![a, b, srcZero], op := .newLut fun x y _ => x &&& y })
  else pushInstr (.lop2 { dst := .ofSsa dst, srcs := ![a, b], op := .and })

/-- `emit_logic_or`. -/
def emitLogicOr (dst : SSAValue) (a b : Src) : EmitM Unit := do
  if 70 ≤ (← get).sm then
    pushInstr (.lop3
      { dst := .ofSsa dst, srcs := ![a, b, srcZero], op := .newLut fun x y _ => x ||| y })
  else pushInstr (.lop2 { dst := .ofSsa dst, srcs := ![a, b], op := .or })

end CoralReef.NagaTranslate
