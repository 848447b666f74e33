import CoralReef.Codegen.Ir.Instr
import CoralReef.Codegen.Amd.Operands

/-!
# Resource bindings

The expressions of `naga_translate` that reach a bound resource: a global variable
(`naga_translate/expr.rs`) and the length of an array (`naga_translate/func_ops.rs`). Both read
words that the driver puts into a constant buffer or, on AMD, into user SGPRs. Products of `u32`
wrap around, as they do in a release build.
-/

namespace CoralReef.NagaTranslate

/-- `naga::ResourceBinding`. -/
structure ResourceBinding where
  group : Nat
  binding : Nat
  deriving DecidableEq, Repr

/-- The bytes from one binding to the next. -/
def bindingStride (isAmd : Bool) : Nat := if isAmd then 8 else 16

/-- The constant buffer of a binding's group, at `plus` bytes past the start of the binding. -/
def bindingCBuf (isAmd : Bool) (rb : ResourceBinding) (plus : Nat) : CBufRef :=
  { buf := .binding (rb.group % 2 ^ 8)
    offset := (rb.binding * bindingStride isAmd + plus) % 2 ^ 32 % 2 ^ 16 }

/-- The case of a global variable in `ensure_expr`: its address, read in two halves. -/
def translateGlobalVariable (isAmd : Bool) (binding : Option ResourceBinding)
    (ssaAlloc : SSAValueAllocator) : SSARef × List Instr × SSAValueAllocator :=
  match binding with
  | some rb =>
    let (lo, ssaAlloc) := ssaAlloc.alloc .gpr
    let (hi, ssaAlloc) := ssaAlloc.alloc .gpr
    let cbuf := bindingCBuf isAmd rb 0
    let cbufHi := { cbuf with offset := cbuf.offset + 4 }
    ([lo, hi],
      [.new (.copy (.ofSsa lo) { reference := .cbuf cbuf }),
        .new (.copy (.ofSsa hi) { reference := .cbuf cbufHi })],
      ssaAlloc)
  | none =>
    let (dst, ssaAlloc) := ssaAlloc.alloc .gpr
    ([dst], [.new (.undef (.ofSsa dst))], ssaAlloc)

/-- An op with one destination that no modelled pass matches on. -/
def aluOp (name : String) (dst : SSAValue) (srcs : List Src) : Instr :=
  .new (.other ⟨name, true⟩ [.ofSsa dst] srcs)

/-- `translate_array_length`, of a global variable with this binding whose elements are
`elementStride` bytes apart: the size of the buffer, divided in single precision. -/
def translateArrayLength (isAmd : Bool) (binding : Option ResourceBinding) (elementStride : Nat)
    (ssaAlloc : SSAValueAllocator) :
    Except Fault (SSARef × List Instr × SSAValueAllocator) :=
  match binding with
  | none => .error (.compileError "arrayLength on unbound global")
  | some rb =>
    let cbuf := bindingCBuf isAmd rb 8
    let (bufSize, ssaAlloc) := ssaAlloc.alloc .gpr
    let sizeCopy := Instr.new (.copy (.ofSsa bufSize) { reference := .cbuf cbuf })
    if elementStride = 1 then .ok ([bufSize], [sizeCopy], ssaAlloc)
    else
      let (strideVal, ssaAlloc) := ssaAlloc.alloc .gpr
      let (fa, ssaAlloc) := ssaAlloc.alloc .gpr
      let (fb, ssaAlloc) := ssaAlloc.alloc .gpr
      let (rcp, ssaAlloc) := ssaAlloc.alloc .gpr
      let (quotF, ssaAlloc) := ssaAlloc.alloc .gpr
      let (dst, ssaAlloc) := ssaAlloc.alloc .gpr
      .ok ([dst],
        [sizeCopy, .new (.copy (.ofSsa strideVal) { reference := .imm32 elementStride }),
          aluOp "I2F" fa [.ofSsa bufSize], aluOp "I2F" fb [.ofSsa strideVal],
          aluOp "Transcendental" rcp [.ofSsa fb], aluOp "FMul" quotF [.ofSsa fa, .ofSsa rcp],
          aluOp "F2I" dst [.ofSsa quotF]],
        ssaAlloc)

/-- What a shader asks of a resource. -/
inductive ResourceAccess where
  | address (rb : ResourceBinding)
  | arrayLength (rb : ResourceBinding) (elementStride : Nat)
  deriving DecidableEq, Repr

def ResourceAccess.resource : ResourceAccess → ResourceBinding
  | .address rb => rb
  | .arrayLength rb _ => rb

/-- The instructions that an access is translated to. -/
def ResourceAccess.translate (isAmd : Bool) (access : ResourceAccess)
    (ssaAlloc : SSAValueAllocator) :
    Except Fault (SSARef × List Instr × SSAValueAllocator) :=
  match access with
  | .address rb => .ok (translateGlobalVariable isAmd (some rb) ssaAlloc)
  | .arrayLength rb elementStride => translateArrayLength isAmd (some rb) elementStride ssaAlloc

/-- The constant buffer that a source reads. -/
def srcCBuf (src : Src) : Option CBufRef :=
  match src.reference with
  | .cbuf cb => some cb
  | _ => none

/-- The constant buffers that instructions read. -/
def cbufsRead (instrs : List Instr) : List CBufRef :=
  (instrs.flatMap Instr.srcs).filterMap srcCBuf

/-- The word that a constant buffer stands for: one of its slot, or on AMD a user SGPR. -/
def cbufWord (isAmd : Bool) (cb : CBufRef) : Except Fault (Nat × Nat) :=
  if isAmd then do
    let sgpr ← Amd.cbufToUserSgprEncoding cb.buf cb.offset
    return (0, sgpr)
  else match cb.buf with
    | .binding idx => .ok (idx, cb.offset / 4)
    | _ => .error (.compileError "bindless constant buffer")

end CoralReef.NagaTranslate
