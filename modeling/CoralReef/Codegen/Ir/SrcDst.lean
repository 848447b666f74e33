import CoralReef.Misc.Fault

/-!
# Operands

`codegen/ssa_value.rs`, `codegen/ir/src_dst.rs`, `codegen/ir/src.rs` and `codegen/ir/pred.rs`:
SSA values and their allocator, source and destination operands, guard predicates. A vector
reference (`SSARef`) is the list it dereferences to. Value and phi numbers are unbounded: the
29-bit limit of the packed form is never reached by the passes' own allocations.
-/

namespace CoralReef

/-!
## Registers and labels

`codegen/ir/regs.rs`: register files, contiguous register references and branch labels.
-/

/-- A register file. -/
inductive RegFile where
  | gpr | ugpr | pred | upred | carry | bar | mem
  deriving DecidableEq, Repr

namespace RegFile

def isUniform : RegFile → Bool
  | .gpr | .pred | .carry | .bar | .mem => false
  | .ugpr | .upred => true

def isPredicate : RegFile → Bool
  | .gpr | .ugpr | .carry | .bar | .mem => false
  | .pred | .upred => true

/-- `u8::from(file)`, the number the file is packed and sorted by. -/
def toNat : RegFile → Nat
  | .gpr => 0 | .ugpr => 1 | .pred => 2 | .upred => 3 | .carry => 4 | .bar => 5 | .mem => 6

/-- The order in which `PerRegFile` stores and iterates the files. -/
def all : List RegFile := [.gpr, .ugpr, .pred, .upred, .carry, .bar, .mem]

end RegFile

/-- `RegRef::MAX_IDX`. -/
def RegRef.maxIdx : Nat := 2 ^ 26 - 1

theorem RegRef.one_le : 1 ≤ maxIdx := by decide

theorem RegRef.two_le : 2 ≤ maxIdx := by decide

theorem RegRef.three_le : 3 ≤ maxIdx := by decide

theorem RegRef.seven_le : 7 ≤ maxIdx := by decide

/-- A single register is in range. -/
theorem RegRef.single : 0 < 1 ∧ 1 ≤ 8 := by decide

/-- A reference to `comps` consecutive registers of one file. The bounds are those
`RegRef::new` asserts, so a reference that exists satisfies them. -/
structure RegRef where
  file : RegFile
  baseIdx : Nat
  comps : Nat
  base_le : baseIdx ≤ RegRef.maxIdx
  comps_range : 0 < comps ∧ comps ≤ 8
  deriving DecidableEq, Repr

namespace RegRef

/-- `RegRef::new`, which panics outside the packed ranges. -/
def new (file : RegFile) (baseIdx comps : Nat) : Except Fault RegRef :=
  if hb : baseIdx ≤ maxIdx then
    if hc : 0 < comps ∧ comps ≤ 8 then .ok ⟨file, baseIdx, comps, hb, hc⟩
    else .error (.panic "comps > 0 && comps <= 8")
  else .error (.panic "base_idx <= Self::MAX_IDX")

/-- `RegRef::comp`: the single register at `baseIdx + c`. -/
def comp (reg : RegRef) (c : Nat) : Except Fault RegRef := do
  assertThat (c < reg.comps) "c < self.comps()"
  new reg.file (reg.baseIdx + c) 1

theorem comp_eq_ok {reg single : RegRef} {c : Nat} :
    reg.comp c = .ok single ↔
      c < reg.comps ∧ single.file = reg.file ∧ single.baseIdx = reg.baseIdx + c ∧
        single.comps = 1 := by
  rcases single with ⟨file, baseIdx, comps, hb, hc⟩
  by_cases inside : c < reg.comps
  · by_cases bound : reg.baseIdx + c ≤ maxIdx
    · simp only [comp, inside, decide_true, assertThat_true, new, bound, dif_pos]
      constructor
      · intro h
        cases h
        exact ⟨trivial, rfl, rfl, rfl⟩
      · rintro ⟨-, rfl, rfl, rfl⟩
        rfl
    · simp only [comp, inside, decide_true, assertThat_true, new, bound, dif_neg, not_false_eq_true]
      constructor
      · intro h
        cases h
      · rintro ⟨-, rfl, rfl, rfl⟩
        exact absurd hb bound
  · simp only [comp, inside, decide_false]
    constructor
    · intro h
      cases h
    · rintro ⟨h, -⟩
      exact h.elim

/-- The machine location of a scalar reference. -/
def loc (reg : RegRef) : RegFile × Nat := (reg.file, reg.baseIdx)

theorem eq_of_loc {a b : RegRef} (ha : a.comps = 1) (hb : b.comps = 1) (h : a.loc = b.loc) :
    a = b := by
  rcases a with ⟨fa, ia, ca, pa, qa⟩
  rcases b with ⟨fb, ib, cb, pb, qb⟩
  simp only [loc, Prod.mk.injEq] at h
  simp only at ha hb
  obtain ⟨rfl, rfl⟩ := h
  subst ha
  subst hb
  rfl

end RegRef

/-- A branch label. -/
structure Label where
  idx : Nat
  deriving DecidableEq, Repr

/-- `LabelAllocator`. -/
structure LabelAllocator where
  count : Nat := 0
  deriving DecidableEq, Repr

def LabelAllocator.alloc (labels : LabelAllocator) : Label × LabelAllocator :=
  (⟨labels.count⟩, ⟨labels.count + 1⟩)

/-- An SSA value: its register file and its number. -/
structure SSAValue where
  file : RegFile
  idx : Nat
  deriving DecidableEq, Repr

abbrev SSARef := List SSAValue

/-- `SSAValueAllocator`: the number of the value allocated last. -/
structure SSAValueAllocator where
  count : Nat := 0
  deriving DecidableEq, Repr

def SSAValueAllocator.alloc (ssaAlloc : SSAValueAllocator) (file : RegFile) :
    SSAValue × SSAValueAllocator :=
  (⟨file, ssaAlloc.count + 1⟩, ⟨ssaAlloc.count + 1⟩)

/-- A phi: one merged 32-bit or 1-bit value, named on both sides of its CFG edges. -/
structure Phi where
  idx : Nat
  deriving DecidableEq, Repr

structure PhiAllocator where
  count : Nat := 0
  deriving DecidableEq, Repr

def PhiAllocator.alloc (phiAlloc : PhiAllocator) : Phi × PhiAllocator :=
  (⟨phiAlloc.count⟩, ⟨phiAlloc.count + 1⟩)

/-- Where an instruction writes. -/
inductive Dst where
  | none
  | ssa (vec : SSARef)
  | reg (reg : RegRef)
  deriving DecidableEq, Repr

namespace Dst

def asReg : Dst → Option RegRef
  | .reg r => some r
  | _ => Option.none

def asSsa : Dst → Option SSARef
  | .ssa vec => some vec
  | _ => Option.none

/-- `Dst::iter_ssa`. -/
def iterSsa : Dst → List SSAValue
  | .ssa vec => vec
  | _ => []

/-- `Dst::iter_ssa_mut` with the new values given in order. -/
def setSsa (dst : Dst) (vals : List SSAValue) : Dst :=
  match dst with
  | .ssa _ => .ssa vals
  | dst => dst

end Dst

/-- A constant buffer: bound to a slot, or addressed by a two-component handle. -/
inductive CBuf where
  | binding (idx : Nat)
  | bindlessSSA (lo hi : SSAValue)
  | bindlessUGPR (reg : RegRef)
  deriving DecidableEq, Repr

structure CBufRef where
  buf : CBuf
  offset : Nat
  deriving DecidableEq, Repr

/-- What a source operand names. `boolTrue` and `boolFalse` are `SrcRef::True` and
`SrcRef::False`. -/
inductive SrcRef where
  | zero
  | boolTrue
  | boolFalse
  | imm32 (u : Nat)
  | cbuf (cb : CBufRef)
  | ssa (vec : SSARef)
  | reg (reg : RegRef)
  deriving DecidableEq, Repr

namespace SrcRef

def asReg : SrcRef → Option RegRef
  | .reg r => some r
  | _ => Option.none

def asSsa : SrcRef → Option SSARef
  | .ssa vec => some vec
  | _ => Option.none

/-- `SrcRef::get_reg`: a register read directly or as a constant buffer handle. -/
def getReg : SrcRef → Option RegRef
  | .reg r => some r
  | .cbuf ⟨.bindlessUGPR r, _⟩ => some r
  | _ => Option.none

/-- `SrcRef::iter_ssa`. -/
def iterSsa : SrcRef → List SSAValue
  | .ssa vec => vec
  | .cbuf ⟨.bindlessSSA lo hi, _⟩ => [lo, hi]
  | _ => []

/-- `SrcRef::iter_ssa_mut` with the new values given in order. -/
def setSsa (src : SrcRef) (vals : List SSAValue) : SrcRef :=
  match src, vals with
  | .ssa _, vals => .ssa vals
  | .cbuf ⟨.bindlessSSA _ _, offset⟩, [lo, hi] => .cbuf ⟨.bindlessSSA lo hi, offset⟩
  | src, _ => src

end SrcRef

inductive SrcMod where
  | none | fAbs | fNeg | fNegAbs | iNeg | bNot
  deriving DecidableEq, Repr

inductive SrcSwizzle where
  | none | xx | yy
  deriving DecidableEq, Repr

/-- A source operand with its modifiers. -/
structure Src where
  reference : SrcRef
  modifier : SrcMod := .none
  swizzle : SrcSwizzle := .none
  deriving DecidableEq, Repr

namespace Src

/-- `Src::is_unmodified`. -/
def isUnmodified (src : Src) : Bool := src.modifier = .none ∧ src.swizzle = .none

/-- `Src::as_ssa`: the vector, when it is read as it is. -/
def asSsa (src : Src) : Option SSARef :=
  if src.isUnmodified then src.reference.asSsa else Option.none

/-- `Src::as_bool`. The source panics on an operand that is not boolean; a branch condition
always is. -/
def asBool (src : Src) : Option Bool :=
  match src.reference with
  | .boolTrue => some (src.modifier ≠ .bNot)
  | .boolFalse => some (src.modifier = .bNot)
  | _ => Option.none

def isTrue (src : Src) : Bool := src.asBool = some true

def iterSsa (src : Src) : List SSAValue := src.reference.iterSsa

def setSsa (src : Src) (vals : List SSAValue) : Src :=
  { src with reference := src.reference.setSsa vals }

/-- `Src::from(ssa)`. -/
def ofSsa (ssa : SSAValue) : Src := { reference := .ssa [ssa] }

def ofReg (reg : RegRef) : Src := { reference := .reg reg }

@[simp] theorem ofSsa_iterSsa (ssa : SSAValue) : (ofSsa ssa).iterSsa = [ssa] := rfl

end Src

/-- `Dst::from(ssa)`. -/
def Dst.ofSsa (ssa : SSAValue) : Dst := .ssa [ssa]

@[simp] theorem Dst.ofSsa_iterSsa (ssa : SSAValue) : (Dst.ofSsa ssa).iterSsa = [ssa] := rfl

/-- The guard an instruction is executed under. -/
inductive PredRef where
  | none
  | ssa (ssa : SSAValue)
  | reg (reg : RegRef)
  deriving DecidableEq, Repr

structure Pred where
  predicate : PredRef := .none
  inverted : Bool := false
  deriving DecidableEq, Repr

namespace Pred

def isTrue (pred : Pred) : Bool := pred.predicate = .none ∧ pred.inverted = false

def isFalse (pred : Pred) : Bool := pred.predicate = .none ∧ pred.inverted = true

def iterSsa (pred : Pred) : List SSAValue :=
  match pred.predicate with
  | .ssa ssa => [ssa]
  | _ => []

def setSsa (pred : Pred) (vals : List SSAValue) : Pred :=
  match pred.predicate, vals with
  | .ssa _, [ssa] => { pred with predicate := .ssa ssa }
  | _, _ => pred

end Pred

end CoralReef
