import CoralReef.Codegen.Ir.SrcDst
import Mathlib.Data.Nat.Bitwise

/-!
# Packed SSA values and references

`codegen/ssa_value.rs`. A value is packed into one word that is not zero, and a reference keeps its
values in an array of 4 or 32 slots, whose last slot says how many there are where it is not
needed for a value.
-/

namespace CoralReef

/-- `RegFile::try_from`. -/
def RegFile.tryFrom : Nat → Option RegFile
  | 0 => some .gpr
  | 1 => some .ugpr
  | 2 => some .pred
  | 3 => some .upred
  | 4 => some .carry
  | 5 => some .bar
  | 6 => some .mem
  | _ => none

/-- `NonZeroU32`. -/
structure NonZeroU32 where
  get : Nat
  bounds : 0 < get ∧ get < 2 ^ 32
  deriving DecidableEq

/-- `NonZeroU32::try_from`, for a word. -/
def NonZeroU32.tryFrom (word : Nat) : Option NonZeroU32 :=
  if bounds : 0 < word ∧ word < 2 ^ 32 then some ⟨word, bounds⟩ else none

/-- `NonZeroU32::MAX`. -/
def NonZeroU32.max : NonZeroU32 := ⟨2 ^ 32 - 1, by decide⟩

/-- `u32::wrapping_neg`. -/
def wrappingNeg (word : Nat) : Nat := (2 ^ 32 - word) % 2 ^ 32

/-- The packed form of `SSAValue`. -/
structure PackedSSAValue where
  packed : NonZeroU32
  deriving DecidableEq

namespace PackedSSAValue

/-- `SSARef::SMALL_SIZE`. -/
def smallSize : Nat := 4

/-- `SSARef::LARGE_SIZE`. -/
def largeSize : Nat := 32

/-- `SSAValue::new`. -/
def new (file : RegFile) (idx : Nat) : Except Fault PackedSSAValue := do
  assertThat (0 < idx ∧ idx < 2 ^ 29 - largeSize)
    "idx > 0 && idx < (1 << 29) - u32::try_from(SSARef::LARGE_SIZE)"
  assertThat (file.toNat < 8) "u8::from(file) < 8"
  let packed ← expect (NonZeroU32.tryFrom (idx ||| file.toNat <<< 29)) "SSAValue packed overflow"
  return { packed }

def idx (ssa : PackedSSAValue) : Nat := ssa.packed.get &&& 0x1fffffff

/-- `HasRegFile::file` of a value. -/
def file (ssa : PackedSSAValue) : Except Fault RegFile :=
  expect (RegFile.tryFrom (ssa.packed.get >>> 29)) "SSAValue file overflow"

/-- The check of one more value of a slice. -/
def checkFile (found : RegFile) (other : PackedSSAValue) : Except Fault Unit := do
  let file ← other.file
  if file ≠ found then .error (.panic "Illegal mix of RegFiles") else return

/-- `HasRegFile::file` of a slice. -/
def fileOf (comps : List PackedSSAValue) : Except Fault RegFile := do
  let first ← expect comps.head? "index out of bounds"
  let found ← first.file
  forM comps.tail (checkFile found)
  return found

end PackedSSAValue

/-- `size` slots for values. -/
structure SSAValueArray (size : Nat) where
  v : List PackedSSAValue
  length : v.length = size
  deriving DecidableEq

namespace SSAValueArray

variable {size : Nat}

/-- `SSAValueArray::new`. -/
def new (comps : List PackedSSAValue) : Except Fault (SSAValueArray size) :=
  if fits : comps ≠ [] ∧ comps.length ≤ size then
    let r := comps ++ List.replicate (size - comps.length) ⟨NonZeroU32.max⟩
    if comps.length < size then do
      let packed ← expect (NonZeroU32.tryFrom (wrappingNeg (comps.length % 2 ^ 32)))
        "SSAValueArray packed overflow"
      return ⟨r.set (size - 1) ⟨packed⟩, by simp [r]; omega⟩
    else return ⟨r, by simp [r]; omega⟩
  else .error (.panic "!comps.is_empty() && comps.len() <= SIZE")

/-- `SSAValueArray::comps`. An array has a slot, and no more than 255. -/
def comps (r : SSAValueArray size) : Nat :=
  match r.v[size - 1]? with
  | some last =>
    if last.packed.get ≥ 2 ^ 32 - 1 - (size - 1) then wrappingNeg last.packed.get % 2 ^ 8 else size
  | none => size

/-- `SSAValueArray::deref`. -/
def deref (r : SSAValueArray size) : List PackedSSAValue := r.v.take r.comps

/-- A write through `SSAValueArray::deref_mut`. -/
def set (r : SSAValueArray size) (i : Nat) (ssa : PackedSSAValue) :
    Except Fault (SSAValueArray size) :=
  if i < r.comps then return ⟨r.v.set i ssa, by rw [List.length_set]; exact r.length⟩
  else .error (.panic "index out of bounds")

end SSAValueArray

/-- The packed form of `SSARef`. -/
inductive PackedSSARef where
  | small (x : SSAValueArray PackedSSAValue.smallSize)
  | large (x : SSAValueArray PackedSSAValue.largeSize)
  deriving DecidableEq

namespace PackedSSARef

open PackedSSAValue

/-- `SSARef::new`. -/
def new (comps : List PackedSSAValue) : Except Fault PackedSSARef :=
  if comps.length > smallSize then return .large (← SSAValueArray.new comps)
  else return .small (← SSAValueArray.new comps)

/-- `SSARef::from_iter`. -/
def fromIter (it : List PackedSSAValue) : Except Fault PackedSSARef := do
  assertThat (it.length > 0 ∧ it.length ≤ largeSize) "len > 0 && len <= Self::LARGE_SIZE"
  let v := (List.range largeSize).map fun i => it.getD i ⟨NonZeroU32.max⟩
  new (v.take it.length)

/-- `SSARef::try_from` of a slice or a vector. -/
def tryFrom (comps : List PackedSSAValue) : Except Fault (Except String PackedSSARef) :=
  if comps = [] then return .error "Empty vector"
  else if comps.length > largeSize then return .error "Too many vector components"
  else return .ok (← new comps)

def comps : PackedSSARef → Nat
  | .small x => x.comps
  | .large x => x.comps

def deref : PackedSSARef → List PackedSSAValue
  | .small x => x.deref
  | .large x => x.deref

/-- A write through `SSARef::deref_mut`. -/
def set (ref : PackedSSARef) (i : Nat) (ssa : PackedSSAValue) : Except Fault PackedSSARef :=
  match ref with
  | .small x => return .small (← x.set i ssa)
  | .large x => return .large (← x.set i ssa)

/-- `HasRegFile::file` of a reference. -/
def file (ref : PackedSSARef) : Except Fault RegFile := PackedSSAValue.fileOf ref.deref

end PackedSSARef

end CoralReef
