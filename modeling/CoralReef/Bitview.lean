import CoralReef.Misc.BitFields
import CoralReef.Misc.Fault

/-!
# Bit views

Fields of a buffer of 32-bit words, as the instruction encoders write them: one range, one value
split over two ranges, and a view that starts inside a larger buffer. The build is a parameter:
with debug assertions arithmetic that overflows panics, without them it wraps and a shift amount
is taken modulo the width.
-/

namespace CoralReef.Bitview

/-- A `usize`. -/
abbrev Usize := {n : Nat // n < 2 ^ 64}

/-- `a + b` of a build. -/
def Usize.add (debug : Bool) (a b : Usize) : Except Fault Usize :=
  if fits : a.1 + b.1 < 2 ^ 64 then .ok ⟨a.1 + b.1, fits⟩
  else if debug then .error (.panic "attempt to add with overflow")
  else .ok ⟨(a.1 + b.1) % 2 ^ 64, Nat.mod_lt _ (Nat.two_pow_pos 64)⟩

/-- `val >> by` of a build. -/
def shiftRight (debug : Bool) (val : BitVec 64) (amount : Nat) : Except Fault (BitVec 64) :=
  if amount < 64 then .ok (val >>> amount)
  else if debug then .error (.panic "attempt to shift right with overflow")
  else .ok (val >>> (amount % 64))

/-- `Range<usize>`. -/
structure Range where
  start : Usize
  stop : Usize

/-- `Range::is_empty`. -/
def Range.isEmpty (range : Range) : Bool := decide (range.stop.1 ≤ range.start.1)

/-- `Range::len`. -/
def Range.len (range : Range) : Nat := range.stop.1 - range.start.1

/-- `debug_assert!(width <= 64, "field width {width} exceeds u64")`. -/
def assertWidth (debug : Bool) (width : Nat) : Except Fault Unit :=
  assertThat (!debug || decide (width ≤ 64))
    ("field width " ++ toString width ++ " exceeds u64")

/-- The words of `[u32]`. -/
abbrev Words := List (BitVec 32)

/-- `BitViewable::bits` of `[u32]`. -/
def bits (words : Words) : Nat := words.length * 32

/-- One turn of the loop of `u32_slice_get_bit_range`. -/
def getStep (words : Words) (start : Nat) (result : BitVec 64) (i : Nat) : BitVec 64 :=
  let pos := start + i
  match words[pos / 32]? with
  | some word =>
    -- a debug build has left before `i` reaches 64
    if word &&& (1#32 <<< (pos % 32)) ≠ 0#32 then result ||| (1#64 <<< (i % 64)) else result
  | none => result

/-- `u32_slice_get_bit_range`. -/
def getBitRange (debug : Bool) (words : Words) (range : Range) : Except Fault (BitVec 64) := do
  if range.isEmpty then
    return 0#64
  let width := range.stop.1 - range.start.1
  assertWidth debug width
  return (List.range width).foldl (getStep words range.start.1) 0#64

/-- One turn of the loop of `u32_slice_set_bit_range`. -/
def setStep (start : Nat) (val : BitVec 64) (words : Words) (i : Nat) : Words :=
  let pos := start + i
  match words[pos / 32]? with
  | some word =>
    if val &&& (1#64 <<< (i % 64)) ≠ 0#64 then words.set (pos / 32) (word ||| (1#32 <<< (pos % 32)))
    else words.set (pos / 32) (word &&& ~~~(1#32 <<< (pos % 32)))
  | none => words

/-- `u32_slice_set_bit_range`. -/
def setBitRange (debug : Bool) (words : Words) (range : Range) (val : BitVec 64) :
    Except Fault Words := do
  if range.isEmpty then
    return words
  let width := range.stop.1 - range.start.1
  assertWidth debug width
  return (List.range width).foldl (setStep range.start.1 val) words

/-- `BitMutViewable::set_field2` of `[u32]`. -/
def setField2 (debug : Bool) (words : Words) (range₁ range₂ : Range) (val : BitVec 64) :
    Except Fault Words := do
  let len₁ := range₁.len
  let mask₁ := if 64 ≤ len₁ then BitVec.allOnes 64 else (1#64 <<< len₁) - 1#64
  let words ← setBitRange debug words range₁ (val &&& mask₁)
  setBitRange debug words range₂ (← shiftRight debug val len₁)

/-- `BitMutSubsetView`. -/
structure BitMutSubsetView where
  data : Words
  offset : Usize
  numBits : Usize

/-- `(range.start + self.offset)..(range.end + self.offset)`. -/
def BitMutSubsetView.shifted (debug : Bool) (view : BitMutSubsetView) (range : Range) :
    Except Fault Range := do
  let start ← Usize.add debug range.start view.offset
  let stop ← Usize.add debug range.stop view.offset
  return ⟨start, stop⟩

/-- `get_bit_range_u64` of a subset view. -/
def BitMutSubsetView.getBitRange (debug : Bool) (view : BitMutSubsetView) (range : Range) :
    Except Fault (BitVec 64) := do
  let shifted ← view.shifted debug range
  Bitview.getBitRange debug view.data shifted

/-- `set_bit_range_u64` of a subset view: the words of its buffer after it. -/
def BitMutSubsetView.setBitRange (debug : Bool) (view : BitMutSubsetView) (range : Range)
    (val : BitVec 64) : Except Fault Words := do
  let shifted ← view.shifted debug range
  Bitview.setBitRange debug view.data shifted val

end CoralReef.Bitview
