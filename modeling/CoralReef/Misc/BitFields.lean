import Mathlib.Algebra.GroupWithZero.Nat
import Mathlib.Algebra.Ring.Int.Defs
import Mathlib.Tactic.Common

/-!
# Bit fields

Fields of a word by offset and width: setting one, reading one, and that disjoint fields do not
disturb one another.
-/

namespace CoralReef.BitFields

variable {w : Nat}
variable (word : BitVec w)

/-- The field at `offset` of `width` bits. -/
def getField (word : BitVec w) (offset width : Nat) : Nat := word.toNat / 2 ^ offset % 2 ^ width

/-- The word with the field at `offset` replaced; a value that does not fit is cut off. -/
def setField (word : BitVec w) (offset width value : Nat) : BitVec w :=
  let mask := BitVec.ofNat w (2 ^ width - 1)
  (word &&& ~~~(mask <<< offset)) ||| ((BitVec.ofNat w value &&& mask) <<< offset)

theorem getField_lt (offset width : Nat) :
    getField word offset width < 2 ^ width := Nat.mod_lt _ (Nat.two_pow_pos width)

theorem getField_testBit (offset width i : Nat) :
    (getField word offset width).testBit i = (decide (i < width) && word.getLsbD (offset + i)) := by
  rw [getField, Nat.testBit_mod_two_pow, Nat.testBit_div_two_pow, BitVec.getLsbD, Nat.add_comm]

theorem getLsbD_setField (offset width value i : Nat) (inside : i < w) :
    (setField word offset width value).getLsbD i =
      if offset ≤ i ∧ i < offset + width then value.testBit (i - offset) else word.getLsbD i := by
  have below : i - offset < w := by omega
  simp only [setField, BitVec.getLsbD_or, BitVec.getLsbD_and, BitVec.getLsbD_not,
    BitVec.getLsbD_shiftLeft, BitVec.getLsbD_ofNat, Nat.testBit_two_pow_sub_one, inside, below,
    decide_true, Bool.true_and]
  by_cases low : i < offset
  · have : ¬ offset ≤ i := by omega
    simp [low, this]
  · have high : offset ≤ i := by omega
    by_cases top : i < offset + width
    · have : i - offset < width := by omega
      simp [low, high, top, this]
    · have : ¬ i - offset < width := by omega
      simp [low, top, this]

/-- A field that was set is read back, as far as it fits. -/
theorem getField_setField_same {offset width : Nat} (inside : offset + width ≤ w)
    (word : BitVec w) (value : Nat) :
    getField (setField word offset width value) offset width = value % 2 ^ width := by
  apply Nat.eq_of_testBit_eq
  intro i
  rw [getField_testBit, Nat.testBit_mod_two_pow]
  by_cases below : i < width
  · rw [getLsbD_setField _ _ _ _ _ (by omega), if_pos (by omega), Nat.add_sub_cancel_left]
  · simp [below]

/-- Part of a field that was set is that part of the value. -/
theorem getField_setField_inside {offset width offset' width' : Nat} (inside : offset + width ≤ w)
    (part : offset ≤ offset' ∧ offset' + width' ≤ offset + width) (word : BitVec w)
    (value : Nat) :
    getField (setField word offset width value) offset' width' =
      value / 2 ^ (offset' - offset) % 2 ^ width' := by
  apply Nat.eq_of_testBit_eq
  intro i
  rw [getField_testBit, Nat.testBit_mod_two_pow, Nat.testBit_div_two_pow]
  by_cases below : i < width'
  · rw [getLsbD_setField _ _ _ _ _ (by omega), if_pos (by omega)]
    congr 2
    omega
  · simp [below]

/-- Setting a field leaves the fields beside it alone. -/
theorem getField_setField_disjoint {offset width offset' width' : Nat}
    (inside : offset' + width' ≤ w)
    (disjoint : offset' + width' ≤ offset ∨ offset + width ≤ offset') (word : BitVec w)
    (value : Nat) :
    getField (setField word offset width value) offset' width' = getField word offset' width' := by
  apply Nat.eq_of_testBit_eq
  intro i
  rw [getField_testBit, getField_testBit]
  by_cases below : i < width'
  · rw [getLsbD_setField _ _ _ _ _ (by omega), if_neg (by omega)]
  · simp [below]

/-- Setting a field to what it has changes nothing. -/
theorem setField_getField {offset width : Nat} :
    setField word offset width (getField word offset width) = word := by
  apply BitVec.eq_of_getLsbD_eq
  intro i below
  rw [getLsbD_setField _ _ _ _ _ below]
  split
  · rw [getField_testBit, decide_eq_true (by omega), Bool.true_and, Nat.add_sub_of_le (by omega)]
  · rfl

/-- Two values set the same word as far as they fit. -/
theorem setField_inj {offset width : Nat} (inside : offset + width ≤ w) {word : BitVec w}
    {value value' : Nat} : setField word offset width value = setField word offset width value' ↔
      value % 2 ^ width = value' % 2 ^ width := by
  constructor
  · intro same
    rw [← getField_setField_same inside word value, same, getField_setField_same inside]
  · intro same
    apply BitVec.eq_of_getLsbD_eq
    intro i below
    rw [getLsbD_setField _ _ _ _ _ below, getLsbD_setField _ _ _ _ _ below]
    split
    · have bits := congrArg (fun n => n.testBit (i - offset)) same
      simp only [Nat.testBit_mod_two_pow] at bits
      rwa [decide_eq_true (by omega), Bool.true_and, Bool.true_and] at bits
    · rfl

theorem setField_eq_self_iff {offset width : Nat} (inside : offset + width ≤ w) {word : BitVec w}
    {value : Nat} :
    setField word offset width value = word ↔ value % 2 ^ width = getField word offset width := by
  have whole : setField word offset width value =
      setField word offset width (getField word offset width) ↔ _ := setField_inj inside
  rwa [setField_getField, Nat.mod_eq_of_lt (getField_lt word offset width)] at whole

theorem getField_zero (offset width : Nat) : getField (0 : BitVec w) offset width = 0 := by
  simp [getField]

/-- Fields that follow one another make one field. -/
theorem getField_append (offset low high : Nat) :
    getField word offset (low + high) =
      getField word offset low + 2 ^ low * getField word (offset + low) high := by
  rw [getField, getField, getField, Nat.pow_add, Nat.pow_add, ← Nat.div_div_eq_div_mul,
    Nat.mod_mul]

end CoralReef.BitFields

namespace CoralReef.BitBuffer

/-!
## Bit buffers

A list of words seen as one string of bits, the first word lowest: what one bit is, writing one
bit, and writing a run of bits one after another.
-/

variable {w : Nat}

/-- The bit at a position of the string; there is none past its end. -/
def bitAt (words : List (BitVec w)) (pos : Nat) : Bool :=
  match words[pos / w]? with
  | some word => word.getLsbD (pos % w)
  | none => false

/-- A word with one bit replaced. -/
def putBit (word : BitVec w) (k : Nat) (value : Bool) : BitVec w :=
  if value then word ||| (1#w <<< k) else word &&& ~~~(1#w <<< k)

/-- The string with one bit replaced, if it is there. -/
def setBitAt (words : List (BitVec w)) (pos : Nat) (value : Bool) : List (BitVec w) :=
  match words[pos / w]? with
  | some word => words.set (pos / w) (putBit word (pos % w) value)
  | none => words

/-- `width` bits from `start` on replaced, lowest first. -/
def setBits (words : List (BitVec w)) (start : Nat) (value : Nat → Bool) (width : Nat) :
    List (BitVec w) :=
  (List.range width).foldl (fun words i => setBitAt words (start + i) (value i)) words

theorem getLsbD_putBit (word : BitVec w) (value : Bool) {k j : Nat} (inside : k < w) :
    (putBit word k value).getLsbD j = if j = k then value else word.getLsbD j := by
  by_cases there : j < w
  · by_cases same : j = k
    · subst same
      cases value <;> simp [putBit, there]
    · by_cases less : j < k
      · cases value <;> simp [putBit, there, same, less]
      · have more : j - k ≠ 0 := by omega
        cases value <;> simp [putBit, there, same, less, more]
  · have other : j ≠ k := by omega
    rw [if_neg other, BitVec.getLsbD_of_ge _ _ (by omega), BitVec.getLsbD_of_ge _ _ (by omega)]

/-- A one-bit mask tests the bit. -/
theorem and_mask_ne_zero (word : BitVec w) {k : Nat} (inside : k < w) :
    word &&& (1#w <<< k) ≠ 0#w ↔ word.getLsbD k = true := by
  rw [← BitVec.twoPow_eq, BitVec.and_twoPow]
  have nonzero : BitVec.twoPow w k ≠ 0#w := by
    intro zero
    have bit := congrArg (fun word => word.getLsbD k) zero
    simp [inside] at bit
  cases present : word.getLsbD k <;> simp [nonzero]

@[simp] theorem length_setBitAt (words : List (BitVec w)) (pos : Nat) (value : Bool) :
    (setBitAt words pos value).length = words.length := by
  unfold setBitAt
  split
  · rw [List.length_set]
  · rfl

@[simp] theorem length_setBits (words : List (BitVec w)) (start : Nat) (value : Nat → Bool)
    (width : Nat) : (setBits words start value width).length = words.length := by
  induction width with
  | zero => rfl
  | succ width ih =>
    rw [setBits, List.range_succ, List.foldl_append]
    exact (length_setBitAt _ _ _).trans ih

/-- Writing one bit changes that bit alone. -/
theorem bitAt_setBitAt (positive : 0 < w) (words : List (BitVec w)) (pos pos' : Nat)
    (value : Bool) :
    bitAt (setBitAt words pos value) pos' =
      if pos' = pos ∧ pos < words.length * w then value else bitAt words pos' := by
  have low : pos % w < w := Nat.mod_lt _ positive
  cases here : words[pos / w]? with
  | none =>
    have past : ¬ pos < words.length * w := by
      intro below
      have less := (Nat.div_lt_iff_lt_mul positive).mpr below
      rw [List.getElem?_eq_getElem less] at here
      cases here
    simp only [setBitAt, here, past, and_false, if_false]
  | some word =>
    have less : pos / w < words.length := (List.getElem?_eq_some_iff.mp here).1
    have below : pos < words.length * w := (Nat.div_lt_iff_lt_mul positive).mp less
    simp only [setBitAt, here, below, and_true]
    by_cases sameWord : pos' / w = pos / w
    · have read : (words.set (pos / w) (putBit word (pos % w) value))[pos / w]? =
          some (putBit word (pos % w) value) := List.getElem?_set_self less
      have place : pos' % w = pos % w ↔ pos' = pos := by
        constructor
        · intro sameBit
          rw [← Nat.div_add_mod pos' w, ← Nat.div_add_mod pos w, sameWord, sameBit]
        · intro same
          rw [same]
      simp only [bitAt, sameWord, read, getLsbD_putBit word value low, place, here]
    · have differs : pos' ≠ pos := by
        intro same
        exact sameWord (by rw [same])
      simp only [bitAt, List.getElem?_set_ne (Ne.symm sameWord), if_neg differs]

/-- Writing a run of bits changes those bits alone. -/
theorem bitAt_setBits (positive : 0 < w) (words : List (BitVec w)) (start : Nat)
    (value : Nat → Bool) (width pos : Nat) :
    bitAt (setBits words start value width) pos =
      if start ≤ pos ∧ pos < start + width ∧ pos < words.length * w then value (pos - start)
      else bitAt words pos := by
  induction width with
  | zero =>
    have none : ¬ (start ≤ pos ∧ pos < start + 0 ∧ pos < words.length * w) := by omega
    rw [if_neg none]
    rfl
  | succ width ih =>
    have last : setBits words start value (width + 1) =
        setBitAt (setBits words start value width) (start + width) (value width) := by
      rw [setBits, List.range_succ, List.foldl_append]
      rfl
    rw [last, bitAt_setBitAt positive, length_setBits, ih]
    by_cases here : pos = start + width
    · subst here
      by_cases inside : start + width < words.length * w
      · simp [inside]
      · simp [inside]
    · have same : (start ≤ pos ∧ pos < start + (width + 1) ∧ pos < words.length * w) ↔
          (start ≤ pos ∧ pos < start + width ∧ pos < words.length * w) := by omega
      simp only [here, false_and, if_false, same]

end CoralReef.BitBuffer
