import CoralReef.Bitview
import Mathlib.Tactic.Ring

/-!
# Fields of a buffer

A read gives the bits of its range and a write replaces them and no others, across words and at
every width up to 64. A value split over two ranges arrives whole as long as the first of them is
narrower than 64 bits; at 64 the shift that should drop its bits overflows.
-/

namespace CoralReef.Bitview

open BitBuffer

variable {range : Range} (debug : Bool) {words : Words}

/-- The range lies inside `size` bits. -/
def Range.Inside (range : Range) (size : Nat) : Prop :=
  range.start.1 ≤ range.stop.1 ∧ range.stop.1 ≤ size

/-- The position is one of the range's. -/
def Range.Covers (range : Range) (pos : Nat) : Prop := range.start.1 ≤ pos ∧ pos < range.stop.1

theorem getLsbD_orBit (result : BitVec 64) (i j : Nat) (value : Bool) :
    (if value = true then result ||| (1#64 <<< (i % 64)) else result).getLsbD j =
      (result.getLsbD j || (decide (j = i % 64) && value)) := by
  have low : i % 64 < 64 := Nat.mod_lt _ (by omega)
  have put := getLsbD_putBit (j := j) result true low
  simp only [putBit, if_true] at put
  cases value
  · simp
  · rw [if_pos rfl, put]
    by_cases same : j = i % 64 <;> simp [same]

/-- One turn of the reading loop adds one bit of the buffer. -/
theorem getLsbD_getStep (words : Words) (start : Nat) (result : BitVec 64) (i j : Nat) :
    (getStep words start result i).getLsbD j =
      (result.getLsbD j || (decide (j = i % 64) && bitAt words (start + i))) := by
  have low : (start + i) % 32 < 32 := Nat.mod_lt _ (by omega)
  cases here : words[(start + i) / 32]? with
  | none => simp [getStep, bitAt, here]
  | some word =>
    simp only [getStep, bitAt, here, and_mask_ne_zero word low]
    exact getLsbD_orBit result i j _

/-- What the reading loop has after `n` turns. -/
theorem getLsbD_foldGet (words : Words) (start n j : Nat) :
    ((List.range n).foldl (getStep words start) 0#64).getLsbD j = true ↔
      ∃ i, i < n ∧ j = i % 64 ∧ bitAt words (start + i) = true := by
  induction n with
  | zero => simp
  | succ n ih =>
    rw [List.range_succ, List.foldl_append, List.foldl_cons, List.foldl_nil, getLsbD_getStep,
      Bool.or_eq_true, ih, Bool.and_eq_true, decide_eq_true_eq]
    constructor
    · intro either
      rcases either with ⟨i, less, place, set⟩ | ⟨place, set⟩
      · exact ⟨i, by omega, place, set⟩
      · exact ⟨n, by omega, place, set⟩
    · intro some
      rcases some with ⟨i, less, place, set⟩
      rcases Nat.lt_succ_iff_lt_or_eq.mp less with earlier | same
      · exact .inl ⟨i, earlier, place, set⟩
      · subst same
        exact .inr ⟨place, set⟩

/-- One turn of the writing loop replaces one bit. -/
theorem setStep_eq (start : Nat) (val : BitVec 64) (words : Words) (i : Nat) :
    setStep start val words i = setBitAt words (start + i) (val.getLsbD (i % 64)) := by
  have low : i % 64 < 64 := Nat.mod_lt _ (by omega)
  cases here : words[(start + i) / 32]? with
  | none => simp only [setStep, setBitAt, here]
  | some word =>
    simp only [setStep, setBitAt, here, and_mask_ne_zero val low, putBit]
    split <;> rfl

theorem foldSet_eq (start : Nat) (val : BitVec 64) (words : Words) (n : Nat) :
    (List.range n).foldl (setStep start val) words =
      setBits words start (fun i => val.getLsbD (i % 64)) n := by
  have steps : setStep start val =
      fun words i => setBitAt words (start + i) (val.getLsbD (i % 64)) := by
    funext words i
    exact setStep_eq start val words i
  rw [steps]
  rfl

theorem assertWidth_ok {debug : Bool} {width : Nat} (fits : debug = false ∨ width ≤ 64) :
    assertWidth debug width = .ok () := by
  rcases fits with release | short
  · subst release
    rfl
  · simp [assertWidth, short]

theorem assertWidth_wide {width : Nat} (wide : 64 < width) :
    ∃ fault, assertWidth true width = .error fault := by
  have long : ¬ width ≤ 64 := by omega
  exact ⟨_, by simp only [assertWidth, long]; rfl⟩

theorem getBitRange_ok {debug : Bool} (fits : debug = false ∨ range.len ≤ 64) (words : Words) :
    getBitRange debug words range =
      .ok ((List.range range.len).foldl (getStep words range.start.1) 0#64) := by
  unfold getBitRange
  by_cases empty : range.stop.1 ≤ range.start.1
  · have none : range.len = 0 := Nat.sub_eq_zero_of_le empty
    simp only [Range.isEmpty, empty, decide_true, if_true, none]
    rfl
  · have width := assertWidth_ok fits
    unfold Range.len at width
    simp only [Range.isEmpty, empty, decide_false, Bool.false_eq_true, if_false, width]
    rfl

/-- A buffer after a write. -/
def written (words : Words) (range : Range) (val : BitVec 64) : Words :=
  setBits words range.start.1 (fun i => val.getLsbD (i % 64)) range.len

theorem setBitRange_ok {debug : Bool} (fits : debug = false ∨ range.len ≤ 64) (words : Words)
    (val : BitVec 64) :
    setBitRange debug words range val = .ok (written words range val) := by
  unfold setBitRange
  by_cases empty : range.stop.1 ≤ range.start.1
  · have none : range.len = 0 := Nat.sub_eq_zero_of_le empty
    simp only [Range.isEmpty, empty, decide_true, if_true, written, none]
    rfl
  · have width := assertWidth_ok fits
    unfold Range.len at width
    simp only [Range.isEmpty, empty, decide_false, Bool.false_eq_true, if_false, width]
    rw [ok_bind, foldSet_eq]
    rfl

/-- A read of at most 64 bits gives the bits of its range. -/
theorem getBitRange_bits (short : range.len ≤ 64) (words : Words) :
    ∃ v, getBitRange debug words range = .ok v ∧
      ∀ j, v.getLsbD j = (decide (j < range.len) && bitAt words (range.start.1 + j)) := by
  refine ⟨_, getBitRange_ok (.inr short) words, ?_⟩
  intro j
  rw [Bool.eq_iff_iff, getLsbD_foldGet, Bool.and_eq_true, decide_eq_true_eq]
  constructor
  · intro some
    rcases some with ⟨i, less, place, set⟩
    rw [Nat.mod_eq_of_lt (by omega)] at place
    subst place
    exact ⟨less, set⟩
  · intro both
    rcases both with ⟨less, set⟩
    exact ⟨j, less, (Nat.mod_eq_of_lt (by omega)).symm, set⟩

/-- A read that is known bit by bit. -/
theorem getBitRange_eq {debug : Bool} (short : range.len ≤ 64) {v : BitVec 64}
    (same : ∀ j < 64, v.getLsbD j = (decide (j < range.len) && bitAt words (range.start.1 + j))) :
    getBitRange debug words range = .ok v := by
  rcases getBitRange_bits debug short words with ⟨v', returned, is⟩
  rw [returned]
  congr 1
  apply BitVec.eq_of_getLsbD_eq
  intro j below
  rw [is, same j below]

/-- The bits after a write. -/
theorem bitAt_written (words : Words) (range : Range) (val : BitVec 64) (pos : Nat) :
    bitAt (written words range val) pos =
      if range.start.1 ≤ pos ∧ pos < range.start.1 + range.len ∧ pos < bits words then
        val.getLsbD ((pos - range.start.1) % 64)
      else bitAt words pos :=
  bitAt_setBits (by omega) words _ _ _ pos

theorem bitAt_written_outside {val : BitVec 64} {pos : Nat} (outside : ¬ range.Covers pos) :
    bitAt (written words range val) pos = bitAt words pos := by
  rw [bitAt_written, if_neg]
  intro inside
  apply outside
  unfold Range.Covers
  unfold Range.len at inside
  omega

/-- A field that was written is read back, as far as it fits. -/
theorem getBitRange_written (val : BitVec 64) (inside : range.Inside (bits words))
    (short : range.len ≤ 64) :
    getBitRange debug (written words range val) range =
      .ok (BitVec.ofNat 64 (val.toNat % 2 ^ range.len)) := by
  apply getBitRange_eq short
  intro j below
  rw [bitAt_written, BitVec.getLsbD_ofNat, Nat.testBit_mod_two_pow]
  by_cases less : j < range.len
  · have there : range.start.1 + j < bits words := by
      unfold Range.Inside at inside
      unfold Range.len at less
      omega
    simp [less, there, below, Nat.mod_eq_of_lt below, BitVec.getLsbD]
  · simp [less]

/-- A read that no changed bit falls into. -/
theorem getBitRange_congr {words words' : Words}
    (same : ∀ pos, range.Covers pos → bitAt words' pos = bitAt words pos) :
    getBitRange debug words' range = getBitRange debug words range := by
  by_cases fits : debug = false ∨ range.len ≤ 64
  · rw [getBitRange_ok fits, getBitRange_ok fits]
    congr 1
    apply BitVec.eq_of_getLsbD_eq
    intro j _
    rw [Bool.eq_iff_iff, getLsbD_foldGet, getLsbD_foldGet]
    have covered : ∀ i < range.len, range.Covers (range.start.1 + i) := by
      intro i less
      unfold Range.len at less
      unfold Range.Covers
      omega
    constructor
    · intro some
      rcases some with ⟨i, less, place, set⟩
      exact ⟨i, less, place, by rw [← same _ (covered i less)]; exact set⟩
    · intro some
      rcases some with ⟨i, less, place, set⟩
      exact ⟨i, less, place, by rw [same _ (covered i less)]; exact set⟩
  · push Not at fits
    rcases fits with ⟨build, wide⟩
    have debugging : debug = true := by simpa using build
    subst debugging
    have nonempty : ¬ range.stop.1 ≤ range.start.1 := by
      unfold Range.len at wide
      omega
    rcases assertWidth_wide wide with ⟨fault, panics⟩
    unfold Range.len at panics
    simp only [getBitRange, Range.isEmpty, nonempty, decide_false, Bool.false_eq_true, if_false,
      panics]
    rfl

/-- Writing the value and reading the range gives the value, and no other bit changed. -/
def FieldRight (debug : Bool) (words : Words) (range : Range) (val : BitVec 64) : Prop :=
  range.Inside (bits words) → range.len ≤ 64 → val.toNat < 2 ^ range.len →
    ∃ words', setBitRange debug words range val = .ok words' ∧
      getBitRange debug words' range = .ok val ∧ words'.length = words.length ∧
      ∀ pos, ¬ range.Covers pos → bitAt words' pos = bitAt words pos

theorem field_right (words : Words) (range : Range) (val : BitVec 64) :
    FieldRight debug words range val := by
  intro inside short fits
  refine ⟨_, setBitRange_ok (.inr short) words val, ?_, length_setBits _ _ _ _,
    fun _ outside => bitAt_written_outside outside⟩
  rw [getBitRange_written debug val inside short, Nat.mod_eq_of_lt fits, BitVec.ofNat_toNat,
    BitVec.setWidth_eq]

/-- Two ranges that a value can be split over: inside the buffer, apart, at most 64 bits wide
each, and together wide enough for it. -/
structure Splits (words : Words) (range₁ range₂ : Range) (val : BitVec 64) : Prop where
  first : range₁.Inside (bits words)
  second : range₂.Inside (bits words)
  short₁ : range₁.len ≤ 64
  short₂ : range₂.len ≤ 64
  apart : ∀ pos, ¬ (range₁.Covers pos ∧ range₂.Covers pos)
  fits : val.toNat < 2 ^ (range₁.len + range₂.len)

/-- The low bits of the value are read from the first range, the others from the second, and no
other bit changed. -/
def SplitRight (debug : Bool) (words : Words) (range₁ range₂ : Range) (val : BitVec 64) : Prop :=
  ∃ words', setField2 debug words range₁ range₂ val = .ok words' ∧
    getBitRange debug words' range₁ = .ok (BitVec.ofNat 64 (val.toNat % 2 ^ range₁.len)) ∧
    getBitRange debug words' range₂ = .ok (BitVec.ofNat 64 (val.toNat / 2 ^ range₁.len)) ∧
    words'.length = words.length ∧
    ∀ pos, ¬ range₁.Covers pos → ¬ range₂.Covers pos → bitAt words' pos = bitAt words pos

/-- The buffer after the two writes of a split value. -/
theorem written_twice {range₁ range₂ : Range} {val : BitVec 64}
    (splits : Splits words range₁ range₂ val) (low high : BitVec 64) :
    getBitRange debug (written (written words range₁ low) range₂ high) range₁ =
        .ok (BitVec.ofNat 64 (low.toNat % 2 ^ range₁.len)) ∧
      getBitRange debug (written (written words range₁ low) range₂ high) range₂ =
        .ok (BitVec.ofNat 64 (high.toNat % 2 ^ range₂.len)) ∧
      (written (written words range₁ low) range₂ high).length = words.length ∧
      ∀ pos, ¬ range₁.Covers pos → ¬ range₂.Covers pos →
        bitAt (written (written words range₁ low) range₂ high) pos = bitAt words pos := by
  have sameLength : (written words range₁ low).length = words.length := length_setBits _ _ _ _
  refine ⟨?_, ?_, (length_setBits _ _ _ _).trans sameLength, ?_⟩
  · have kept : ∀ pos, range₁.Covers pos → bitAt (written (written words range₁ low) range₂ high)
        pos = bitAt (written words range₁ low) pos :=
      fun pos covered => bitAt_written_outside fun also => splits.apart pos ⟨covered, also⟩
    rw [getBitRange_congr debug kept, getBitRange_written debug low splits.first splits.short₁]
  · have second : range₂.Inside (bits (written words range₁ low)) := by
      rw [bits, sameLength]
      exact splits.second
    exact getBitRange_written debug high second splits.short₂
  · intro pos outside₁ outside₂
    rw [bitAt_written_outside outside₂, bitAt_written_outside outside₁]

theorem and_mask (val : BitVec 64) {len : Nat} (short : len < 64) :
    (val &&& ((1#64 <<< len) - 1#64)).toNat = val.toNat % 2 ^ len := by
  have bound : 2 ^ len < 2 ^ 64 := Nat.pow_lt_pow_right (by omega) short
  have positive : 0 < 2 ^ len := Nat.two_pow_pos len
  have power : (1#64 <<< len).toNat = 2 ^ len := by
    rw [BitVec.toNat_shiftLeft, Nat.shiftLeft_eq]
    simp only [BitVec.toNat_ofNat]
    omega
  have mask : ((1#64 <<< len) - 1#64).toNat = 2 ^ len - 1 := by
    rw [BitVec.toNat_sub, power]
    simp only [BitVec.toNat_ofNat]
    omega
  rw [BitVec.toNat_and, mask, Nat.and_two_pow_sub_one_eq_mod]

/-- A value split over two ranges arrives whole exactly when the first range is narrower than 64
bits; at 64 bits a debug build panics, and another writes the low bits of the value to the
second range as well. -/
theorem splitRight_iff {range₁ range₂ : Range} {val : BitVec 64}
    (splits : Splits words range₁ range₂ val) :
    SplitRight debug words range₁ range₂ val ↔
      range₁.len < 64 ∨ (debug = false ∧ val.toNat % 2 ^ range₂.len = 0) := by
  have short₁ := splits.short₁
  by_cases narrow : range₁.len < 64
  · have high : (val >>> range₁.len).toNat = val.toNat / 2 ^ range₁.len := by
      rw [BitVec.toNat_ushiftRight, Nat.shiftRight_eq_div_pow]
    have fits : val.toNat / 2 ^ range₁.len < 2 ^ range₂.len := by
      rw [Nat.div_lt_iff_lt_mul (Nat.two_pow_pos _), ← Nat.pow_add, Nat.add_comm]
      exact splits.fits
    rcases written_twice debug splits (val &&& ((1#64 <<< range₁.len) - 1#64))
      (val >>> range₁.len) with ⟨first, second, sameLength, frame⟩
    rw [and_mask val narrow, Nat.mod_mod] at first
    rw [high, Nat.mod_eq_of_lt fits] at second
    have wide : ¬ 64 ≤ range₁.len := by omega
    refine iff_of_true ⟨_, ?_, first, second, sameLength, frame⟩ (.inl narrow)
    simp only [setField2, wide, if_false, setBitRange_ok (.inr splits.short₁), ok_bind, shiftRight,
      narrow, if_true, setBitRange_ok (.inr splits.short₂)]
  · have full : range₁.len = 64 := by omega
    have whole : val &&& BitVec.allOnes 64 = val := BitVec.and_allOnes
    cases debug with
    | true =>
      refine iff_of_false ?_ (by simp [full])
      intro right
      rcases right with ⟨words', returned, _⟩
      simp only [setField2, full, le_refl, if_true, setBitRange_ok (.inr splits.short₁), ok_bind,
        shiftRight, lt_irrefl, if_false, error_bind] at returned
      cases returned
    | false =>
      rcases written_twice false splits val val with ⟨first, second, sameLength, frame⟩
      have returned : setField2 false words range₁ range₂ val =
          .ok (written (written words range₁ val) range₂ val) := by
        simp only [setField2, full, le_refl, if_true, whole,
          setBitRange_ok (.inr splits.short₁), ok_bind, shiftRight, lt_irrefl, if_false,
          Bool.false_eq_true, Nat.mod_self, BitVec.ushiftRight_zero,
          setBitRange_ok (.inr splits.short₂)]
      have nothing : val.toNat / 2 ^ range₁.len = 0 := by
        rw [full]
        exact Nat.div_eq_of_lt val.isLt
      have bound : val.toNat % 2 ^ range₂.len < 2 ^ 64 :=
        lt_of_le_of_lt (Nat.mod_le _ _) val.isLt
      constructor
      · intro right
        rcases right with ⟨words', returned', _, high, _⟩
        rw [returned] at returned'
        cases returned'
        rw [second, nothing] at high
        have same := congrArg BitVec.toNat (Except.ok.inj high)
        rw [BitVec.toNat_ofNat, Nat.mod_eq_of_lt bound] at same
        exact .inr ⟨rfl, same⟩
      · intro condition
        rcases condition with narrow' | ⟨_, clear⟩
        · exact absurd narrow' narrow
        · rw [clear, ← nothing] at second
          exact ⟨_, returned, first, second, sameLength, frame⟩

end CoralReef.Bitview
