import CoralReef.Bitview.Proofs.Fields

/-!
# Subset views

A subset view adds its offset to a range and never looks at its own width. So it keeps to its
bits exactly where the caller does: a range beyond the view reaches the bits behind it, unless
a debug build stops at an overflow or at a field wider than 64 bits.
-/

namespace CoralReef.Bitview

open BitBuffer

variable {view : BitMutSubsetView} {range : Range} {debug : Bool}

/-- A view into a larger buffer. -/
structure BitMutSubsetView.Proper (view : BitMutSubsetView) : Prop where
  inside : view.offset.1 + view.numBits.1 ≤ bits view.data
  fits : view.offset.1 + view.numBits.1 < 2 ^ 64

/-- A bit of the buffer that is one of the view's. -/
def BitMutSubsetView.Owns (view : BitMutSubsetView) (pos : Nat) : Prop :=
  view.offset.1 ≤ pos ∧ pos < view.offset.1 + view.numBits.1

/-- A range relative to the view that has bits beyond it. -/
def BitMutSubsetView.Beyond (view : BitMutSubsetView) (range : Range) : Prop :=
  range.start.1 < range.stop.1 ∧ view.numBits.1 < range.stop.1

/-- The view keeps to its bits for one range: it refuses a range beyond it, a write changes and a
read depends on bits of the view alone, and a field inside the view is read back as written. -/
structure ViewRight (debug : Bool) (view : BitMutSubsetView) (range : Range)
    (val : BitVec 64) : Prop where
  refuses : view.Beyond range →
    (∀ words, view.setBitRange debug range val ≠ .ok words) ∧
      ∀ v, view.getBitRange debug range ≠ .ok v
  writes : ∀ words, view.setBitRange debug range val = .ok words →
    words.length = view.data.length ∧
      ∀ pos, ¬ view.Owns pos → bitAt words pos = bitAt view.data pos
  reads : ∀ words words' : Words, words.length = view.data.length →
    words'.length = view.data.length → (∀ pos, view.Owns pos → bitAt words pos = bitAt words' pos) →
      { view with data := words }.getBitRange debug range =
        { view with data := words' }.getBitRange debug range
  field : range.Inside view.numBits.1 → range.len ≤ 64 → val.toNat < 2 ^ range.len →
    ∃ words, view.setBitRange debug range val = .ok words ∧
      { view with data := words }.getBitRange debug range = .ok val ∧
      ∀ pos, ¬ (view.offset.1 + range.start.1 ≤ pos ∧ pos < view.offset.1 + range.stop.1) →
        bitAt words pos = bitAt view.data pos

/-- The condition: the range is inside the view or a debug build stops at it, and an empty range
does not become another one where its start wraps. -/
def Confined (debug : Bool) (view : BitMutSubsetView) (range : Range) : Prop :=
  (range.start.1 < range.stop.1 → range.stop.1 ≤ view.numBits.1 ∨
    (debug = true ∧ (2 ^ 64 ≤ range.stop.1 + view.offset.1 ∨ 64 < range.len))) ∧
  (range.stop.1 ≤ range.start.1 → debug = true ∨ range.start.1 + view.offset.1 < 2 ^ 64 ∨
    2 ^ 64 ≤ range.stop.1 + view.offset.1)

theorem add_fits (debug : Bool) {a b : Usize} (fits : a.1 + b.1 < 2 ^ 64) :
    Usize.add debug a b = .ok ⟨a.1 + b.1, fits⟩ := by
  rw [Usize.add, dif_pos fits]

theorem add_debug {a b : Usize} (beyond : 2 ^ 64 ≤ a.1 + b.1) :
    Usize.add true a b = .error (.panic "attempt to add with overflow") := by
  rw [Usize.add, dif_neg (by omega), if_pos rfl]

theorem add_release (a b : Usize) :
    ∃ sum, Usize.add false a b = .ok sum ∧ sum.1 = (a.1 + b.1) % 2 ^ 64 := by
  by_cases fits : a.1 + b.1 < 2 ^ 64
  · exact ⟨_, add_fits false fits, (Nat.mod_eq_of_lt fits).symm⟩
  · rw [Usize.add, dif_neg fits, if_neg (by simp)]
    exact ⟨_, rfl, rfl⟩

/-- Where nothing overflows the view moves the range by its offset. -/
theorem shifted_ok (debug : Bool) (start : range.start.1 + view.offset.1 < 2 ^ 64)
    (stop : range.stop.1 + view.offset.1 < 2 ^ 64) :
    view.shifted debug range =
      .ok ⟨⟨range.start.1 + view.offset.1, start⟩, ⟨range.stop.1 + view.offset.1, stop⟩⟩ := by
  rw [BitMutSubsetView.shifted, add_fits debug start, ok_bind, add_fits debug stop]
  rfl

theorem shifted_debug
    (beyond : 2 ^ 64 ≤ range.start.1 + view.offset.1 ∨ 2 ^ 64 ≤ range.stop.1 + view.offset.1) :
    ∃ fault, view.shifted true range = .error fault := by
  by_cases start : 2 ^ 64 ≤ range.start.1 + view.offset.1
  · exact ⟨_, by rw [BitMutSubsetView.shifted, add_debug start, error_bind]⟩
  · have stop : 2 ^ 64 ≤ range.stop.1 + view.offset.1 := by omega
    have low : range.start.1 + view.offset.1 < 2 ^ 64 := by omega
    exact ⟨_, by rw [BitMutSubsetView.shifted, add_fits true low, ok_bind, add_debug stop]; rfl⟩

theorem shifted_release (view : BitMutSubsetView) (range : Range) :
    ∃ moved : Range, view.shifted false range = .ok moved ∧
      moved.start.1 = (range.start.1 + view.offset.1) % 2 ^ 64 ∧
      moved.stop.1 = (range.stop.1 + view.offset.1) % 2 ^ 64 := by
  rcases add_release range.start view.offset with ⟨start, first, isStart⟩
  rcases add_release range.stop view.offset with ⟨stop, second, isStop⟩
  refine ⟨⟨start, stop⟩, ?_, isStart, isStop⟩
  rw [BitMutSubsetView.shifted, first, ok_bind, second]
  rfl

/-- A range at which the view faults is refused. -/
theorem viewRight_of_fault (fault : Fault) {val : BitVec 64}
    (write : view.setBitRange debug range val = .error fault)
    (read : ∀ words, { view with data := words }.getBitRange debug range = .error fault)
    (outside : ¬ (range.Inside view.numBits.1 ∧ range.len ≤ 64)) :
    ViewRight debug view range val := by
  refine ⟨?_, ?_, ?_, fun inside short => absurd ⟨inside, short⟩ outside⟩
  · intro _
    refine ⟨?_, ?_⟩
    · intro words returned
      rw [write] at returned
      cases returned
    · intro v returned
      rw [show view.getBitRange debug range = .error fault from read view.data] at returned
      cases returned
  · intro words returned
    rw [write] at returned
    cases returned
  · intro words words' _ _ _
    rw [read, read]

theorem viewRight_of_shift_fault {fault : Fault} (faults : view.shifted debug range = .error fault)
    (outside : ¬ range.Inside view.numBits.1) (val : BitVec 64) :
    ViewRight debug view range val := by
  refine viewRight_of_fault fault ?_ ?_ fun both => outside both.1
  · rw [BitMutSubsetView.setBitRange, faults, error_bind]
  · intro words
    have moved : { view with data := words }.shifted debug range = .error fault := faults
    rw [BitMutSubsetView.getBitRange, moved, error_bind]

/-- A field too wide for a debug build is refused there. -/
theorem viewRight_of_wide {range moved : Range} (shifts : view.shifted true range = .ok moved)
    (wide : 64 < range.len) (sameLen : moved.len = range.len) (val : BitVec 64) :
    ViewRight true view range val := by
  have long : 64 < moved.stop.1 - moved.start.1 := by
    rw [← sameLen] at wide
    exact wide
  have nonempty : ¬ moved.stop.1 ≤ moved.start.1 := by omega
  rcases assertWidth_wide long with ⟨fault, panics⟩
  refine viewRight_of_fault fault ?_ ?_ (by omega)
  · rw [BitMutSubsetView.setBitRange, shifts, ok_bind]
    simp only [setBitRange, Range.isEmpty, nonempty, decide_false, Bool.false_eq_true, if_false,
      panics, error_bind]
  · intro words
    have shifts' : { view with data := words }.shifted true range = .ok moved := shifts
    rw [BitMutSubsetView.getBitRange, shifts', ok_bind]
    simp only [getBitRange, Range.isEmpty, nonempty, decide_false, Bool.false_eq_true, if_false,
      panics, error_bind]

/-- A range that is moved onto bits of the view. -/
theorem viewRight_of_moved {range moved : Range} (proper : view.Proper)
    (shifts : view.shifted debug range = .ok moved) (within : ¬ view.Beyond range)
    (owned : ∀ pos, moved.Covers pos → view.Owns pos)
    (moves : range.Inside view.numBits.1 → moved.start.1 = range.start.1 + view.offset.1 ∧
      moved.stop.1 = range.stop.1 + view.offset.1) (val : BitVec 64) :
    ViewRight debug view range val := by
  have write : view.setBitRange debug range val = setBitRange debug view.data moved val := by
    rw [BitMutSubsetView.setBitRange, shifts, ok_bind]
  have read : ∀ words, { view with data := words }.getBitRange debug range =
      getBitRange debug words moved := by
    intro words
    have shifts' : { view with data := words }.shifted debug range = .ok moved := shifts
    rw [BitMutSubsetView.getBitRange, shifts', ok_bind]
  refine ⟨fun beyond => absurd beyond within, ?_, ?_, ?_⟩
  · intro words returned
    rw [write] at returned
    by_cases fits : debug = false ∨ moved.len ≤ 64
    · rw [setBitRange_ok fits] at returned
      cases returned
      refine ⟨length_setBits _ _ _ _, ?_⟩
      intro pos foreign
      exact bitAt_written_outside fun covered => foreign (owned pos covered)
    · push Not at fits
      rcases fits with ⟨build, wide⟩
      have debugging : debug = true := by simpa using build
      subst debugging
      have nonempty : ¬ moved.stop.1 ≤ moved.start.1 := by
        unfold Range.len at wide
        omega
      rcases assertWidth_wide wide with ⟨fault, panics⟩
      unfold Range.len at panics
      simp only [setBitRange, Range.isEmpty, nonempty, decide_false, Bool.false_eq_true, if_false,
        panics, error_bind] at returned
      cases returned
  · intro words words' _ _ agree
    rw [read, read]
    exact getBitRange_congr debug fun pos covered => agree pos (owned pos covered)
  · intro inside short fits
    rcases moves inside with ⟨start, stop⟩
    have sameLen : moved.len = range.len := by
      unfold Range.len
      omega
    have insideData : moved.Inside (bits view.data) := by
      have room := proper.inside
      unfold Range.Inside at inside ⊢
      omega
    rw [← sameLen] at short fits
    rcases field_right debug view.data moved val insideData short fits with
      ⟨words, returned, value, _, frame⟩
    refine ⟨words, by rw [write, returned], by rw [read, value], ?_⟩
    intro pos outside
    apply frame pos
    intro covered
    apply outside
    unfold Range.Covers at covered
    omega

/-- A view that depends on a bit below its offset is not right. -/
theorem not_viewRight_of_wrap (proper : view.Proper)
    (start : 2 ^ 64 ≤ range.start.1 + view.offset.1) (empty : range.stop.1 ≤ range.start.1)
    (stop : range.stop.1 + view.offset.1 < 2 ^ 64) (val : BitVec 64) :
    ¬ ViewRight false view range val := by
  intro right
  rcases shifted_release view range with ⟨moved, shifts, isStart, isStop⟩
  have startBound := range.start.2
  have offsetBound := view.offset.2
  have room := proper.inside
  have low : moved.start.1 < view.offset.1 := by omega
  have nonempty : 0 < moved.len := by
    unfold Range.len
    omega
  have there : moved.start.1 < bits view.data := by omega
  have read : ∀ words, { view with data := words }.getBitRange false range =
      .ok ((List.range moved.len).foldl (getStep words moved.start.1) 0#64) := by
    intro words
    have shifts' : { view with data := words }.shifted false range = .ok moved := shifts
    rw [BitMutSubsetView.getBitRange, shifts', ok_bind, getBitRange_ok (.inl rfl)]
  let clear : Words := List.replicate view.data.length 0#32
  let marked : Words := setBitAt clear moved.start.1 true
  have clearBits : ∀ pos, bitAt clear pos = false := by
    intro pos
    unfold bitAt
    cases here : clear[pos / 32]? with
    | none => rfl
    | some word =>
      have zero : word = 0#32 := List.eq_of_mem_replicate (List.mem_of_getElem? here)
      rw [zero]
      exact BitVec.getLsbD_zero
  have size : clear.length = view.data.length := List.length_replicate
  have markedBits : ∀ pos, bitAt marked pos = decide (pos = moved.start.1) := by
    intro pos
    have inside : moved.start.1 < clear.length * 32 := by
      rw [size]
      exact there
    rw [bitAt_setBitAt (by omega), clearBits]
    by_cases same : pos = moved.start.1 <;> simp [same, inside]
  have agree : ∀ pos, view.Owns pos → bitAt clear pos = bitAt marked pos := by
    intro pos owned
    have other : pos ≠ moved.start.1 := by
      unfold BitMutSubsetView.Owns at owned
      omega
    rw [clearBits, markedBits, decide_eq_false other]
  have same := right.reads clear marked size ((length_setBitAt _ _ _).trans size) agree
  rw [read, read] at same
  have bit := congrArg (fun v => v.getLsbD 0) (Except.ok.inj same)
  have set : ((List.range moved.len).foldl (getStep marked moved.start.1) 0#64).getLsbD 0 = true :=
    (getLsbD_foldGet _ _ _ _).mpr ⟨0, nonempty, rfl, by simp [markedBits]⟩
  have unset : ((List.range moved.len).foldl (getStep clear moved.start.1) 0#64).getLsbD 0 = true :=
    Eq.trans bit set
  rcases (getLsbD_foldGet _ _ _ _).mp unset with ⟨i, _, _, marks⟩
  rw [clearBits] at marks
  cases marks

/-- A range the view accepts and that keeps to its bits, or is refused. -/
theorem viewRight_of_confined (proper : view.Proper) (confined : Confined debug view range)
    (val : BitVec 64) :
    ViewRight debug view range val := by
  rcases confined with ⟨some, none⟩
  have fits := proper.fits
  by_cases nonempty : range.start.1 < range.stop.1
  · have noEmpty : ¬ range.stop.1 ≤ range.start.1 := by omega
    by_cases within : range.stop.1 ≤ view.numBits.1
    · have start : range.start.1 + view.offset.1 < 2 ^ 64 := by omega
      have stop : range.stop.1 + view.offset.1 < 2 ^ 64 := by omega
      refine viewRight_of_moved proper (shifted_ok debug start stop) ?_ ?_ (fun _ => ⟨rfl, rfl⟩) val
      · unfold BitMutSubsetView.Beyond
        omega
      · intro pos covered
        unfold Range.Covers at covered
        unfold BitMutSubsetView.Owns
        dsimp only at covered
        omega
    · rcases some nonempty with inside | ⟨build, stops⟩
      · exact absurd inside within
      · subst build
        have outside : ¬ range.Inside view.numBits.1 := fun inside => within inside.2
        by_cases beyond : 2 ^ 64 ≤ range.stop.1 + view.offset.1
        · rcases shifted_debug (.inr beyond) with ⟨fault, faults⟩
          exact viewRight_of_shift_fault faults outside val
        · have wide : 64 < range.len := by omega
          have start : range.start.1 + view.offset.1 < 2 ^ 64 := by omega
          have stop : range.stop.1 + view.offset.1 < 2 ^ 64 := by omega
          refine viewRight_of_wide (shifted_ok true start stop) wide ?_ val
          unfold Range.len
          dsimp only
          omega
  · have empty : range.stop.1 ≤ range.start.1 := by omega
    have within : ¬ view.Beyond range := fun beyond => nonempty beyond.1
    by_cases start : range.start.1 + view.offset.1 < 2 ^ 64
    · have stop : range.stop.1 + view.offset.1 < 2 ^ 64 := by omega
      refine viewRight_of_moved proper (shifted_ok debug start stop) within ?_
        (fun _ => ⟨rfl, rfl⟩) val
      intro pos covered
      unfold Range.Covers at covered
      dsimp only at covered
      omega
    · have outside : ¬ range.Inside view.numBits.1 := by
        unfold Range.Inside
        omega
      cases debug with
      | true =>
        have beyond : 2 ^ 64 ≤ range.start.1 + view.offset.1 := by omega
        rcases shifted_debug (.inl beyond) with ⟨fault, faults⟩
        exact viewRight_of_shift_fault faults outside val
      | false =>
        have stop : 2 ^ 64 ≤ range.stop.1 + view.offset.1 := by
          rcases none empty with build | low | high
          · cases build
          · exact absurd low start
          · exact high
        rcases shifted_release view range with ⟨moved, shifts, isStart, isStop⟩
        have startBound := range.start.2
        have offsetBound := view.offset.2
        refine viewRight_of_moved proper shifts within ?_ (fun inside => absurd inside outside) val
        intro pos covered
        unfold Range.Covers at covered
        omega

theorem confined_of_viewRight {val : BitVec 64} (proper : view.Proper)
    (right : ViewRight debug view range val) :
    Confined debug view range := by
  refine ⟨?_, ?_⟩
  · intro nonempty
    by_contra fails
    push Not at fails
    rcases fails with ⟨beyond, debugging⟩
    have refused := (right.refuses ⟨nonempty, beyond⟩).2
    cases debug with
    | false =>
      rcases shifted_release view range with ⟨moved, shifts, _⟩
      apply refused
      rw [BitMutSubsetView.getBitRange, shifts, ok_bind, getBitRange_ok (.inl rfl)]
    | true =>
      rcases debugging rfl with ⟨stop, short⟩
      have start : range.start.1 + view.offset.1 < 2 ^ 64 := by omega
      apply refused
      rw [BitMutSubsetView.getBitRange, shifted_ok true start stop, ok_bind, getBitRange_ok]
      refine .inr ?_
      unfold Range.len at short ⊢
      dsimp only
      omega
  · intro empty
    by_contra fails
    push Not at fails
    rcases fails with ⟨build, start, stop⟩
    have release : debug = false := by simpa using build
    subst release
    exact not_viewRight_of_wrap proper start empty stop val right

/-- The exact condition of the three promises about fields: a field is always read back as it was
written, a split value where its first range is narrower than 64 bits or nothing of it is left
over, and a subset view where the range does not leave it. -/
theorem bitFields_right_iff (debug : Bool) (words : Words) (range range₁ range₂ : Range)
    (val : BitVec 64) (splits : Splits words range₁ range₂ val) (view : BitMutSubsetView)
    (proper : view.Proper) (relative : Range) :
    (FieldRight debug words range val ∧ SplitRight debug words range₁ range₂ val ∧
        ViewRight debug view relative val) ↔
      (range₁.len < 64 ∨ (debug = false ∧ val.toNat % 2 ^ range₂.len = 0)) ∧
        Confined debug view relative := by
  rw [splitRight_iff debug splits]
  constructor
  · intro right
    rcases right with ⟨_, split, subset⟩
    exact ⟨split, confined_of_viewRight proper subset⟩
  · intro condition
    rcases condition with ⟨split, confined⟩
    exact ⟨field_right debug words range val, split, viewRight_of_confined proper confined val⟩

/-- `start..stop`, for places of a small buffer. -/
def place (start stop : Fin 128) : Range :=
  ⟨⟨start, by omega⟩, ⟨stop, by omega⟩⟩

/-- A field across two words, a value split over two bytes and a field inside a view of one word. -/
theorem bitFields_right_threeWords : FieldRight true [0#32, 0#32, 0#32] (place 24 56) 0x1234#64 ∧
    SplitRight true [0#32, 0#32, 0#32] (place 0 8) (place 32 40) 0x1234#64 ∧
    ViewRight true ⟨[0#32, 0#32, 0#32], ⟨16, by omega⟩, ⟨32, by omega⟩⟩ (place 0 16) 0x1234#64 := by
  refine (bitFields_right_iff true [0#32, 0#32, 0#32] (place 24 56) (place 0 8) (place 32 40)
    0x1234#64 ?_ ⟨[0#32, 0#32, 0#32], ⟨16, by omega⟩, ⟨32, by omega⟩⟩ ?_ (place 0 16)).mpr ?_
  · refine ⟨?_, ?_, ?_, ?_, ?_, ?_⟩
    · unfold Range.Inside
      decide
    · unfold Range.Inside
      decide
    · decide
    · decide
    · intro pos both
      unfold Range.Covers place at both
      dsimp only at both
      omega
    · decide
  · exact ⟨by decide, by decide⟩
  · exact ⟨.inl (by decide), fun _ => .inl (by decide), fun empty => absurd empty (by decide)⟩

/-- A view of the first byte lets a field of the second one be written, in both builds; and a value
that fills its first range is written again to the second. -/
theorem bitFields_beyond_fails : (∀ debug, ¬ ViewRight debug ⟨[0#32], ⟨0, by omega⟩, ⟨8, by omega⟩⟩
      (place 8 16) 0xff#64) ∧
    ∀ debug, ¬ SplitRight debug [0#32, 0#32, 0#32] (place 0 64) (place 64 72) 1#64 := by
  refine ⟨?_, ?_⟩
  · intro debug right
    have frame := (right.writes [0xff00#32] (by cases debug <;> decide)).2 8 (by
      unfold BitMutSubsetView.Owns
      decide)
    exact absurd frame (by decide)
  · intro debug right
    rcases right with ⟨words, returned, _, high, _⟩
    cases debug with
    | true =>
      have panics : setField2 true [0#32, 0#32, 0#32] (place 0 64) (place 64 72) 1#64 =
        .error (.panic "attempt to shift right with overflow") := by decide
      rw [panics] at returned
      cases returned
    | false =>
      have writes : setField2 false [0#32, 0#32, 0#32] (place 0 64) (place 64 72) 1#64 =
        .ok [1#32, 0#32, 1#32] := by decide +kernel
      rw [writes] at returned
      cases returned
      exact absurd high (by decide)

end CoralReef.Bitview
