import CoralReef.Stubs.BitSet
import Mathlib.Data.Nat.ModEq
import Mathlib.Order.Bounds.Basic

/-!
# Finding an unset range

The search tries the aligned indices one after the other and skips those whose range a set bit
is in, so the first range that it does not reject is the least.
-/

namespace CoralReef.BitSet

open FixedWidth

/-- A range of `numBits` bits that is unset, aligned, at or after `start` and within the
capacity. -/
structure Unset (s : BitSet) (start numBits alignMul alignOffset pos : Nat) : Prop where
  after : start ≤ pos
  aligned : pos ≡ alignOffset [MOD alignMul]
  unset : ∀ i < numBits, s.contains (pos + i) = false
  inside : pos + numBits ≤ s.capacity

variable {s : BitSet} {start numBits alignMul alignOffset : Nat}

/-- What the wrapping subtraction leaves is right where it does not wrap, and where the multiple
divides the size of the address space. -/
theorem remainder_modEq {pos : Nat} (small : pos < 2 ^ 64) (offset : alignOffset < 2 ^ 64)
    (wraps : alignOffset ≤ pos ∨ alignMul ∣ 2 ^ 64) :
    (pos + 2 ^ 64 - alignOffset) % 2 ^ 64 % alignMul + alignOffset ≡ pos [MOD alignMul] := by
  have reduced : (pos + 2 ^ 64 - alignOffset) % 2 ^ 64 % alignMul ≡
      (pos + 2 ^ 64 - alignOffset) % 2 ^ 64 [MOD alignMul] := Nat.mod_modEq _ _
  refine (reduced.add_right alignOffset).trans ?_
  by_cases inside : alignOffset ≤ pos
  · have exactly : (pos + 2 ^ 64 - alignOffset) % 2 ^ 64 = pos - alignOffset := by omega
    rw [exactly, Nat.sub_add_cancel inside]
  · have divides := wraps.resolve_left inside
    have wrapped : (pos + 2 ^ 64 - alignOffset) % 2 ^ 64 + alignOffset = pos + 2 ^ 64 := by omega
    rw [wrapped]
    exact (Nat.modEq_zero_iff_dvd.mpr divides).add_left pos

/-- The index that a round tries: the first aligned one from `pos` on. -/
def alignUp (alignMul remainder pos : Nat) : Nat :=
  if remainder ≠ 0 then pos + (alignMul - remainder) else pos

theorem alignUp_spec {pos remainder : Nat} (below : remainder < alignMul)
    (right : remainder + alignOffset ≡ pos [MOD alignMul]) :
    pos ≤ alignUp alignMul remainder pos ∧ alignUp alignMul remainder pos < pos + alignMul ∧
      alignUp alignMul remainder pos ≡ alignOffset [MOD alignMul] ∧
      ∀ p, pos ≤ p → p ≡ alignOffset [MOD alignMul] → alignUp alignMul remainder pos ≤ p := by
  unfold alignUp
  by_cases zero : remainder = 0
  · subst zero
    rw [if_neg (by simp)]
    rw [Nat.zero_add] at right
    exact ⟨le_rfl, by omega, right.symm, fun p after _ => after⟩
  · rw [if_pos zero]
    refine ⟨by omega, by omega, ?_, ?_⟩
    · have whole : remainder + alignOffset + (alignMul - remainder) = alignOffset + alignMul := by
        omega
      refine (right.symm.add_right (alignMul - remainder)).trans ?_
      rw [whole]
      exact Nat.add_mod_right _ _
    · intro p after aligned
      by_contra before
      have multiple : remainder + (p - pos) ≡ 0 [MOD alignMul] := by
        apply Nat.ModEq.add_right_cancel' alignOffset
        have moved : remainder + (p - pos) + alignOffset = remainder + alignOffset + (p - pos) := by
          omega
        rw [moved, Nat.zero_add]
        refine (right.add_right (p - pos)).trans ?_
        rwa [Nat.add_sub_cancel' after]
      have := Nat.le_of_dvd (by omega) (Nat.modEq_zero_iff_dvd.mp multiple)
      omega

theorem firstSet_eq_none {pos : Nat} :
    s.firstSet pos numBits = none ↔ ∀ i < numBits, s.contains (pos + i) = false := by
  simp [firstSet]

theorem firstSet_eq_some {pos i : Nat} (found : s.firstSet pos numBits = some i) :
    i < numBits ∧ s.contains (pos + i) = true :=
  ⟨List.mem_range.mp (List.mem_of_find?_eq_some found),
    List.find?_some (p := fun i => s.contains (pos + i)) found⟩

/-- The search from `pos` on, where nothing before `pos` will do. -/
theorem findFrom_ok (debug : Bool) (positive : 0 < numBits) (offset : alignOffset < alignMul)
    (fits : max start s.capacity + alignMul + numBits ≤ 2 ^ 64) : ∀ fuel pos : Nat,
      start ≤ pos → pos ≤ max start s.capacity → max start s.capacity + 2 ≤ fuel + pos →
      (alignOffset ≤ pos ∨ alignMul ∣ 2 ^ 64) →
      (∀ p, Unset s start numBits alignMul alignOffset p → pos ≤ p) →
      ∃ r, findFrom debug s numBits alignMul alignOffset fuel pos = .ok r ∧
        (∀ p, r = some p → IsLeast {p | Unset s start numBits alignMul alignOffset p} p) ∧
        (r = none → ∀ p, ¬ Unset s start numBits alignMul alignOffset p) := by
  intro fuel
  induction fuel with
  | zero =>
    intro pos _ bounded enough
    omega
  | succ fuel ih =>
    intro pos after bounded enough wraps rest
    have right := remainder_modEq (by omega) (by omega) wraps
    have below : (pos + 2 ^ 64 - alignOffset) % 2 ^ 64 % alignMul < alignMul :=
      Nat.mod_lt _ (by omega)
    generalize remainderIs : (pos + 2 ^ 64 - alignOffset) % 2 ^ 64 % alignMul = remainder
      at right below
    obtain ⟨up, near, aligned, least⟩ := alignUp_spec below right
    have moved : alignPos debug pos alignMul remainder = .ok (alignUp alignMul remainder pos) := by
      unfold alignPos
      unfold alignUp at near ⊢
      split
      next moves =>
        rw [if_pos moves] at near
        exact add_ok (by omega) debug
      next => rfl
    have rest' : ∀ p, Unset s start numBits alignMul alignOffset p →
        alignUp alignMul remainder pos ≤ p := fun p unset => least p (rest p unset) unset.aligned
    rw [findFrom, remainderIs, moved, ok_bind]
    clear moved
    generalize alignUp alignMul remainder pos = tried at up near aligned rest'
    rw [add_ok (by omega), ok_bind]
    by_cases past : tried + numBits > s.capacity
    · rw [if_pos past]
      refine ⟨none, rfl, by simp, ?_⟩
      intro _ p unset
      have := rest' p unset
      have := unset.inside
      omega
    · rw [if_neg past]
      cases blocked : s.firstSet tried numBits with
      | none =>
        refine ⟨some tried, rfl, ?_, by simp⟩
        rintro _ ⟨⟩
        exact ⟨⟨by omega, aligned, firstSet_eq_none.mp blocked, by omega⟩, rest'⟩
      | some i =>
        obtain ⟨inRange, set⟩ := firstSet_eq_some blocked
        apply ih
        · omega
        · omega
        · omega
        · exact wraps.imp_left (by omega)
        · intro p unset
          by_contra covered
          have first := rest' p unset
          have free := unset.unset (tried + i - p) (by omega)
          have same : p + (tried + i - p) = tried + i := by omega
          rw [same, set] at free
          cases free

/-- A search finds the least range that will do, unless none does; an empty range is found at the
start. Nothing is promised where the subtraction of the offset wraps and the multiple does not
divide the size of the address space, nor where a sum passes that size. -/
theorem findAlignedUnsetRange_least (debug : Bool) (s : BitSet)
    {start numBits alignMul alignOffset : Nat} (offset : alignOffset < alignMul)
    (wraps : alignOffset ≤ start ∨ alignMul ∣ 2 ^ 64)
    (fits : max start s.capacity + alignMul + numBits ≤ 2 ^ 64) :
    ∃ r, s.findAlignedUnsetRange debug start numBits alignMul alignOffset = .ok r ∧
      (numBits = 0 → r = some start) ∧
      (0 < numBits →
        (∀ p, r = some p ↔ IsLeast {p | Unset s start numBits alignMul alignOffset p} p) ∧
          (r = none ↔ ∀ p, ¬ Unset s start numBits alignMul alignOffset p)) := by
  unfold findAlignedUnsetRange
  rcases Nat.eq_zero_or_pos numBits with zero | positive
  · exact ⟨some start, if_pos zero, fun _ => rfl, fun positive => by omega⟩
  · obtain ⟨r, found, some, none⟩ := findFrom_ok debug positive offset fits
      (max start s.capacity + 2) start le_rfl (by omega) (by omega) wraps fun p unset => unset.after
    rw [if_neg (by omega), if_neg (by omega)]
    refine ⟨r, found, fun zero => by omega, fun _ => ⟨?_, ?_⟩⟩
    · intro p
      refine ⟨some p, ?_⟩
      intro least
      cases r with
      | none => exact absurd least.1 (none rfl p)
      | some q => exact congrArg _ ((some q rfl).unique least)
    · refine ⟨none, ?_⟩
      intro absent
      cases r with
      | none => rfl
      | some q => exact absurd (some q rfl).1 (absent q)

theorem findAlignedUnsetRange_least_pair :
    let s : BitSet := ⟨[0b10111], 64⟩
    ∃ r, s.findAlignedUnsetRange true 0 2 4 1 = .ok r ∧ (2 = 0 → r = some 0) ∧
      (0 < 2 → (∀ p, r = some p ↔ IsLeast {p | Unset s 0 2 4 1 p} p) ∧
        (r = none ↔ ∀ p, ¬ Unset s 0 2 4 1 p)) :=
  findAlignedUnsetRange_least true ⟨[0b10111], 64⟩ (by decide) (.inr (by decide)) (by decide)

/-- A range beyond the capacity is not looked for. -/
theorem findAlignedUnsetRange_full : ¬ ∀ (s : BitSet) (start numBits alignMul alignOffset : Nat),
    alignOffset < alignMul →
      ∃ p, s.findAlignedUnsetRange true start numBits alignMul alignOffset = .ok (some p) := by
  intro always
  obtain ⟨p, found⟩ := always (BitSet.new 0) 0 1 1 0 (by decide)
  cases found

end CoralReef.BitSet
