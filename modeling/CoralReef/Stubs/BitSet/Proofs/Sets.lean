import CoralReef.Misc.BitFields
import CoralReef.Stubs.BitSet
import Mathlib.Data.Finset.Sort
import Mathlib.Data.List.GetD

/-!
# Bit sets refine sets of numbers

What every operation does to the members, whatever the lengths of the operands. Equality of bit
sets is finer than equality of their members.
-/

open List

namespace CoralReef

open BitBuffer

/-- A word without its lowest bit. -/
theorem getLsbD_and_sub_one {w : Nat} {x : BitVec w} (nonzero : x ≠ 0#w) (i : Nat) :
    (x &&& (x - 1#w)).getLsbD i = (x.getLsbD i && decide (i ≠ x.ctz.toNat)) := by
  have set : x.toNat.testBit x.ctz.toNat = true := BitVec.getLsbD_true_ctz_of_ne_zero nonzero
  have below : ∀ j < x.ctz.toNat, x.toNat.testBit j = false :=
    fun j less => BitVec.getLsbD_false_of_lt_ctz less
  generalize x.ctz.toNat = c at set below
  have low : x.toNat % 2 ^ (c + 1) = 2 ^ c := by
    apply Nat.eq_of_testBit_eq
    intro j
    rw [Nat.testBit_mod_two_pow, Nat.testBit_two_pow]
    rcases Nat.lt_trichotomy j c with less | rfl | more
    · simp [below j less, Nat.ne_of_gt less]
    · simp [set]
    · have : ¬ j < c + 1 := by omega
      simp [this, Nat.ne_of_lt more]
  have split := Nat.div_add_mod x.toNat (2 ^ (c + 1))
  rw [low] at split
  have positive : 0 < 2 ^ c := Nat.two_pow_pos c
  have less : 2 ^ c < 2 ^ (c + 1) := Nat.pow_lt_pow_right (by omega) (by omega)
  have pred : (x - 1#w).toNat = 2 ^ (c + 1) * (x.toNat / 2 ^ (c + 1)) + (2 ^ c - 1) := by
    rw [BitVec.toNat_sub_of_le]
    · have one : (1#w).toNat = 1 := by
        rw [BitVec.toNat_ofNat, Nat.mod_eq_of_lt]
        have := x.isLt
        omega
      omega
    · rw [BitVec.le_def, BitVec.toNat_ofNat]
      exact (Nat.mod_le _ _).trans (by omega)
  rw [BitVec.getLsbD_and, BitVec.getLsbD, BitVec.getLsbD, pred,
    Nat.testBit_two_pow_mul_add _ (by omega)]
  rcases Nat.lt_trichotomy i c with before | rfl | after
  · simp [below i before]
  · have : i < i + 1 := by omega
    simp [this, Nat.testBit_two_pow_sub_one]
  · have outside : ¬ i < c + 1 := by omega
    have whole : x.toNat.testBit i = (x.toNat / 2 ^ (c + 1)).testBit (i - (c + 1)) := by
      rw [Nat.testBit_div_two_pow]
      congr 1
      omega
    simp [outside, whole, Nat.ne_of_gt after]

namespace BitSet

variable (s : BitSet) (words : List (BitVec 64))

/-- The numbers in a set. -/
def members (s : BitSet) : Finset Nat := (Finset.range (64 * s.words.length)).filter (s.contains ·)

variable {s t : BitSet} {i : Nat}

theorem getD_of_length_le {words : List (BitVec 64)} {k : Nat} (past : words.length ≤ k) :
    words.getD k 0 = 0 := getD_eq_default words 0 past

theorem contains_eq (i : Nat) :
    s.contains i = (s.words.getD (i / 64) 0).getLsbD (i % 64) := by
  unfold contains wordBit
  dsimp only
  by_cases inside : i / 64 < s.words.length
  · rw [decide_eq_true inside, Bool.true_and, Bool.eq_iff_iff, decide_eq_true_eq]
    exact and_mask_ne_zero _ (Nat.mod_lt i (Nat.succ_pos 63))
  · rw [decide_eq_false inside, getD_of_length_le (Nat.not_lt.mp inside)]
    exact BitVec.getLsbD_zero.symm

theorem mem_members : i ∈ s.members ↔ s.contains i = true := by
  unfold members
  rw [Finset.mem_filter, Finset.mem_range, and_iff_right_iff_imp]
  intro holds
  by_contra outside
  rw [contains_eq, getD_of_length_le (by omega)] at holds
  cases holds.symm.trans BitVec.getLsbD_zero

/-- A set given by its words has the members that its words say. -/
theorem members_ext {members : Finset Nat} (same : ∀ i, s.contains i = true ↔ i ∈ members) :
    s.members = members := by
  ext i
  rw [mem_members, same]

/-! ## Words -/

theorem getD_resize (len k : Nat) :
    (resize words len).getD k 0 = words.getD k 0 := by
  unfold resize
  rw [getD_eq_getElem?_getD, getD_eq_getElem?_getD, List.getElem?_append]
  split
  · rfl
  next past =>
    rw [List.getElem?_eq_none (Nat.not_lt.mp past), List.getElem?_replicate]
    split <;> rfl

theorem length_resize (len : Nat) :
    (resize words len).length = max words.length len := by
  rw [resize, length_append, length_replicate]
  omega

/-- Resizing where it is needed is resizing. -/
theorem resize_of_length {len : Nat} {cond : Prop} [Decidable cond]
    (needed : ¬ cond → len ≤ words.length) :
    (if cond then resize words len else words) = resize words len := by
  split
  · rfl
  next enough =>
    have none : len - words.length = 0 := by have := needed enough; omega
    rw [resize, none, replicate_zero, append_nil]

theorem getD_modify {words : List (BitVec 64)} {k : Nat} (inside : k < words.length)
    (change : BitVec 64 → BitVec 64) (j : Nat) : (words.modify k change).getD j 0 =
      if k = j then change (words.getD j 0) else words.getD j 0 := by
  rw [getD_eq_getElem?_getD, List.getElem?_modify, getD_eq_getElem?_getD]
  by_cases same : k = j
  · subst same
    rw [List.getElem?_eq_getElem inside, if_pos rfl]
    simp
  · cases words[j]? <;> simp [same]

theorem getD_map_range {n : Nat} {f : Nat → BitVec 64} (zero : ∀ k, n ≤ k → f k = 0) (k : Nat) :
    ((List.range n).map f).getD k 0 = f k := by
  rw [getD_eq_getElem?_getD, List.getElem?_map]
  by_cases inside : k < n
  · rw [List.getElem?_range inside]
    rfl
  · rw [List.getElem?_eq_none (by rw [length_range]; omega), zero k (Nat.not_lt.mp inside)]
    rfl

/-- Words beyond the other list stay as they are. -/
theorem getD_zipWords {op : BitVec 64 → BitVec 64 → BitVec 64} (idle : ∀ a, op a 0 = a) :
    ∀ (words other : List (BitVec 64)) (k : Nat), k < words.length →
      (zipWords op words other).getD k 0 = op (words.getD k 0) (other.getD k 0) := by
  intro words
  induction words with
  | nil => exact fun _ k inside => absurd inside (Nat.not_lt_zero k)
  | cons a words ih =>
    intro other k inside
    cases other with
    | nil =>
      have past : ([] : List (BitVec 64)).getD k 0 = 0 := getD_of_length_le (Nat.zero_le k)
      rw [past, idle]
      rfl
    | cons b other =>
      cases k with
      | zero => rfl
      | succ k => exact ih other k (Nat.lt_of_succ_lt_succ inside)

theorem length_zipWords (op : BitVec 64 → BitVec 64 → BitVec 64) :
    ∀ words other : List (BitVec 64), (zipWords op words other).length = words.length := by
  intro words
  induction words with
  | nil => exact fun _ => rfl
  | cons a words ih =>
    intro other
    cases other with
    | nil => rfl
    | cons b other => exact congrArg (· + 1) (ih other)

/-! ## One bit -/

theorem words_insert (i : Nat) : (s.insert i).1.words =
    (resize s.words (i / 64 + 1)).modify (i / 64) (putBit · (i % 64) true) := by
  unfold insert wordBit
  dsimp only
  rw [resize_of_length]
  · rfl
  · intro enough
    omega

theorem contains_insert (i j : Nat) :
    (s.insert i).1.contains j = (decide (j = i) || s.contains j) := by
  have inside : i / 64 < (resize s.words (i / 64 + 1)).length := by
    rw [length_resize]
    omega
  rw [contains_eq, words_insert, getD_modify inside, getD_resize, contains_eq]
  by_cases word : i / 64 = j / 64
  · rw [if_pos word, getLsbD_putBit _ _ (Nat.mod_lt i (Nat.succ_pos 63))]
    by_cases bit : j % 64 = i % 64
    · have same : j = i := by omega
      simp [same]
    · have differs : j ≠ i := by
        rintro rfl
        exact bit rfl
      simp [bit, differs]
  · have differs : j ≠ i := by
      rintro rfl
      exact word rfl
    rw [if_neg word]
    simp [differs]

/-- Whether the bit is new is whether it was missing. -/
theorem insert_new (i : Nat) : (s.insert i).2 = !s.contains i := by
  have mask := and_mask_ne_zero (s.words.getD (i / 64) 0) (Nat.mod_lt i (Nat.succ_pos 63))
  rw [contains_eq]
  unfold insert wordBit
  dsimp only
  rw [resize_of_length _ (by omega), getD_resize]
  cases present : (s.words.getD (i / 64) 0).getLsbD (i % 64) with
  | true =>
    rw [present] at mask
    exact decide_eq_false (mask.mpr rfl)
  | false =>
    rw [present] at mask
    refine decide_eq_true ?_
    by_contra nonzero
    cases mask.mp nonzero

theorem contains_remove (i j : Nat) :
    (s.remove i).1.contains j = (decide (j ≠ i) && s.contains j) := by
  unfold remove wordBit
  dsimp only
  by_cases inside : i / 64 < s.words.length
  · rw [if_neg (by omega), contains_eq, contains_eq]
    dsimp only
    rw [getD_modify inside]
    by_cases word : i / 64 = j / 64
    · have cleared : ∀ x : BitVec 64, x &&& ~~~(1#64 <<< (i % 64)) = putBit x (i % 64) false :=
        fun _ => rfl
      rw [if_pos word, cleared, getLsbD_putBit _ _ (Nat.mod_lt i (Nat.succ_pos 63))]
      by_cases bit : j % 64 = i % 64
      · have same : j = i := by omega
        simp [same]
      · have differs : j ≠ i := by
          rintro rfl
          exact bit rfl
        simp [bit, differs]
    · have differs : j ≠ i := by
        rintro rfl
        exact word rfl
      rw [if_neg word]
      simp [differs]
  · rw [if_pos (by omega)]
    by_cases same : j = i
    · subst same
      rw [contains_eq]
      dsimp only
      rw [getD_of_length_le (by omega)]
      simp
    · simp [same]

theorem remove_old (i : Nat) : (s.remove i).2 = s.contains i := by
  unfold remove contains wordBit
  dsimp only
  by_cases inside : i / 64 < s.words.length
  · rw [if_neg (by omega), decide_eq_true inside, Bool.true_and]
  · rw [if_pos (by omega), decide_eq_false inside, Bool.false_and]

/-! ## Two sets -/

theorem contains_union (s t : BitSet) (i : Nat) :
    (s.union t).contains i = (s.contains i || t.contains i) := by
  rw [contains_eq, contains_eq, contains_eq, ← BitVec.getLsbD_or]
  unfold union
  dsimp only
  rw [resize_of_length _ (by omega)]
  by_cases inside : i / 64 < (resize s.words t.words.length).length
  · rw [getD_zipWords (fun a => BitVec.or_zero) _ _ _ inside, getD_resize]
  · have past := inside
    rw [length_resize] at past
    rw [getD_of_length_le (by rw [length_zipWords]; omega), getD_of_length_le (by omega),
      getD_of_length_le (by omega)]
    rfl

theorem contains_intersect (s t : BitSet) (i : Nat) :
    (s.intersect t).contains i = (s.contains i && t.contains i) := by
  rw [contains_eq, contains_eq, contains_eq, ← BitVec.getLsbD_and]
  unfold intersect
  dsimp only
  rw [getD_eq_getElem?_getD, List.getElem?_mapIdx]
  by_cases inside : i / 64 < s.words.length
  · rw [List.getElem?_eq_getElem inside, getD_eq_getElem _ _ inside]
    rfl
  · rw [List.getElem?_eq_none (Nat.not_lt.mp inside), getD_of_length_le (Nat.not_lt.mp inside)]
    simp

theorem contains_difference (s t : BitSet) (i : Nat) :
    (s.difference t).contains i = (s.contains i && !t.contains i) := by
  have bits : ∀ a b : BitVec 64, (a &&& ~~~b).getLsbD (i % 64) =
      (a.getLsbD (i % 64) && !b.getLsbD (i % 64)) := by
    intro a b
    rw [BitVec.getLsbD_and, BitVec.getLsbD_not, decide_eq_true (Nat.mod_lt i (Nat.succ_pos 63)),
      Bool.true_and]
  rw [contains_eq, contains_eq, contains_eq, ← bits]
  unfold difference
  dsimp only
  by_cases inside : i / 64 < s.words.length
  · rw [getD_zipWords (fun a => BitVec.and_allOnes) _ _ _ inside]
  · rw [getD_of_length_le (by rw [length_zipWords]; omega), getD_of_length_le (by omega)]
    simp

theorem contains_combine {op : BitVec 64 → BitVec 64 → BitVec 64} (zero : op 0 0 = 0)
    (s t : BitSet) (i : Nat) : (combine op s t).contains i =
      (op (s.words.getD (i / 64) 0) (t.words.getD (i / 64) 0)).getLsbD (i % 64) := by
  rw [contains_eq]
  unfold combine
  dsimp only
  rw [getD_map_range]
  intro k past
  rw [getD_of_length_le (by omega), getD_of_length_le (by omega), zero]

theorem contains_bitor (s t : BitSet) (i : Nat) :
    (s.bitor t).contains i = (s.contains i || t.contains i) := by
  rw [bitor, contains_combine (by decide), BitVec.getLsbD_or, contains_eq, contains_eq]

theorem contains_sub (s t : BitSet) (i : Nat) :
    (s.sub t).contains i = (s.contains i && !t.contains i) := by
  rw [sub, contains_combine (by decide), BitVec.getLsbD_and, BitVec.getLsbD_not,
    decide_eq_true (Nat.mod_lt i (Nat.succ_pos 63)), Bool.true_and, contains_eq, contains_eq]

theorem isSubsetOf_iff (s t : BitSet) :
    s.isSubsetOf t = true ↔ ∀ i, s.contains i = true → t.contains i = true := by
  have word : ∀ a b : BitVec 64, a &&& ~~~b = 0 ↔
      ∀ k < 64, a.getLsbD k = true → b.getLsbD k = true := by
    intro a b
    constructor
    · intro none k below set
      have bit := congrArg (fun x : BitVec 64 => x.getLsbD k) none
      simpa [below, set] using bit
    · intro each
      apply BitVec.eq_of_getLsbD_eq
      intro k below
      simp only [BitVec.getLsbD_and, BitVec.getLsbD_not, below, decide_true, Bool.true_and,
        BitVec.ofNat_eq_ofNat, BitVec.getLsbD_zero, Bool.and_eq_false_imp, Bool.not_eq_false']
      exact each k below
  unfold isSubsetOf
  simp only [all_eq_true, decide_eq_true_eq, word]
  constructor
  · intro each i present
    rw [contains_eq] at present ⊢
    by_cases inside : i / 64 < s.words.length
    · rw [getD_eq_getElem _ _ inside] at present
      exact each (s.words[i / 64], i / 64)
        (mem_zipIdx_iff_getElem?.mpr (List.getElem?_eq_getElem inside)) _
        (Nat.mod_lt i (Nat.succ_pos 63)) present
    · rw [getD_of_length_le (Nat.not_lt.mp inside)] at present
      cases present.symm.trans BitVec.getLsbD_zero
  · rintro each ⟨a, k⟩ member j below set
    have here := mem_zipIdx_iff_getElem?.mp member
    dsimp only at here set ⊢
    have index : (64 * k + j) / 64 = k ∧ (64 * k + j) % 64 = j := by omega
    have found := each (64 * k + j)
    rw [contains_eq, contains_eq, index.1, index.2, getD_eq_getElem?_getD, here] at found
    exact found set

end BitSet

end CoralReef
