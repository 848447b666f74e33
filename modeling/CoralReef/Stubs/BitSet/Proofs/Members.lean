import CoralReef.Stubs.BitSet.Proofs.Sets

/-!
# Iterating over bit sets

The iterator hands out the members once each, in ascending order, and the population counts add up
to their number. With this a bit set refines the finite set of its members.
-/

open List

namespace CoralReef

namespace BitSetIter

variable {it it' : BitSetIter} {i : Nat}

/-- The members that an iterator has still to hand out. -/
def left (it : BitSetIter) : Finset Nat :=
  (Finset.range (64 * max it.words.length (it.wordIdx + 1))).filter fun i =>
    if i / 64 = it.wordIdx then it.current.getLsbD (i % 64)
    else it.wordIdx < i / 64 ∧ (it.words.getD (i / 64) 0).getLsbD (i % 64) = true

theorem mem_left : i ∈ it.left ↔ (i / 64 = it.wordIdx ∧ it.current.getLsbD (i % 64) = true) ∨
    (it.wordIdx < i / 64 ∧ (it.words.getD (i / 64) 0).getLsbD (i % 64) = true) := by
  unfold left
  rw [Finset.mem_filter, Finset.mem_range]
  by_cases here : i / 64 = it.wordIdx
  · rw [if_pos here]
    have inside : i < 64 * max it.words.length (it.wordIdx + 1) := by omega
    simp only [inside, here, true_and, lt_irrefl, false_and, or_false]
  · rw [if_neg here]
    simp only [here, false_and, false_or, decide_eq_true_eq, and_iff_right_iff_imp]
    rintro ⟨past, set⟩
    by_contra outside
    rw [BitSet.getD_of_length_le (by omega)] at set
    cases set.symm.trans BitVec.getLsbD_zero

theorem left_iter (s : BitSet) : s.iter.left = s.members := by
  refine (BitSet.members_ext fun i => ?_).symm
  rw [mem_left, BitSet.contains_eq]
  unfold BitSet.iter
  dsimp only
  by_cases first : i / 64 = 0
  · have head : s.words.head?.getD 0 = s.words.getD 0 0 := by
      cases s.words <;> rfl
    rw [first, head]
    simp only [lt_irrefl, true_and, false_and, or_false]
  · simp [first, Nat.pos_of_ne_zero first]

/-- At its end an iterator has nothing left. -/
theorem left_of_done (done : it.next = none) : it.left = ∅ := by
  fun_induction next it with
  | case1 it zero wordIdx past =>
    apply Finset.eq_empty_of_forall_notMem
    intro i member
    rcases mem_left.mp member with ⟨_, set⟩ | ⟨behind, set⟩
    · rw [zero] at set
      cases set.symm.trans BitVec.getLsbD_zero
    · rw [BitSet.getD_of_length_le (by omega)] at set
      cases set.symm.trans BitVec.getLsbD_zero
  | case2 it zero wordIdx inside ih =>
    rw [← ih done]
    ext i
    rw [mem_left, mem_left]
    dsimp only
    rw [zero]
    constructor
    · rintro (⟨_, set⟩ | ⟨behind, set⟩)
      · cases set.symm.trans BitVec.getLsbD_zero
      · by_cases next : i / 64 = wordIdx
        · exact .inl ⟨next, next ▸ set⟩
        · exact .inr ⟨by omega, set⟩
    · rintro (⟨next, set⟩ | ⟨behind, set⟩)
      · exact .inr ⟨by omega, by rw [next]; exact set⟩
      · exact .inr ⟨by omega, set⟩
  | case3 => cases done

/-- What an iterator hands out is the least of what it has left. -/
theorem left_of_step (step : it.next = some (i, it')) :
    i ∉ it'.left ∧ (∀ j ∈ it'.left, i ≤ j) ∧ it.left = insert i it'.left := by
  fun_induction next it with
  | case1 => cases step
  | case2 it zero wordIdx inside ih =>
    obtain ⟨fresh, least, rest⟩ := ih step
    refine ⟨fresh, least, ?_⟩
    rw [← rest]
    ext j
    rw [mem_left, mem_left]
    dsimp only
    rw [zero]
    constructor
    · rintro (⟨_, set⟩ | ⟨behind, set⟩)
      · cases set.symm.trans BitVec.getLsbD_zero
      · by_cases next : j / 64 = wordIdx
        · exact .inl ⟨next, next ▸ set⟩
        · exact .inr ⟨by omega, set⟩
    · rintro (⟨next, set⟩ | ⟨behind, set⟩)
      · exact .inr ⟨by omega, by rw [next]; exact set⟩
      · exact .inr ⟨by omega, set⟩
  | case3 it nonzero bit =>
    cases step
    have below : bit < 64 := by
      have := BitVec.ctz_lt_iff_ne_zero.mpr nonzero
      rw [BitVec.lt_def] at this
      simpa using this
    have index : (it.wordIdx * 64 + bit) / 64 = it.wordIdx ∧
        (it.wordIdx * 64 + bit) % 64 = bit := by omega
    have later : ∀ j, j ∈ left { it with current := it.current &&& (it.current - 1) } ↔
        j ∈ it.left ∧ j ≠ it.wordIdx * 64 + bit := by
      intro j
      have cleared : (it.current &&& (it.current - 1)).getLsbD (j % 64) = _ :=
        getLsbD_and_sub_one nonzero (j % 64)
      rw [mem_left, mem_left]
      dsimp only
      rw [cleared, Bool.and_eq_true, decide_eq_true_eq]
      by_cases here : j / 64 = it.wordIdx
      · have same : j = it.wordIdx * 64 + bit ↔ j % 64 = bit := by omega
        simp only [here, true_and, lt_irrefl, false_and, or_false, ne_eq, same]
        rfl
      · have other : j ≠ it.wordIdx * 64 + bit := by
          rintro rfl
          exact here index.1
        simp only [here, false_and, false_or, ne_eq, other, not_false_eq_true, and_true]
    have member : it.wordIdx * 64 + bit ∈ it.left := by
      rw [mem_left, index.1, index.2]
      exact .inl ⟨rfl, BitVec.getLsbD_true_ctz_of_ne_zero nonzero⟩
    refine ⟨fun again => ((later _).mp again).2 rfl, ?_, ?_⟩
    · intro j isLeft
      rcases mem_left.mp ((later j).mp isLeft).1 with ⟨here, set⟩ | ⟨behind, _⟩
      · by_contra before
        have early : j % 64 < it.current.ctz.toNat := by
          have : bit = it.current.ctz.toNat := rfl
          omega
        rw [BitVec.getLsbD_false_of_lt_ctz early] at set
        cases set
      · omega
    · ext j
      rw [Finset.mem_insert, later]
      constructor
      · intro isLeft
        by_cases same : j = it.wordIdx * 64 + bit
        · exact .inl same
        · exact .inr ⟨isLeft, same⟩
      · rintro (rfl | ⟨isLeft, _⟩)
        · exact member
        · exact isLeft

/-- An iterator hands out what it has left, in ascending order. -/
theorem yields_iff {list : List Nat} : it.Yields list ↔ list = it.left.sort := by
  have sorted : ∀ {it : BitSetIter} {list : List Nat}, it.Yields list → list = it.left.sort := by
    intro it list yields
    induction yields with
    | nil done => rw [left_of_done done, Finset.sort_empty]
    | cons step later ih =>
      obtain ⟨fresh, least, rest⟩ := left_of_step step
      rw [rest, Finset.sort_insert _ least fresh, ih]
  have exist : ∀ (n : Nat) (it : BitSetIter), it.left.card = n → ∃ list, it.Yields list := by
    intro n
    induction n with
    | zero =>
      intro it empty
      cases step : it.next with
      | none => exact ⟨[], .nil step⟩
      | some got =>
        obtain ⟨-, -, rest⟩ := left_of_step step
        rw [rest, Finset.card_eq_zero] at empty
        exact absurd empty (Finset.insert_ne_empty _ _)
    | succ n ih =>
      intro it count
      cases step : it.next with
      | none =>
        rw [left_of_done step, Finset.card_empty] at count
        cases count
      | some got =>
        obtain ⟨fresh, -, rest⟩ := left_of_step step
        rw [rest, Finset.card_insert_of_notMem fresh] at count
        obtain ⟨list, yields⟩ := ih got.2 (Nat.succ.inj count)
        exact ⟨got.1 :: list, .cons step yields⟩
  constructor
  · exact sorted
  · rintro rfl
    obtain ⟨list, yields⟩ := exist _ it rfl
    rwa [← sorted yields]

end BitSetIter

namespace BitSet

/-- The population counts of the words add up to the number of members. -/
theorem len_eq (s : BitSet) : s.len = s.members.card := by
  have counted : ∀ words : List (BitVec 64), (words.map fun w => w.cpop.toNat).sum =
      (List.range (64 * words.length)).countP
        fun i => (words.getD (i / 64) 0).getLsbD (i % 64) := by
    intro words
    induction words with
    | nil => rfl
    | cons w words ih =>
      have ones : w.cpop.toNat = (List.range 64).countP (w.getLsbD ·) := by
        have prefixes : ∀ k, w.cpopNatRec k 0 = (List.range k).countP (w.getLsbD ·) := by
          intro k
          induction k with
          | zero => rfl
          | succ k ihk =>
            rw [BitVec.cpopNatRec_succ, BitVec.cpopNatRec_add, ihk, range_succ,
              countP_append]
            cases bit : w.getLsbD k <;> simp [bit, Nat.add_comm]
        rw [BitVec.toNat_cpop, prefixes]
      have length : 64 * (w :: words).length = 64 + 64 * words.length := by
        rw [length_cons]
        omega
      rw [map_cons, sum_cons, ih, ones, length, range_add, countP_append,
        countP_map]
      refine congrArg₂ (· + ·) ?_ ?_
      · apply countP_congr
        intro i member
        have below := mem_range.mp member
        rw [Nat.div_eq_of_lt below, Nat.mod_eq_of_lt below]
        rfl
      · apply countP_congr
        intro i _
        have index : (64 + i) / 64 = i / 64 + 1 ∧ (64 + i) % 64 = i % 64 := by omega
        simp only [Function.comp_apply, index.1, index.2, getD_cons_succ]
  rw [len, counted, countP_eq_length_filter]
  unfold members
  have same : (s.contains ·) = fun i => (s.words.getD (i / 64) 0).getLsbD (i % 64) :=
    funext fun i => s.contains_eq i
  rw [← same, Finset.card_def, Finset.filter_val, Finset.range_val, Multiset.range,
    Multiset.filter_coe, Multiset.coe_card]
  simp only [Bool.decide_eq_true]

/-- Sets with the same members, lengths and capacities are equal. -/
theorem eq_iff {s t : BitSet} : s = t ↔
    s.members = t.members ∧ s.words.length = t.words.length ∧ s.capacity = t.capacity := by
  constructor
  · rintro rfl
    exact ⟨rfl, rfl, rfl⟩
  · rintro ⟨members, length, capacity⟩
    cases s with | mk words capacity' => cases t with | mk words' capacity'' =>
    congr
    refine ext_getElem length ?_
    intro k inside inside'
    apply BitVec.eq_of_getLsbD_eq
    intro j below
    have index : (64 * k + j) / 64 = k ∧ (64 * k + j) % 64 = j := by omega
    have bit : contains ⟨words, capacity'⟩ (64 * k + j) = contains ⟨words', capacity''⟩ (64 * k + j) := by
      rw [Bool.eq_iff_iff, ← mem_members, ← mem_members, members]
    rw [contains_eq, contains_eq, index.1, index.2] at bit
    dsimp only at bit
    rwa [getD_eq_getElem _ _ inside, getD_eq_getElem _ _ inside'] at bit

theorem isEmpty_iff (s : BitSet) : s.isEmpty = true ↔ ∀ i, s.contains i = false := by
  unfold isEmpty
  simp only [all_eq_true, decide_eq_true_eq]
  constructor
  · intro each i
    rw [contains_eq]
    by_cases inside : i / 64 < s.words.length
    · rw [getD_eq_getElem _ _ inside, each _ (getElem_mem inside)]
      exact BitVec.getLsbD_zero
    · rw [getD_of_length_le (Nat.not_lt.mp inside)]
      exact BitVec.getLsbD_zero
  · intro each word member
    obtain ⟨k, inside, rfl⟩ := getElem_of_mem member
    apply BitVec.eq_of_getLsbD_eq
    intro j below
    have index : (64 * k + j) / 64 = k ∧ (64 * k + j) % 64 = j := by omega
    have bit := each (64 * k + j)
    rw [contains_eq, index.1, index.2, getD_eq_getElem _ _ inside] at bit
    exact bit.trans BitVec.getLsbD_zero.symm

/-- What the operations do to the members of two sets `s` and `t`, with a number `i`. -/
structure Refines (s t : BitSet) (i : Nat) : Prop where
  contains : s.contains i = true ↔ i ∈ s.members
  insert : (s.insert i).1.members = Insert.insert i s.members
  isNew : (s.insert i).2 = true ↔ i ∉ s.members
  remove : (s.remove i).1.members = s.members.erase i
  wasSet : (s.remove i).2 = true ↔ i ∈ s.members
  union : (s.union t).members = s.members ∪ t.members
  intersect : (s.intersect t).members = s.members ∩ t.members
  difference : (s.difference t).members = s.members \ t.members
  bitor : (s.bitor t).members = s.members ∪ t.members
  sub : (s.sub t).members = s.members \ t.members
  isSubsetOf : s.isSubsetOf t = true ↔ s.members ⊆ t.members
  iter : ∀ list, s.iter.Yields list ↔ list = s.members.sort
  len : s.len = s.members.card
  isEmpty : s.isEmpty = true ↔ s.members = ∅
  clear : s.clear.members = ∅
  new : (BitSet.new i).members = ∅
  eq : s = t ↔ s.members = t.members ∧ s.words.length = t.words.length ∧ s.capacity = t.capacity

/-- A bit set is a finite set of numbers, whatever it was built from. -/
theorem bitSet_refines (s t : BitSet) (i : Nat) : Refines s t i where
  contains := mem_members.symm
  insert := members_ext fun j => by
    rw [contains_insert, Bool.or_eq_true, decide_eq_true_eq, Finset.mem_insert, mem_members]
  isNew := by rw [insert_new, mem_members, Bool.not_eq_true', Bool.not_eq_true]
  remove := members_ext fun j => by
    rw [contains_remove, Bool.and_eq_true, decide_eq_true_eq, Finset.mem_erase, mem_members]
  wasSet := by rw [remove_old, mem_members]
  union := members_ext fun j => by
    rw [contains_union, Bool.or_eq_true, Finset.mem_union, mem_members, mem_members]
  intersect := members_ext fun j => by
    rw [contains_intersect, Bool.and_eq_true, Finset.mem_inter, mem_members, mem_members]
  difference := members_ext fun j => by
    rw [contains_difference, Finset.mem_sdiff, mem_members, mem_members]
    simp
  bitor := members_ext fun j => by
    rw [contains_bitor, Bool.or_eq_true, Finset.mem_union, mem_members, mem_members]
  sub := members_ext fun j => by
    rw [contains_sub, Finset.mem_sdiff, mem_members, mem_members]
    simp
  isSubsetOf := by
    rw [isSubsetOf_iff]
    constructor
    · exact fun each j member => mem_members.mpr (each j (mem_members.mp member))
    · exact fun subset j present => mem_members.mp (subset (mem_members.mpr present))
  iter := fun list => by rw [BitSetIter.yields_iff, BitSetIter.left_iter]
  len := s.len_eq
  isEmpty := by
    rw [isEmpty_iff, Finset.eq_empty_iff_forall_notMem]
    exact forall_congr' fun j => by rw [mem_members, Bool.not_eq_true]
  clear := members_ext fun j => by
    simp [contains_eq, BitSet.clear, List.getD_eq_getElem?_getD]
  new := members_ext fun j => by
    have zero : (BitSet.new i).words.getD (j / 64) 0 = 0 := by
      rw [BitSet.new, List.getD_eq_getElem?_getD, List.getElem?_replicate]
      split <;> rfl
    rw [contains_eq, zero]
    simp
  eq := eq_iff

/-- A set from which everything was removed is not the empty set: its words stay behind. -/
theorem eq_not_members : ¬ ∀ s t : BitSet, s = t ↔ s.members = t.members := by
  intro extensional
  have same := (extensional (((BitSet.new 0).insert 5).1.remove 5).1 (BitSet.new 0)).mpr (by decide)
  exact absurd same (by decide)

end BitSet

end CoralReef
