import Mathlib.Data.List.Basic

/-!
# Groups with a head

A list cut into groups of one size, each behind a head of its own and the last one filled up. The
items keep their order, and an item's place follows from its number.
-/

open List

namespace CoralReef

variable {α β : Type}

/-- The groups of a list, for at most `fuel` groups. -/
def chunksOf (size : Nat) : Nat → List α → List (List α)
  | 0, _ => []
  | _ + 1, [] => []
  | fuel + 1, item :: items =>
      (item :: items).take size :: chunksOf size fuel ((item :: items).drop size)

/-- The groups one after another, each behind its head and filled up. -/
def grouped (size : Nat) (head : List α → α) (filling : α) (items : List α) : List α :=
  (chunksOf size items.length items).flatMap fun group =>
    head group :: (group ++ List.replicate (size - group.length) filling)

/-- More fuel than items changes nothing. -/
theorem chunksOf_fuel {size : Nat} (positive : 0 < size) :
    ∀ {fuel fuel' : Nat} {items : List α}, items.length ≤ fuel → items.length ≤ fuel' →
      chunksOf size fuel items = chunksOf size fuel' items := by
  intro fuel
  induction fuel with
  | zero =>
      intro fuel' items enough _
      cases items with
      | nil => cases fuel' <;> rfl
      | cons item items => simp at enough
  | succ fuel hind =>
      intro fuel' items enough enough'
      cases items with
      | nil => cases fuel' <;> rfl
      | cons item items =>
          cases fuel' with
          | zero => simp at enough'
          | succ fuel' =>
              have shorter : ((item :: items).drop size).length ≤ items.length := by
                simp only [length_drop, length_cons]
                omega
              simp only [length_cons] at enough enough'
              have same : chunksOf size fuel ((item :: items).drop size) =
                  chunksOf size fuel' ((item :: items).drop size) :=
                hind (by omega) (by omega)
              rw [chunksOf, chunksOf, same]

theorem grouped_nil (size : Nat) (head : List α → α) (filling : α) :
    grouped size head filling [] = [] := rfl

/-- The first group and the others. -/
theorem grouped_cons {size : Nat} (positive : 0 < size) (head : List α → α) (filling : α)
    {items : List α} (some_items : items ≠ []) :
    grouped size head filling items =
      head (items.take size) :: (items.take size ++
        List.replicate (size - (items.take size).length) filling ++
          grouped size head filling (items.drop size)) := by
  cases items with
  | nil => exact absurd rfl some_items
  | cons item items =>
      have shorter : ((item :: items).drop size).length ≤ items.length := by
        simp only [length_drop, length_cons]
        omega
      rw [grouped, length_cons, chunksOf, flatMap_cons, grouped,
        chunksOf_fuel positive shorter (Nat.le_refl _)]
      rfl

section

variable {size : Nat} (positive : 0 < size) {head : List α → α} {filling : α}
  {real : α → Option β} (heads : ∀ group, real (head group) = none)
  (fillings : real filling = none)

include heads fillings positive

/-- The heads and the filling aside, the items are all there in order. -/
theorem filterMap_grouped (items : List α) :
    (grouped size head filling items).filterMap real = items.filterMap real := by
  induction length : items.length using Nat.strongRecOn generalizing items with
  | _ length' hind =>
      by_cases empty : items = []
      · rw [empty, grouped_nil]
      · have shorter : (items.drop size).length < length' := by
          have := length_pos_of_ne_nil empty
          simp only [length_drop]
          omega
        rw [grouped_cons positive head filling empty, filterMap_cons_none (heads _),
          filterMap_append, filterMap_append, hind _ shorter _ rfl]
        simp only [filterMap_replicate, fillings, append_nil]
        rw [← filterMap_append, take_append_drop]

/-- What follows the place of an item are that item and the later ones. -/
theorem filterMap_drop_grouped {items : List α} {n : Nat} (inside : n ≤ items.length) :
    ((grouped size head filling items).drop (n + n / size + 1)).filterMap real =
      (items.drop n).filterMap real := by
  induction length : items.length using Nat.strongRecOn generalizing items n with
  | _ length' hind =>
      by_cases empty : items = []
      · simp [empty, grouped_nil]
      · have some_items := length_pos_of_ne_nil empty
        rw [grouped_cons positive head filling empty]
        by_cases first : n < size
        · rw [Nat.div_eq_of_lt first, Nat.add_zero, drop_succ_cons, append_assoc]
          have full : n ≤ (items.take size).length := by
            rw [length_take]
            omega
          rw [drop_append_of_le_length full, filterMap_append, filterMap_append,
            filterMap_grouped positive heads fillings]
          simp only [filterMap_replicate, fillings, nil_append]
          rw [← filterMap_append, ← drop_append_of_le_length full,
            take_append_drop]
        · have full : size ≤ items.length := by omega
          have shorter : (items.drop size).length < length' := by
            rw [length_drop]
            omega
          have place : n + n / size + 1 =
              size + 1 + (n - size + (n - size) / size + 1) := by
            rw [Nat.div_eq_sub_div positive (by omega)]
            omega
          have group : (items.take size ++
              List.replicate (size - (items.take size).length) filling).length = size := by
            rw [length_append, length_replicate, length_take]
            omega
          have later : ((grouped size head filling (items.drop size)).drop
              (n - size + (n - size) / size + 1)).filterMap real =
                ((items.drop size).drop (n - size)).filterMap real :=
            hind _ shorter (by rw [length_drop]; omega) rfl
          rw [place, ← drop_drop, drop_succ_cons, drop_append_of_le_length (Nat.le_of_eq group.symm),
            drop_of_length_le (Nat.le_of_eq group), nil_append, later, drop_drop]
          congr 2
          omega

end

/-- Every group takes one place more than its size. -/
theorem length_grouped {size : Nat} (positive : 0 < size) (head : List α → α) (filling : α)
    (items : List α) :
    (grouped size head filling items).length =
      (items.length + (size - 1)) / size * (size + 1) := by
  induction length : items.length using Nat.strongRecOn generalizing items with
  | _ length' hind =>
      subst length
      by_cases empty : items = []
      · subst empty
        rw [grouped_nil, length_nil, Nat.zero_add,
          Nat.div_eq_of_lt (by omega), Nat.zero_mul]
      · have some_items := length_pos_of_ne_nil empty
        have shorter : (items.drop size).length < items.length := by
          rw [length_drop]
          omega
        have group : (items.take size ++
            List.replicate (size - (items.take size).length) filling).length = size := by
          rw [length_append, length_replicate, length_take]
          omega
        rw [grouped_cons positive head filling empty, length_cons, length_append, group,
          hind _ shorter _ rfl, length_drop]
        by_cases last : items.length ≤ size
        · rw [Nat.sub_eq_zero_of_le last, Nat.zero_add, Nat.div_eq_of_lt (by omega : size - 1 < size)]
          have one : (items.length + (size - 1)) / size = 1 := by
            rw [Nat.div_eq_iff positive]
            omega
          rw [one]
          omega
        · have next : (items.length + (size - 1)) / size =
              (items.length - size + (size - 1)) / size + 1 := by
            rw [← Nat.add_div_right _ positive]
            congr 1
            omega
          rw [next, Nat.add_mul, Nat.one_mul]
          omega

/-- An item is at its place. -/
theorem getElem_grouped {size : Nat} (positive : 0 < size) (head : List α → α) (filling : α)
    {items : List α} {n : Nat} (inside : n < items.length) :
    (grouped size head filling items)[n + n / size + 1]? = items[n]? := by
  induction length : items.length using Nat.strongRecOn generalizing items n with
  | _ length' hind =>
      have some_items : items ≠ [] := by
        rintro rfl
        simp at inside
      rw [grouped_cons positive head filling some_items, List.getElem?_cons_succ]
      by_cases first : n < size
      · have full : n < (items.take size).length := by
          rw [length_take]
          omega
        rw [Nat.div_eq_of_lt first, Nat.add_zero, append_assoc,
          List.getElem?_append_left full, List.getElem?_take_of_lt first]
      · have full : size ≤ items.length := by omega
        have shorter : (items.drop size).length < length' := by
          rw [length_drop]
          omega
        have place : n + n / size = size + (n - size + (n - size) / size + 1) := by
          rw [Nat.div_eq_sub_div positive (by omega)]
          omega
        have group : (items.take size ++
            List.replicate (size - (items.take size).length) filling).length = size := by
          rw [length_append, length_replicate, length_take]
          omega
        have later : (grouped size head filling (items.drop size))[
            n - size + (n - size) / size + 1]? = (items.drop size)[n - size]? :=
          hind _ shorter (by rw [length_drop]; omega) rfl
        rw [place, List.getElem?_append_right
          (Nat.le_trans (Nat.le_of_eq group) (Nat.le_add_right ..)), group, Nat.add_sub_cancel_left, later,
          List.getElem?_drop]
        congr 1
        omega

end CoralReef
