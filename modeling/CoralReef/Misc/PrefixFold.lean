import Mathlib.Algebra.GroupWithZero.Nat
import Mathlib.Algebra.Ring.Int.Defs
import Mathlib.Data.List.FinRange
import Mathlib.Data.List.Perm.Basic

/-!
# Prefix folds by doubling

What an operation gives for the items of a list in any order and bracketing, and the network of
doubling steps that gives it for each prefix of a row of values.
-/

open List

namespace CoralReef.PrefixFold

variable {α : Type*} {n : Nat}

/-- `op` gives `a` for the items of the list, in some order and bracketing. -/
inductive Combines (op : α → α → α) : List α → α → Prop where
  | single (a : α) : Combines op [a] a
  | node {l r : List α} {a b : α} : Combines op l a → Combines op r b →
      Combines op (l ++ r) (op a b)
  | perm {l l' : List α} {a : α} : Combines op l a → l.Perm l' → Combines op l' a

/-- Where order and bracketing do not matter, it is the fold. -/
theorem Combines.eq_foldr {op : α → α → α} {e : α} (assoc : ∀ a b c, op (op a b) c = op a (op b c))
    (comm : ∀ a b, op a b = op b a) (identity : ∀ a, op e a = a) {l : List α} {v : α}
    (combines : Combines op l v) : v = l.foldr op e := by
  have right : ∀ a, op a e = a := fun a => (comm a e).trans (identity a)
  have commutes : LeftCommutative op :=
    ⟨fun a b c => by rw [← assoc, comm a b, assoc]⟩
  induction combines with
  | single a => exact (right a).symm
  | @node l r a b _ _ ihl ihr =>
    have shift : ∀ items : List α, op (items.foldr op e) b = items.foldr op b := by
      intro items
      induction items with
      | nil => exact identity b
      | cons c items ih => rw [foldr_cons, foldr_cons, assoc, ih]
    rw [foldr_append, ← ihr, ← shift l, ← ihl]
  | perm _ same ih => exact ih.trans (same.foldr_eq e)

/-- A value that absorbs the others is not lost. -/
theorem Combines.absorbs {op : α → α → α} {bad : α → Prop} (left : ∀ a b, bad a → bad (op a b))
    (right : ∀ a b, bad b → bad (op a b)) {l : List α} {v : α} (combines : Combines op l v)
    (some : ∃ a ∈ l, bad a) : bad v := by
  induction combines with
  | single a =>
    rcases some with ⟨b, member, isBad⟩
    exact mem_singleton.mp member ▸ isBad
  | node _ _ ihl ihr =>
    rcases some with ⟨b, member, isBad⟩
    rcases mem_append.mp member with inLeft | inRight
    · exact left _ _ (ihl ⟨b, inLeft, isBad⟩)
    · exact right _ _ (ihr ⟨b, inRight, isBad⟩)
  | perm _ same ih =>
    rcases some with ⟨b, member, isBad⟩
    exact ih ⟨b, same.mem_iff.mpr member, isBad⟩

/-- A step: each place takes in what the place `k` before it has. -/
def scanStep (op : α → α → α) (x : Fin n → α) (k : Nat) : Fin n → α := fun i =>
  if k ≤ i.1 then op (x i) (x ⟨i.1 - k, by omega⟩) else x i

/-- The `k` places up to `i`, as far as there are so many. -/
def window (i : Fin n) (k : Nat) : List (Fin n) :=
  (List.finRange n).filter fun j => i.1 < j.1 + k ∧ j ≤ i

theorem window_one (i : Fin n) : window i 1 = [i] := by
  have only : (fun j : Fin n => decide (i.1 < j.1 + 1 ∧ j ≤ i)) = fun j => j == i := by
    funext j
    rw [Bool.eq_iff_iff, decide_eq_true_eq, beq_iff_eq, Fin.ext_iff, Fin.le_def]
    omega
  unfold window
  rw [only, filter_beq, count_eq_one_of_mem (nodup_finRange n) (mem_finRange i)]
  rfl

/-- A window reaches back to the first place. -/
theorem window_all {i : Fin n} {k : Nat} (reaches : i.1 < k) :
    window i k = (List.finRange n).filter (· ≤ i) := by
  unfold window
  congr 1
  funext j
  rw [Bool.eq_iff_iff, decide_eq_true_eq, decide_eq_true_eq, Fin.le_def]
  omega

/-- A window is the near half of it and the window of the place where that ends. -/
theorem window_double {i : Fin n} {k : Nat} (inside : k ≤ i.1) :
    (window i k ++ window ⟨i.1 - k, by omega⟩ k).Perm (window i (2 * k)) := by
  have near : window i k = (window i (2 * k)).filter fun j => i.1 < j.1 + k := by
    unfold window
    rw [filter_filter]
    congr 1
    funext j
    rw [Bool.eq_iff_iff, Bool.and_eq_true]
    simp only [decide_eq_true_eq]
    omega
  have far : window ⟨i.1 - k, by omega⟩ k =
      (window i (2 * k)).filter fun j => !decide (i.1 < j.1 + k) := by
    unfold window
    rw [filter_filter]
    congr 1
    funext j
    rw [Bool.eq_iff_iff, Bool.and_eq_true, Bool.not_eq_true']
    simp only [decide_eq_true_eq, decide_eq_false_iff_not, Fin.le_def]
    omega
  rw [near, far]
  exact filter_append_perm _ _

/-- What a step of `k` makes of values for windows of `k` places. -/
theorem scanStep_combines {op : α → α → α} {x y : Fin n → α} {k : Nat}
    (before : ∀ i, Combines op ((window i k).map x) (y i)) (i : Fin n) :
    Combines op ((window i (2 * k)).map x) (scanStep op y k i) := by
  unfold scanStep
  split
  case isTrue inside =>
    refine ((before i).node (before ⟨i.1 - k, by omega⟩)).perm ?_
    rw [← map_append]
    exact (window_double inside).map x
  case isFalse short =>
    rw [window_all (k := 2 * k) (by omega), ← window_all (k := k) (by omega)]
    exact before i

/-- The steps of 1, 2, 4 and on give each place the fold of as many places up to it. -/
theorem scan_combines (op : α → α → α) (x : Fin n → α) (steps : Nat) (i : Fin n) :
    Combines op ((window i (2 ^ steps)).map x)
      (((List.range steps).map (2 ^ ·)).foldl (scanStep op) x i) := by
  induction steps generalizing i with
  | zero =>
    rw [Nat.pow_zero, window_one]
    exact .single (x i)
  | succ steps ih =>
    rw [range_succ, map_append, foldl_append, Nat.pow_succ, Nat.mul_comm]
    exact scanStep_combines ih i

end CoralReef.PrefixFold
