import Mathlib.Data.DFinsupp.WellFounded

/-!
# Chaotic iteration

A system of equations `s i = step s i` whose right sides are monotone. Sweeps recompute the unknowns
of a list one after the other, each from the values of the moment. From below they climb to the
least solution in whatever order they go, and where no chain ascends for ever they end.
-/

open List
open Function (update_of_ne update_self)

namespace CoralReef.ChaoticIteration

variable {ι A : Type} [DecidableEq ι] {step : (ι → A) → ι → A}

variable (step) in
/-- Recompute one unknown. -/
def recompute (s : ι → A) (i : ι) : ι → A := Function.update s i (step s i)

variable (step) in
/-- Recompute the unknowns of a list. -/
def sweep (order : List ι) (s : ι → A) : ι → A := order.foldl (recompute step) s

/-- Unknowns that are not in the list keep their values. -/
theorem sweep_of_notMem {order : List ι} {i : ι} (absent : i ∉ order) :
    ∀ s : ι → A, sweep step order s i = s i := by
  induction order with
  | nil => exact fun _ => rfl
  | cons head order ih =>
    intro s
    rw [mem_cons, not_or] at absent
    exact (ih absent.2 _).trans (update_of_ne absent.1 _ _)

/-- A sweep keeps what every step keeps. -/
theorem sweep_closed {Q : ι → A → Prop} (closed : ∀ s : ι → A, (∀ i, Q i (s i)) → ∀ i, Q i (step s i))
    (order : List ι) : ∀ {s : ι → A}, (∀ i, Q i (s i)) → ∀ i, Q i (sweep step order s i) := by
  induction order with
  | nil => exact fun inside => inside
  | cons head order ih =>
    intro s inside
    apply ih
    intro i
    unfold recompute
    by_cases same : i = head
    · subst same
      rw [update_self]
      exact closed s inside i
    · rw [update_of_ne same]
      exact inside i

variable [PartialOrder A]

variable (step) in
/-- No value is above what its equation asks for. -/
def Ascending (s : ι → A) : Prop := ∀ i, s i ≤ step s i

theorem Ascending.le_recompute {s : ι → A} (ascending : Ascending step s) (i : ι) :
    s ≤ recompute step s i := by
  intro j
  unfold recompute
  by_cases same : j = i
  · subst same
    rw [update_self]
    exact ascending j
  · rw [update_of_ne same]

section Monotone

variable (mono : Monotone step)
include mono

theorem Ascending.recompute {s : ι → A} (ascending : Ascending step s) (i : ι) :
    Ascending step (recompute step s i) := by
  intro j
  refine le_trans ?_ (mono (ascending.le_recompute i) j)
  unfold ChaoticIteration.recompute
  by_cases same : j = i
  · subst same
    rw [update_self]
  · rw [update_of_ne same]
    exact ascending j

theorem Ascending.sweep (order : List ι) : ∀ {s : ι → A}, Ascending step s →
    Ascending step (sweep step order s) ∧ s ≤ ChaoticIteration.sweep step order s := by
  induction order with
  | nil => exact fun ascending => ⟨ascending, le_rfl⟩
  | cons i order ih =>
    intro s ascending
    obtain ⟨later, above⟩ := ih (ascending.recompute mono i)
    exact ⟨later, (ascending.le_recompute i).trans above⟩

/-- A sweep that changes nothing has found a solution. -/
theorem Ascending.solved {order : List ι} : ∀ {s : ι → A}, Ascending step s →
    ChaoticIteration.sweep step order s = s → ∀ i ∈ order, step s i = s i := by
  induction order with
  | nil => exact fun _ _ i member => by cases member
  | cons head order ih =>
    intro s ascending same i member
    have next := ascending.recompute mono head
    have between : ChaoticIteration.recompute step s head = s := by
      apply le_antisymm ?_ (ascending.le_recompute head)
      exact (next.sweep mono order).2.trans_eq same
    rcases mem_cons.mp member with rfl | later
    · have here := congrFun between i
      rwa [ChaoticIteration.recompute, update_self] at here
    · refine ih ascending ?_ i later
      rw [← between]
      exact (congrArg (ChaoticIteration.sweep step order) (by rw [between])).trans
        (same.trans between.symm)

/-- Sweeps stay below every solution. -/
theorem sweep_le {order : List ι} {p : ι → A} (solution : ∀ i ∈ order, step p i ≤ p i) :
    ∀ {s : ι → A}, s ≤ p → sweep step order s ≤ p := by
  induction order with
  | nil => exact fun below => below
  | cons i order ih =>
    intro s below
    refine ih (fun j member => solution j (mem_cons_of_mem i member)) ?_
    intro j
    unfold recompute
    by_cases same : j = i
    · subst same
      rw [update_self]
      exact (mono below j).trans (solution j mem_cons_self)
    · rw [update_of_ne same]
      exact below j

/-- What holds of values that a sweep keeps, and of values whose sweep it holds of, holds of all
that ascend where no chain ascends for ever: every sweep that changes something climbs. -/
theorem sweep_induction {Q : ι → A → Prop} [∀ i, WellFoundedGT {a // Q i a}]
    (closed : ∀ s : ι → A, (∀ i, Q i (s i)) → ∀ i, Q i (step s i)) (order : List ι)
    {P : (ι → A) → Prop}
    (done : ∀ s, (∀ i, Q i (s i)) → Ascending step s → sweep step order s = s → P s)
    (next : ∀ s, Ascending step s → sweep step order s ≠ s → P (sweep step order s) → P s)
    (s : ι → A) (inside : ∀ i, Q i (s i)) (ascending : Ascending step s) : P s := by
  let height : {s : ι → A // ∀ i, Q i (s i)} → (i : {i // i ∈ order}) → {a // Q i a}ᵒᵈ :=
    fun s i => OrderDual.toDual ⟨s.1 i, s.2 i⟩
  have wf : WellFounded (InvImage (· < ·) height) := InvImage.wf height wellFounded_lt
  have all : ∀ s : {s : ι → A // ∀ i, Q i (s i)}, Ascending step s.1 → P s.1 := by
    intro s
    induction s using wf.induction with
    | _ s ih =>
      intro ascending
      by_cases same : sweep step order s.1 = s.1
      · exact done s.1 s.2 ascending same
      · obtain ⟨later, above⟩ := ascending.sweep mono order
        refine next s.1 ascending same (ih ⟨_, sweep_closed closed order s.2⟩ ?_ later)
        refine lt_of_le_of_ne (fun i => above i) ?_
        intro equal
        apply same
        funext i
        by_cases member : i ∈ order
        · exact congrArg (fun a => (OrderDual.ofDual a).1) (congrFun equal ⟨i, member⟩)
        · exact sweep_of_notMem member s.1
  exact all ⟨s, inside⟩ ascending

end Monotone

end CoralReef.ChaoticIteration
