import Mathlib.Data.List.Perm.Basic
import Mathlib.Data.List.Nodup

/-!
# Scheduling from the bottom

A list scheduler places nodes one after the other. It counts for each node the edges to heads that
are not placed, and picks among the nodes whose count is zero, by whatever heuristic. The nodes are
the numbers below `n`, and edges go up, so the schedule ends with all nodes placed.
-/

open List
open Function (update update_of_ne update_self)

namespace CoralReef.ListSchedule

/-- Edges go up and stay below `n`. -/
def Forward (n : Nat) (heads : Nat → List Nat) : Prop := ∀ t h, h ∈ heads t → t < h ∧ h < n

/-- There is an edge. -/
def Edge (heads : Nat → List Nat) (t h : Nat) : Prop := h ∈ heads t

/-- Each node stands behind all its heads. -/
def BottomUp (heads : Nat → List Nat) (placed : List Nat) : Prop :=
  ∀ pre t post, placed = pre ++ t :: post → ∀ h ∈ heads t, h ∈ pre

/-- The number of edges of `t` to heads that are not placed. -/
def remaining (heads : Nat → List Nat) (placed : List Nat) (t : Nat) : Nat :=
  (heads t).countP fun h => decide (h ∉ placed)

variable {n : Nat} {heads : Nat → List Nat} {placed waiting : List Nat} {count : Nat → Nat}

theorem bottomUp_nil : BottomUp heads [] := by
  intro pre t post split
  simp at split

theorem BottomUp.snoc (sorted : BottomUp heads placed) {t : Nat}
    (ready : ∀ h ∈ heads t, h ∈ placed) : BottomUp heads (placed ++ [t]) := by
  intro pre u post split h isHead
  rcases eq_nil_or_concat post with rfl | ⟨post, v, rfl⟩
  · obtain ⟨same, last⟩ := append_inj' split rfl
    rw [singleton_inj] at last
    subst last
    exact same ▸ ready h isHead
  · rw [concat_eq_append, ← cons_append, ← append_assoc] at split
    exact sorted pre u post (append_inj' split rfl).1 h isHead

/-- A node stands behind everything it leads to. -/
theorem BottomUp.mem_of_path (sorted : BottomUp heads placed) {t h : Nat}
    (path : Relation.TransGen (Edge heads) t h) : ∀ {pre post : List Nat},
      placed = pre ++ t :: post → h ∈ pre := by
  induction path using Relation.TransGen.head_induction_on with
  | single edge => exact fun split => sorted _ _ _ split h edge
  | @head t c edge _ ih =>
    intro pre post split
    obtain ⟨before, between, here⟩ := append_of_mem (sorted _ _ _ split c edge)
    have whole : placed = before ++ c :: (between ++ t :: post) := by
      rw [split, here]
      simp
    rw [here]
    exact mem_append_left _ (ih whole)

/-- In the schedule from top to bottom, a node comes before everything it leads to. -/
theorem BottomUp.precedes (sorted : BottomUp heads placed) {t h : Nat} (isPlaced : t ∈ placed)
    (path : Relation.TransGen (Edge heads) t h) : [t, h].Sublist placed.reverse := by
  obtain ⟨pre, post, split⟩ := append_of_mem isPlaced
  have earlier := sorted.mem_of_path path split
  rw [split, reverse_append, reverse_cons, append_assoc]
  have here : [t, h].Sublist ([t] ++ pre.reverse) :=
    (singleton_sublist.mpr (mem_reverse.mpr earlier)).append_left [t]
  exact here.trans (sublist_append_right ..)

/-- Two different nodes do not precede each other. -/
theorem precedes_asymm {order : List Nat} (nodup : order.Nodup) {a b : Nat}
    (first : [a, b].Sublist order) : ¬ [b, a].Sublist order := by
  induction order with
  | nil => cases first
  | cons c order ih =>
    obtain ⟨fresh, nodup⟩ := nodup_cons.mp nodup
    intro second
    cases first with
    | cons _ inFirst =>
      cases second with
      | cons _ inSecond => exact ih nodup inFirst inSecond
      | cons_cons _ inSecond =>
        have inOrder : b ∈ order := inFirst.subset (by simp)
        exact fresh inOrder
    | cons_cons _ inFirst =>
      cases second with
      | cons _ inSecond =>
        have inOrder : a ∈ order := inSecond.subset (by simp)
        exact fresh inOrder
      | cons_cons _ inSecond =>
        have inOrder : a ∈ order := inFirst.subset (by simp)
        exact fresh inOrder

/-- What precedes a node stands before it. -/
theorem mem_of_precedes {i j : Nat} {pre post : List Nat} (nodup : (pre ++ j :: post).Nodup)
    (precedes : [i, j].Sublist (pre ++ j :: post)) : i ∈ pre := by
  have apart := precedes_asymm nodup precedes
  have member : i ∈ pre ++ j :: post := precedes.subset (by simp)
  rcases mem_append.mp member with earlier | later
  · exact earlier
  · rcases mem_cons.mp later with rfl | later
    · have := precedes.nodup nodup
      simp at this
    · have swapped : [j, i].Sublist (j :: post) :=
        cons_sublist_cons.mpr (singleton_sublist.mpr later)
      exact absurd (swapped.trans (sublist_append_right ..)) apart

theorem remaining_eq_zero {t : Nat} :
    remaining heads placed t = 0 ↔ ∀ h ∈ heads t, h ∈ placed := by
  simp [remaining, countP_eq_zero]

/-- Placing a node takes its edges away. -/
theorem remaining_snoc {t u : Nat} (fresh : t ∉ placed) :
    remaining heads (placed ++ [t]) u + (heads u).count t = remaining heads placed u := by
  unfold remaining
  induction heads u with
  | nil => rfl
  | cons h rest ih =>
    by_cases same : h = t
    · subst same
      simp [fresh] at ih ⊢
      omega
    · simp [same, countP_cons] at ih ⊢
      omega

/-- What holds between two picks. -/
structure Frontier (n : Nat) (heads : Nat → List Nat) (placed waiting : List Nat)
    (count : Nat → Nat) : Prop where
  distinct : (placed ++ waiting).Nodup
  inside : ∀ t ∈ placed, t < n
  sorted : BottomUp heads placed
  counted : ∀ t, t < n → t ∉ placed → count t = remaining heads placed t
  waits : ∀ t, t ∈ waiting ↔ t < n ∧ t ∉ placed ∧ remaining heads placed t = 0

namespace Frontier

theorem start (nodup : waiting.Nodup) (counted : ∀ t, t < n → count t = (heads t).length)
    (waits : ∀ t, t ∈ waiting ↔ t < n ∧ heads t = []) : Frontier n heads [] waiting count := by
  have all : ∀ t, remaining heads [] t = (heads t).length := by
    intro t
    simp [remaining]
  refine ⟨nodup, by simp, bottomUp_nil, ?_, ?_⟩
  · intro t inRange _
    rw [counted t inRange, all]
  · intro t
    rw [waits, all, length_eq_zero_iff]
    simp

/-- One pick: the tails of the node placed are counted down, and wait when they reach zero. -/
theorem place (front : Frontier n heads placed waiting count) {t : Nat} (picked : t ∈ waiting)
    {waiting' : List Nat} {count' : Nat → Nat} (nodup : waiting'.Nodup)
    (counts : ∀ u, count' u = count u - (heads u).count t) (forward : Forward n heads)
    (waits : ∀ u, u ∈ waiting' ↔ (u ∈ waiting ∧ u ≠ t) ∨ (t ∈ heads u ∧ count' u = 0)) :
    Frontier n heads (placed ++ [t]) waiting' count' := by
  obtain ⟨inRange, fresh, ready⟩ := (front.waits t).mp picked
  have counted : ∀ u, u < n → u ∉ placed ++ [t] →
      count' u = remaining heads (placed ++ [t]) u := by
    intro u inRange absent
    rw [mem_append, not_or] at absent
    rw [counts, front.counted u inRange absent.1, ← remaining_snoc fresh, Nat.add_sub_cancel]
  have waits' : ∀ u, u ∈ waiting' ↔
      u < n ∧ u ∉ placed ++ [t] ∧ remaining heads (placed ++ [t]) u = 0 := by
    intro u
    rw [waits]
    constructor
    · rintro (⟨waited, other⟩ | ⟨isTail, zero⟩)
      · obtain ⟨inRange, absent, none⟩ := (front.waits u).mp waited
        have := @remaining_snoc heads placed t u fresh
        refine ⟨inRange, by simp [absent, other], by omega⟩
      · have up := forward u t isTail
        have absent : u ∉ placed := by
          intro isPlaced
          obtain ⟨pre, post, split⟩ := append_of_mem isPlaced
          have := front.sorted pre u post split t isTail
          exact fresh (by rw [split]; exact mem_append_left _ this)
        have absent' : u ∉ placed ++ [t] := by
          rw [mem_append, mem_singleton, not_or]
          exact ⟨absent, by omega⟩
        exact ⟨by omega, absent', by rw [← counted u (by omega) absent', zero]⟩
    · rintro ⟨inRange, absent, none⟩
      have absent' := absent
      rw [mem_append, mem_singleton, not_or] at absent'
      by_cases isTail : t ∈ heads u
      · exact .inr ⟨isTail, by rw [counted u inRange absent, none]⟩
      · refine .inl ⟨(front.waits u).mpr ⟨inRange, absent'.1, ?_⟩, absent'.2⟩
        rw [← remaining_snoc fresh, none, count_eq_zero_of_not_mem isTail]
  refine ⟨?_, ?_, front.sorted.snoc (remaining_eq_zero.mp ready), counted, waits'⟩
  · have placedNodup : (placed ++ [t]).Nodup := by
      rw [← concat_eq_append]
      exact (nodup_concat placed t).mpr ⟨fresh, (nodup_append.mp front.distinct).1⟩
    refine nodup_append.mpr ⟨placedNodup, nodup, ?_⟩
    rintro u isPlaced v waited rfl
    exact ((waits' u).mp waited).2.1 isPlaced
  · intro u isPlaced
    rcases mem_append.mp isPlaced with earlier | last
    · exact front.inside u earlier
    · rw [mem_singleton] at last
      exact last ▸ inRange

/-- When no node waits, all are placed. -/
theorem all_placed (front : Frontier n heads placed [] count) (forward : Forward n heads) :
    placed.Perm (List.range n) := by
  have down : ∀ k, ∀ t, n ≤ t + k → t < n → t ∈ placed := by
    intro k
    induction k with
    | zero =>
      intro t
      omega
    | succ k ih =>
      intro t enough inRange
      by_contra absent
      have none : remaining heads placed t = 0 := by
        rw [remaining_eq_zero]
        intro h isHead
        have up := forward t h isHead
        exact ih h (by omega) up.2
      have := (front.waits t).mpr ⟨inRange, absent, none⟩
      cases this
  have nodup : placed.Nodup := by simpa using front.distinct
  rw [perm_ext_iff_of_nodup nodup nodup_range]
  intro t
  rw [mem_range]
  exact ⟨front.inside t, down n t (by omega)⟩

theorem length_le (front : Frontier n heads placed waiting count) : placed.length ≤ n := by
  have nodup := (nodup_append.mp front.distinct).1
  have := (subperm_of_subset nodup fun t member =>
    mem_range.mpr (front.inside t member)).length_le
  rwa [length_range] at this

/-- It does not matter in what order the nodes wait. -/
theorem perm {waiting' : List Nat} (front : Frontier n heads placed waiting count)
    (perm : waiting.Perm waiting') : Frontier n heads placed waiting' count := by
  refine ⟨?_, front.inside, front.sorted, front.counted, ?_⟩
  · exact (perm.append_left _).nodup_iff.mp front.distinct
  · intro t
    rw [← front.waits]
    exact perm.mem_iff.symm

end Frontier

/-- Count a tail down, and let it wait when it reaches zero. -/
def release (state : (Nat → Nat) × List Nat) (u : Nat) : (Nat → Nat) × List Nat :=
  (Function.update state.1 u (state.1 u - 1),
    if state.1 u - 1 = 0 then u :: state.2 else state.2)

/-- Steps that each count a tail down and keep what `kept` tells of a state. -/
theorem foldlM_release {σ κ ε α : Type} {step : σ → α → Except ε σ} (tail : α → Nat)
    (view : σ → (Nat → Nat) × List Nat) (kept : σ → κ)
    (one : ∀ s a, 0 < (view s).1 (tail a) → ∃ s', step s a = .ok s' ∧
      view s' = release (view s) (tail a) ∧ kept s' = kept s) : ∀ (items : List α) (s : σ),
    (∀ u, (items.map tail).count u ≤ (view s).1 u) → ∃ s', items.foldlM step s = .ok s' ∧
      view s' = (items.map tail).foldl release (view s) ∧ kept s' = kept s := by
  intro items
  induction items with
  | nil => exact fun s _ => ⟨s, rfl, rfl, rfl⟩
  | cons a items ih =>
    intro s enough
    have here := enough (tail a)
    rw [map_cons, count_cons_self] at here
    obtain ⟨next, stepped, isNext, same⟩ := one s a (by omega)
    obtain ⟨s', rest, released, same'⟩ := ih next (by
      intro u
      have := enough u
      rw [isNext, release]
      dsimp only
      by_cases here : u = tail a
      · subst here
        rw [map_cons, count_cons_self] at this
        rw [update_self]
        omega
      · rw [map_cons, count_cons_of_ne (Ne.symm here)] at this
        rwa [update_of_ne here])
    refine ⟨s', ?_, ?_, same'.trans same⟩
    · rw [foldlM_cons, stepped]
      exact rest
    · rw [released, isNext]
      rfl

/-- Counting tails down one by one, each at most as often as its count allows. -/
theorem foldl_release : ∀ (tails : List Nat) (count : Nat → Nat) (waiting : List Nat),
    waiting.Nodup → (∀ u ∈ tails, tails.count u ≤ count u ∧ u ∉ waiting) →
      let state := tails.foldl release (count, waiting)
      (∀ u, state.1 u = count u - tails.count u) ∧ state.2.Nodup ∧
        ∀ u, u ∈ state.2 ↔ u ∈ waiting ∨ (u ∈ tails ∧ state.1 u = 0) := by
  intro tails
  induction tails with
  | nil => exact fun count waiting nodup _ => ⟨by simp, nodup, by simp⟩
  | cons t tails ih =>
    intro count waiting nodup enough
    obtain ⟨here, fresh⟩ := enough t mem_cons_self
    rw [count_cons_self] at here
    have others : ∀ u, u ≠ t → (t :: tails).count u = tails.count u := by
      intro u other
      rw [count_cons_of_ne (Ne.symm other)]
    rw [foldl_cons, release]
    dsimp only
    by_cases zero : count t - 1 = 0
    · rw [if_pos zero]
      have noMore : t ∉ tails := count_eq_zero.mp (by omega)
      obtain ⟨counts, nodup', waits⟩ := ih (update count t (count t - 1)) (t :: waiting)
        (nodup_cons.mpr ⟨fresh, nodup⟩) (by
          intro u member
          have other : u ≠ t := by
            rintro rfl
            exact noMore member
          have := enough u (mem_cons_of_mem t member)
          rw [others u other] at this
          rw [update_of_ne other, mem_cons, not_or]
          exact ⟨this.1, other, this.2⟩)
      refine ⟨?_, nodup', ?_⟩
      · intro u
        rw [counts]
        by_cases same : u = t
        · subst same
          rw [update_self, count_cons_self]
          omega
        · rw [update_of_ne same, others u same]
      · intro u
        rw [waits, mem_cons, mem_cons]
        by_cases same : u = t
        · subst same
          rw [counts, update_self]
          simp
          omega
        · simp [same]
    · rw [if_neg zero]
      obtain ⟨counts, nodup', waits⟩ := ih (update count t (count t - 1)) waiting nodup (by
          intro u member
          have := enough u (mem_cons_of_mem t member)
          by_cases same : u = t
          · subst same
            rw [update_self]
            exact ⟨by omega, fresh⟩
          · rw [others u same] at this
            rwa [update_of_ne same])
      refine ⟨?_, nodup', ?_⟩
      · intro u
        rw [counts]
        by_cases same : u = t
        · subst same
          rw [update_self, count_cons_self]
          omega
        · rw [update_of_ne same, others u same]
      · intro u
        rw [waits, mem_cons]
        by_cases same : u = t
        · subst same
          rw [counts, update_self]
          constructor
          · rintro (waited | ⟨member, none⟩)
            · exact .inl waited
            · exact .inr ⟨.inl rfl, none⟩
          · rintro (waited | ⟨-, none⟩)
            · exact .inl waited
            · refine .inr ⟨count_pos_iff.mp (by omega), none⟩
        · simp [same]

/-- Placing a node and counting its tails down, whatever queue it was picked from. -/
theorem Frontier.schedule (front : Frontier n heads placed waiting count)
    (forward : Forward n heads) {t : Nat} {rest tails : List Nat}
    (picked : (t :: rest).Perm waiting) (edges : ∀ u, tails.count u = (heads u).count t) :
    (∀ u, tails.count u ≤ count u) ∧
      let state := tails.foldl release (count, rest)
      Frontier n heads (placed ++ [t]) state.2 state.1 := by
  have isWaiting : t ∈ waiting := picked.subset mem_cons_self
  obtain ⟨-, fresh, -⟩ := (front.waits t).mp isWaiting
  have distinct := (nodup_append.mp front.distinct).2.1
  obtain ⟨tFresh, others⟩ := nodup_cons.mp (picked.nodup_iff.mpr distinct)
  have isTail : ∀ u, u ∈ tails ↔ t ∈ heads u := by
    intro u
    rw [← count_pos_iff, edges, count_pos_iff]
  have enough : ∀ u, tails.count u ≤ count u := by
    intro u
    rw [edges]
    by_cases tail : t ∈ heads u
    · have up := forward u t tail
      have absent : u ∉ placed := by
        intro isPlaced
        obtain ⟨pre, post, split⟩ := append_of_mem isPlaced
        have := front.sorted pre u post split t tail
        exact fresh (by rw [split]; exact mem_append_left _ this)
      have := front.counted u (by omega) absent
      have := @remaining_snoc heads placed t u fresh
      omega
    · rw [count_eq_zero_of_not_mem tail]
      exact Nat.zero_le _
  obtain ⟨counted, nodup, waited⟩ := foldl_release tails count rest others (by
    intro u member
    refine ⟨enough u, ?_⟩
    intro waited
    have none := ((front.waits u).mp (picked.subset (mem_cons_of_mem t waited))).2.2
    rw [remaining_eq_zero] at none
    exact fresh (none t ((isTail u).mp member)))
  refine ⟨enough, front.place isWaiting nodup ?_ forward ?_⟩
  · intro u
    rw [counted, edges]
  · intro u
    rw [waited, isTail, ← picked.mem_iff, mem_cons]
    apply or_congr_left
    constructor
    · intro member
      refine ⟨.inr member, ?_⟩
      rintro rfl
      exact tFresh member
    · rintro ⟨same | member, other⟩
      · exact absurd same other
      · exact member

section Reorders

variable {α : Type} {related : α → α → Prop} {l l' : List α}

/-- `l'` holds the items of `l`, each once, and those that are related in order. -/
def Reorders (related : α → α → Prop) (l l' : List α) : Prop :=
  ∃ order : List Nat, order.Perm (List.range l.length) ∧ l' = order.filterMap (l[·]?) ∧
    ∀ i j a b, i < j → l[i]? = some a → l[j]? = some b → related a b → [i, j].Sublist order

theorem filterMap_range (l : List α) : (List.range l.length).filterMap (l[·]?) = l := by
  induction l with
  | nil => rfl
  | cons a l ih =>
    rw [length_cons, range_succ_eq_map, filterMap_cons, filterMap_map]
    exact congrArg _ ih

theorem pair_range {i j n : Nat} (less : i < j) (below : j < n) : [i, j].Sublist (List.range n) := by
  obtain ⟨k, rfl⟩ := Nat.exists_eq_add_of_lt less
  obtain ⟨m, rfl⟩ := Nat.exists_eq_add_of_lt below
  have split : i + k + 1 + m + 1 = (i + 1) + (k + m + 1) := by omega
  have left : [i].Sublist (List.range (i + 1)) :=
    singleton_sublist.mpr (mem_range.mpr (Nat.lt_succ_self i))
  have right : [i + k + 1].Sublist ((List.range (k + m + 1)).map (i + 1 + ·)) := by
    apply singleton_sublist.mpr
    exact mem_map.mpr ⟨k, mem_range.mpr (by omega), by omega⟩
  rw [split, range_add]
  exact left.append right

theorem Reorders.refl (l : List α) : Reorders related l l := by
  refine ⟨List.range l.length, .refl _, (filterMap_range l).symm, ?_⟩
  intro i j a b less _ there _
  exact pair_range less (List.getElem?_eq_some_iff.mp there).1

theorem Reorders.perm (reorders : Reorders related l l') : l'.Perm l := by
  obtain ⟨order, perm, rfl, -⟩ := reorders
  have := perm.filterMap (l[·]?)
  rwa [filterMap_range] at this

/-- What stands around a list that is reordered stays in its place. -/
theorem Reorders.frame (reorders : Reorders related l l') (pre post : List α) :
    Reorders related (pre ++ l ++ post) (pre ++ l' ++ post) := by
  obtain ⟨order, perm, rfl, keeps⟩ := reorders
  have middle : ∀ {k : Nat}, k < l.length → k ∈ order := fun below =>
    perm.symm.subset (mem_range.mpr below)
  refine ⟨List.range pre.length ++ order.map (pre.length + ·) ++
    (List.range post.length).map (pre.length + l.length + ·), ?_, ?_, ?_⟩
  · rw [length_append, length_append, range_add, range_add]
    exact ((perm.map _).append_left _).append_right _
  · have atPre : ∀ k ∈ List.range pre.length, (pre ++ l ++ post)[k]? = pre[k]? := by
      intro k below
      rw [mem_range] at below
      rw [append_assoc, getElem?_append_left below]
    have atMiddle : ∀ k ∈ order, (pre ++ l ++ post)[pre.length + k]? = l[k]? := by
      intro k member
      have below : k < l.length := mem_range.mp (perm.subset member)
      rw [append_assoc, getElem?_append_right (Nat.le_add_right ..), Nat.add_sub_cancel_left,
        getElem?_append_left below]
    have atPost : ∀ k ∈ List.range post.length,
        (pre ++ l ++ post)[pre.length + l.length + k]? = post[k]? := by
      intro k _
      rw [← length_append, getElem?_append_right (Nat.le_add_right ..),
        Nat.add_sub_cancel_left]
    rw [filterMap_append, filterMap_append, filterMap_map, filterMap_map,
      filterMap_congr atPre, filterMap_range]
    congr 1
    · congr 1
      exact (filterMap_congr atMiddle).symm
    · exact ((filterMap_congr atPost).trans (filterMap_range post)).symm
  · intro i j a b less here there isRelated
    have inside : j < pre.length + l.length + post.length := by
      have := (List.getElem?_eq_some_iff.mp there).1
      rwa [length_append, length_append] at this
    have one : ∀ {k : Nat} {items : List Nat}, k ∈ items → [k].Sublist items :=
      fun member => singleton_sublist.mpr member
    have inMiddle : ∀ {k : Nat}, pre.length ≤ k → k < pre.length + l.length →
        k ∈ order.map (pre.length + ·) := by
      intro k from_ below
      have inOrder : k - pre.length ∈ order :=
        perm.symm.subset (mem_range.mpr (by omega))
      exact mem_map.mpr ⟨k - pre.length, inOrder, by omega⟩
    have inPost : ∀ {k : Nat}, pre.length + l.length ≤ k → k < pre.length + l.length + post.length →
        k ∈ (List.range post.length).map (pre.length + l.length + ·) := by
      intro k from_ below
      have inRange : k - (pre.length + l.length) ∈ List.range post.length :=
        mem_range.mpr (by omega)
      exact mem_map.mpr ⟨_, inRange, by omega⟩
    rcases Nat.lt_or_ge j (pre.length + l.length) with notPost | isPost
    · apply List.Sublist.trans _ (sublist_append_left ..)
      rcases Nat.lt_or_ge j pre.length with isPre | notPre
      · exact (pair_range less isPre).trans (sublist_append_left ..)
      · rcases Nat.lt_or_ge i pre.length with isPre | notPre'
        · exact (one (mem_range.mpr isPre)).append (one (inMiddle notPre notPost))
        · have at_ : ∀ {k : Nat}, pre.length ≤ k → k < pre.length + l.length →
              (pre ++ l ++ post)[k]? = l[k - pre.length]? := by
            intro k from_ below
            rw [append_assoc, getElem?_append_right from_,
              getElem?_append_left (by omega)]
          rw [at_ notPre' (by omega)] at here
          rw [at_ notPre notPost] at there
          have kept := (keeps _ _ a b (by omega) here there isRelated).map (pre.length + ·)
          rw [map_cons, map_cons, map_nil, Nat.add_sub_cancel' notPre',
            Nat.add_sub_cancel' notPre] at kept
          exact kept.trans (sublist_append_right ..)
    · rcases Nat.lt_or_ge i (pre.length + l.length) with notPost | isPost'
      · have left : [i].Sublist (List.range pre.length ++ order.map (pre.length + ·)) := by
          apply one
          rcases Nat.lt_or_ge i pre.length with isPre | notPre
          · exact mem_append_left _ (mem_range.mpr isPre)
          · exact mem_append_right _ (inMiddle notPre notPost)
        exact left.append (one (inPost isPost inside))
      · have pair := pair_range (i := i - (pre.length + l.length)) (j := j - (pre.length + l.length))
          (n := post.length) (by omega) (by omega)
        have kept := pair.map (pre.length + l.length + ·)
        rw [map_cons, map_cons, map_nil, Nat.add_sub_cancel' isPost',
          Nat.add_sub_cancel' isPost] at kept
        exact kept.trans (sublist_append_right ..)

/-- What stands before an item of the list and is related to it still does. -/
theorem Reorders.split (reorders : Reorders related l l') {pre post : List α} {b : α}
    (here : l' = pre ++ b :: post) :
    ∃ pre₀ post₀, l = pre₀ ++ b :: post₀ ∧ ∀ a ∈ pre₀, related a b → a ∈ pre := by
  obtain ⟨order, perm, rfl, keeps⟩ := reorders
  obtain ⟨before, rest, rfl, isPre, isRest⟩ := filterMap_eq_append_iff.mp here
  obtain ⟨skipped, j, after, rfl, nothing, isB, -⟩ := filterMap_eq_cons_iff.mp isRest
  obtain ⟨inside, rfl⟩ := List.getElem?_eq_some_iff.mp isB
  refine ⟨l.take j, l.drop (j + 1), ?_, ?_⟩
  · rw [← drop_eq_getElem_cons inside, take_append_drop]
  · intro a member isRelated
    obtain ⟨i, below, rfl⟩ := mem_iff_getElem.mp member
    rw [length_take] at below
    rw [getElem_take] at isRelated ⊢
    have isA : l[i]? = some l[i] := getElem?_eq_getElem (by omega)
    have kept := keeps i j _ _ (by omega) isA isB isRelated
    have nodup := perm.nodup_iff.mpr nodup_range
    rw [← append_assoc] at kept nodup
    rcases mem_append.mp (mem_of_precedes nodup kept) with inBefore | inSkipped
    · rw [← isPre]
      exact mem_filterMap.mpr ⟨i, inBefore, isA⟩
    · rw [nothing i inSkipped] at isA
      cases isA

end Reorders

end CoralReef.ListSchedule
