import CoralReef.Codegen.UnionFind
import Mathlib.Data.Finset.Card

/-!
# The classes of a union-find forest

`rep` reads the representative of a value off the forest. `find` returns it and changes no
class; `union` joins two classes and keeps the representative of the first.
-/

open List
open Function (update update_of_ne update_self)

namespace CoralReef.UnionFind

variable {X : Type}

/-- `r` is the root of node `i`, which lies `n` links below it. -/
inductive Reaches (nodes : List (UnionFindNode X)) : Nat → Nat → Nat → Prop where
  | root {i size : Nat} {x : X} (here : nodes[i]? = some (.root size x)) : Reaches nodes 0 i i
  | child {n i p r : Nat} (here : nodes[i]? = some (.child p)) (above : Reaches nodes n p r) :
      Reaches nodes (n + 1) i r

namespace Reaches

variable {nodes : List (UnionFindNode X)}

theorem isRoot {n i r : Nat} (reaches : Reaches nodes n i r) :
    ∃ size x, nodes[r]? = some (.root size x) := by
  induction reaches with
  | root here => exact ⟨_, _, here⟩
  | child _ _ ih => exact ih

theorem inside {n i r : Nat} (reaches : Reaches nodes n i r) : i < nodes.length := by
  cases reaches with
  | root here | child here _ => exact (List.getElem?_eq_some_iff.mp here).1

/-- A node has one root, at one distance. -/
theorem unique {n i r m s : Nat} (first : Reaches nodes n i r) (second : Reaches nodes m i s) :
    n = m ∧ r = s := by
  induction first generalizing m with
  | root here =>
    cases second with
    | root => exact ⟨rfl, rfl⟩
    | child here' =>
      rw [here] at here'
      cases here'
  | child here above ih =>
    cases second with
    | root here' =>
      rw [here] at here'
      cases here'
    | child here' above' =>
      rw [here] at here'
      cases here'
      obtain ⟨rfl, rfl⟩ := ih above'
      exact ⟨rfl, rfl⟩

/-- The nodes on the path from `i` to its root are distinct, so the path is shorter than the
forest. -/
theorem lt_length {n i r : Nat} (reaches : Reaches nodes n i r) : n < nodes.length := by
  have onPath : ∀ k ≤ n, ∃ j, Reaches nodes k j r := by
    induction reaches with
    | root here =>
      intro k le
      have zero : k = 0 := by omega
      subst zero
      exact ⟨_, .root here⟩
    | @child n i p r here above ih =>
      intro k le
      by_cases top : k = n + 1
      · subst top
        exact ⟨i, .child here above⟩
      · exact ih k (by omega)
  choose! node path using onPath
  have maps : ∀ k ∈ Finset.range (n + 1), node k ∈ Finset.range nodes.length := by
    intro k member
    exact Finset.mem_range.mpr (path k (by have := Finset.mem_range.mp member; omega)).inside
  have injective : Set.InjOn node (Finset.range (n + 1)) := by
    intro k hk l hl same
    simp only [Finset.coe_range, Set.mem_Iio] at hk hl
    have first := path k (by omega)
    rw [same] at first
    exact (first.unique (path l (by omega))).1
  have := Finset.card_le_card_of_injOn node maps injective
  rw [Finset.card_range, Finset.card_range] at this
  omega

/-- Halving the path at `idx` keeps every root and lengthens no path. -/
theorem halve {idx p g : Nat} (here : nodes[idx]? = some (.child p))
    (above : nodes[p]? = some (.child g)) :
    ∀ {n i r : Nat}, Reaches nodes n i r →
      ∃ m ≤ n, Reaches (nodes.set idx (.child g)) m i r := by
  have bound := (List.getElem?_eq_some_iff.mp here).1
  intro n
  induction n using Nat.strong_induction_on with
  | _ n ih =>
    intro i r reaches
    by_cases same : i = idx
    · subst same
      cases reaches with
      | root here' =>
        rw [here] at here'
        cases here'
      | @child n i p' r here' above' =>
        rw [here] at here'
        cases here'
        cases above' with
        | root atP =>
          rw [above] at atP
          cases atP
        | @child n _ g' _ atP rest =>
          rw [above] at atP
          cases atP
          obtain ⟨m, le, short⟩ := ih n (by omega) rest
          exact ⟨m + 1, by omega, .child (by simp [bound]) short⟩
    · cases reaches with
      | root here' => exact ⟨0, le_rfl, .root (by rwa [getElem?_set_ne (Ne.symm same)])⟩
      | @child n _ q _ here' above' =>
        obtain ⟨m, le, short⟩ := ih n (by omega) above'
        exact ⟨m + 1, by omega, .child (by rwa [getElem?_set_ne (Ne.symm same)]) short⟩

end Reaches

variable {uf : UnionFind X}

/-- Two forests with the same roots for the same nodes, the second of which has no longer paths. -/
structure SameRoots (nodes nodes' : List (UnionFindNode X)) : Prop where
  length : nodes'.length = nodes.length
  reaches : ∀ {n i r : Nat}, Reaches nodes n i r → ∃ m ≤ n, Reaches nodes' m i r
  roots : ∀ {r size : Nat} {x : X},
    nodes[r]? = some (.root size x) ↔ nodes'[r]? = some (.root size x)

theorem SameRoots.trans {nodes nodes' nodes'' : List (UnionFindNode X)}
    (first : SameRoots nodes nodes') (second : SameRoots nodes' nodes'') :
    SameRoots nodes nodes'' where
  length := second.length.trans first.length
  reaches := by
    intro n i r reaches
    obtain ⟨m, shorter, reaches'⟩ := first.reaches reaches
    obtain ⟨m', shorter', reaches''⟩ := second.reaches reaches'
    exact ⟨m', shorter'.trans shorter, reaches''⟩
  roots := first.roots.trans second.roots

/-- `findRoot` returns the root of its node and halves paths only. -/
theorem findRoot_ok : ∀ (n fuel : Nat) (nodes : List (UnionFindNode X)) (idx r size : Nat) (x : X),
    Reaches nodes n idx r → n < fuel → nodes[r]? = some (.root size x) →
      ∃ nodes', findRoot fuel nodes idx = .ok (nodes', r, size, x) ∧ SameRoots nodes nodes' := by
  intro n
  induction n using Nat.strong_induction_on with
  | _ n ih =>
    intro fuel nodes idx r size x reaches enough atRoot
    have same : SameRoots nodes nodes := ⟨rfl, fun h => ⟨_, le_rfl, h⟩, Iff.rfl⟩
    cases fuel with
    | zero => omega
    | succ fuel =>
      cases reaches with
      | root here => exact ⟨nodes, by simp only [findRoot, atRoot], same⟩
      | @child n _ p _ here above =>
        cases above with
        | root atP => exact ⟨nodes, by simp only [findRoot, here, atRoot], same⟩
        | @child n _ g _ atP rest =>
          obtain ⟨m, le, short⟩ := Reaches.halve here atP rest
          have away : ∀ (s : Nat) (size : Nat) (y : X),
              nodes[s]? = some (.root size y) → idx ≠ s := by
            rintro s size y isRoot rfl
            rw [here] at isRoot
            cases isRoot
          have atRoot' : (nodes.set idx (.child g))[r]? = some (.root size x) := by
            rwa [getElem?_set_ne (away r size x atRoot)]
          obtain ⟨nodes', found, kept⟩ :=
            ih m (by omega) fuel (nodes.set idx (.child g)) g r size x short (by omega) atRoot'
          refine ⟨nodes', ?_, ?_, ?_, ?_⟩
          · simp only [findRoot, here, atP]
            exact found
          · rw [kept.length, length_set]
          · intro k i s reach
            obtain ⟨m, shorter, reach'⟩ := Reaches.halve here atP reach
            obtain ⟨m', shorter', reach''⟩ := kept.reaches reach'
            exact ⟨m', shorter'.trans shorter, reach''⟩
          · intro s size' y
            rw [← kept.roots]
            constructor
            · intro isRoot
              rwa [getElem?_set_ne (away s size' y isRoot)]
            · intro isRoot
              by_cases same : idx = s
              · subst same
                have bound := (List.getElem?_eq_some_iff.mp here).1
                rw [List.getElem?_set_self bound] at isRoot
                cases isRoot
              · rwa [getElem?_set_ne same] at isRoot

/-- Every node has a root, and the representative of a root belongs to its class. -/
structure Wf (uf : UnionFind X) : Prop where
  bound : ∀ x i, uf.idxMap x = some i → i < uf.nodes.length
  grounded : ∀ i < uf.nodes.length, ∃ n r, Reaches uf.nodes n i r
  owner : ∀ (r size : Nat) (x : X), uf.nodes[r]? = some (.root size x) →
    ∃ i n, uf.idxMap x = some i ∧ Reaches uf.nodes n i r

theorem Wf.empty : Wf ({} : UnionFind X) where
  bound := by
    intro x i h
    cases h
  grounded := by
    intro i h
    exact absurd h (Nat.not_lt_zero i)
  owner := by
    intro r size x h
    simp at h

/-- The representative of the class of `x`. -/
def rep (uf : UnionFind X) (x : X) : X :=
  match uf.find x with
  | .ok (representative, _) => representative
  | .error _ => x

theorem rep_of_none {x : X} (absent : uf.idxMap x = none) : uf.rep x = x := by
  have : uf.find x = .ok (x, uf) := by
    simp only [find, absent]
    rfl
  simp only [rep, this]

theorem find_eq {x : X} {i n r size : Nat} {y : X} (present : uf.idxMap x = some i)
    (reaches : Reaches uf.nodes n i r) (atRoot : uf.nodes[r]? = some (.root size y)) :
    ∃ nodes, uf.find x = .ok (y, { uf with nodes }) ∧ SameRoots uf.nodes nodes := by
  obtain ⟨nodes, found, same⟩ :=
    findRoot_ok n uf.nodes.length uf.nodes i r size y reaches reaches.lt_length atRoot
  refine ⟨nodes, ?_, same⟩
  simp only [find, present, found, ok_bind]
  rfl

/-- The representative, read off the root. -/
theorem rep_eq {x : X} {i n r size : Nat} {y : X} (present : uf.idxMap x = some i)
    (reaches : Reaches uf.nodes n i r) (atRoot : uf.nodes[r]? = some (.root size y)) :
    uf.rep x = y := by
  obtain ⟨nodes, found, -⟩ := find_eq present reaches atRoot
  simp only [rep, found]

/-- The root and representative of a value that the forest knows. -/
theorem Wf.root (wf : uf.Wf) {x : X} {i : Nat} (present : uf.idxMap x = some i) :
    ∃ n r size, Reaches uf.nodes n i r ∧ uf.nodes[r]? = some (.root size (uf.rep x)) := by
  obtain ⟨n, r, reaches⟩ := wf.grounded i (wf.bound x i present)
  obtain ⟨size, y, atRoot⟩ := reaches.isRoot
  exact ⟨n, r, size, reaches, by rw [rep_eq present reaches atRoot]; exact atRoot⟩

theorem Wf.halve (wf : uf.Wf) (uf' : UnionFind X) (map : uf'.idxMap = uf.idxMap)
    (same : SameRoots uf.nodes uf'.nodes) : uf'.Wf where
  bound := by
    intro x i present
    rw [same.length]
    rw [map] at present
    exact wf.bound x i present
  grounded := by
    intro i inside
    rw [same.length] at inside
    obtain ⟨n, r, reaches⟩ := wf.grounded i inside
    obtain ⟨m, -, reaches'⟩ := same.reaches reaches
    exact ⟨m, r, reaches'⟩
  owner := by
    intro r size x atRoot
    obtain ⟨i, n, present, reaches⟩ := wf.owner r size x (same.roots.mpr atRoot)
    obtain ⟨m, -, reaches'⟩ := same.reaches reaches
    exact ⟨i, m, by rwa [map], reaches'⟩

theorem Wf.rep_halve (wf : uf.Wf) (uf' : UnionFind X) (map : uf'.idxMap = uf.idxMap)
    (same : SameRoots uf.nodes uf'.nodes) (x : X) :
    uf'.rep x = uf.rep x := by
  cases present : uf.idxMap x with
  | none => rw [rep_of_none present, rep_of_none (by rwa [map])]
  | some i =>
    obtain ⟨n, r, size, reaches, atRoot⟩ := wf.root present
    obtain ⟨m, -, reaches'⟩ := same.reaches reaches
    exact rep_eq (by rwa [map]) reaches' (same.roots.mp atRoot)

/-- `find` returns the representative and changes none. -/
theorem Wf.find_ok (wf : uf.Wf) (x : X) :
    ∃ uf', uf.find x = .ok (uf.rep x, uf') ∧ uf'.Wf ∧ uf'.rep = uf.rep := by
  cases present : uf.idxMap x with
  | none =>
    refine ⟨uf, ?_, wf, rfl⟩
    rw [rep_of_none present]
    simp only [find, present]
    rfl
  | some i =>
    obtain ⟨n, r, size, reaches, atRoot⟩ := wf.root present
    obtain ⟨nodes, found, same⟩ := find_eq present reaches atRoot
    exact ⟨_, found, wf.halve _ rfl same, funext (wf.rep_halve _ rfl same)⟩

/-- A representative represents itself. -/
theorem Wf.rep_rep (wf : uf.Wf) (x : X) : uf.rep (uf.rep x) = uf.rep x := by
  cases present : uf.idxMap x with
  | none =>
    rw [rep_of_none present]
    exact rep_of_none present
  | some i =>
    obtain ⟨n, r, size, reaches, atRoot⟩ := wf.root present
    obtain ⟨j, m, present', reaches'⟩ := wf.owner r size _ atRoot
    exact rep_eq present' reaches' atRoot

/-- Linking the root `c` below the root `r` moves the class of `c` to `r`, one link further down. -/
theorem Reaches.link {nodes : List (UnionFindNode X)} {c r size size' : Nat} {x x' y : X}
    (atC : nodes[c]? = some (.root size x)) (atR : nodes[r]? = some (.root size' x'))
    (cr : c ≠ r) (total : Nat) {n i s : Nat} (reaches : Reaches nodes n i s) :
    Reaches ((nodes.set r (.root total y)).set c (.child r)) (if s = c then n + 1 else n) i
      (if s = c then r else s) := by
  have cIn := (List.getElem?_eq_some_iff.mp atC).1
  have rIn := (List.getElem?_eq_some_iff.mp atR).1
  have newRoot : ((nodes.set r (.root total y)).set c (.child r))[r]? = some (.root total y) := by
    rw [getElem?_set_ne cr, List.getElem?_set_self rIn]
  induction reaches with
  | @root i size'' z here =>
    by_cases isC : i = c
    · subst isC
      rw [if_pos rfl, if_pos rfl]
      exact .child (List.getElem?_set_self (by rwa [length_set])) (.root newRoot)
    · rw [if_neg isC, if_neg isC]
      by_cases isR : i = r
      · subst isR
        exact .root newRoot
      · apply Reaches.root
        rw [getElem?_set_ne (Ne.symm isC), getElem?_set_ne (Ne.symm isR)]
        exact here
  | @child n i p s here above ih =>
    have notC : c ≠ i := by
      rintro rfl
      rw [atC] at here
      cases here
    have notR : r ≠ i := by
      rintro rfl
      rw [atR] at here
      cases here
    have path := Reaches.child (by rwa [getElem?_set_ne notC, getElem?_set_ne notR]) ih
    have deeper : (if s = c then n + 1 else n) + 1 = if s = c then n + 1 + 1 else n + 1 := by
      split <;> rfl
    rwa [deeper] at path

/-- No two roots have the same representative. -/
theorem Wf.rep_inj (wf : uf.Wf) {r s size size' : Nat} {x : X}
    (atR : uf.nodes[r]? = some (.root size x)) (atS : uf.nodes[s]? = some (.root size' x)) :
    r = s := by
  obtain ⟨i, n, present, reaches⟩ := wf.owner r size x atR
  obtain ⟨j, m, present', reaches'⟩ := wf.owner s size' x atS
  rw [present] at present'
  cases present'
  exact (reaches.unique reaches').2

variable [DecidableEq X]

/-- Linking two roots joins their classes under the representative of one of them. -/
theorem Wf.link (wf : uf.Wf) {c r size size' total : Nat} {x x' y : X}
    (atC : uf.nodes[c]? = some (.root size x)) (atR : uf.nodes[r]? = some (.root size' x'))
    (cr : c ≠ r) (isRep : y = x ∨ y = x') (linked : UnionFind X) (map : linked.idxMap = uf.idxMap)
    (nodes : linked.nodes = (uf.nodes.set r (.root total y)).set c (.child r)) :
    linked.Wf ∧ ∀ z, linked.rep z = if uf.rep z = x ∨ uf.rep z = x' then y else uf.rep z := by
  have cIn := (List.getElem?_eq_some_iff.mp atC).1
  have rIn := (List.getElem?_eq_some_iff.mp atR).1
  have path : ∀ {n i s : Nat}, Reaches uf.nodes n i s →
      ∃ m, Reaches linked.nodes m i (if s = c then r else s) := by
    intro n i s reaches
    rw [nodes]
    exact ⟨_, reaches.link atC atR cr total⟩
  have newRoot : linked.nodes[r]? = some (.root total y) := by
    rw [nodes, getElem?_set_ne cr, List.getElem?_set_self rIn]
  have other : ∀ s, s ≠ c → s ≠ r → linked.nodes[s]? = uf.nodes[s]? := by
    intro s notC notR
    rw [nodes, getElem?_set_ne (Ne.symm notC), getElem?_set_ne (Ne.symm notR)]
  constructor
  · refine ⟨?_, ?_, ?_⟩
    · intro z i present
      rw [map] at present
      rw [nodes, length_set, length_set]
      exact wf.bound z i present
    · intro i inside
      rw [nodes, length_set, length_set] at inside
      obtain ⟨n, s, reaches⟩ := wf.grounded i inside
      obtain ⟨m, reaches'⟩ := path reaches
      exact ⟨m, _, reaches'⟩
    · intro s size'' z atRoot
      by_cases isR : s = r
      · subst isR
        rw [newRoot] at atRoot
        cases atRoot
        rcases isRep with rfl | rfl
        · obtain ⟨i, n, present, reaches⟩ := wf.owner c size y atC
          obtain ⟨m, reaches'⟩ := path reaches
          rw [if_pos rfl] at reaches'
          exact ⟨i, m, by rwa [map], reaches'⟩
        · obtain ⟨i, n, present, reaches⟩ := wf.owner s size' y atR
          obtain ⟨m, reaches'⟩ := path reaches
          rw [if_neg (Ne.symm cr)] at reaches'
          exact ⟨i, m, by rwa [map], reaches'⟩
      · by_cases isC : s = c
        · subst isC
          rw [nodes, List.getElem?_set_self (by rwa [length_set])] at atRoot
          cases atRoot
        · rw [other s isC isR] at atRoot
          obtain ⟨i, n, present, reaches⟩ := wf.owner s size'' z atRoot
          obtain ⟨m, reaches'⟩ := path reaches
          rw [if_neg isC] at reaches'
          exact ⟨i, m, by rwa [map], reaches'⟩
  · intro z
    cases present : uf.idxMap z with
    | none =>
      have fresh : ∀ {s size : Nat} {w : X}, uf.nodes[s]? = some (.root size w) → z ≠ w := by
        rintro s size w atRoot rfl
        obtain ⟨i, n, present', -⟩ := wf.owner s size z atRoot
        rw [present] at present'
        cases present'
      rw [rep_of_none present, rep_of_none (by rwa [map]), if_neg]
      rintro (same | same)
      · exact fresh atC same
      · exact fresh atR same
    | some i =>
      obtain ⟨n, s, size'', reaches, atRoot⟩ := wf.root present
      obtain ⟨m, reaches'⟩ := path reaches
      have present' : linked.idxMap z = some i := by rwa [map]
      by_cases isC : s = c
      · subst isC
        rw [atC] at atRoot
        rw [if_pos rfl] at reaches'
        rw [rep_eq present' reaches' newRoot, if_pos]
        left
        cases atRoot
        rfl
      · rw [if_neg isC] at reaches'
        by_cases isR : s = r
        · subst isR
          rw [atR] at atRoot
          rw [rep_eq present' reaches' newRoot, if_pos]
          right
          cases atRoot
          rfl
        · rw [rep_eq present' reaches' (by rw [other s isC isR]; exact atRoot), if_neg]
          rintro (same | same)
          · rw [same] at atRoot
            exact isC (wf.rep_inj atRoot atC)
          · rw [same] at atRoot
            exact isR (wf.rep_inj atRoot atR)

/-- A new node is the root of a class of its own. -/
theorem Wf.insert (wf : uf.Wf) {x : X} (absent : uf.idxMap x = none) (grown : UnionFind X)
    (map : grown.idxMap = update uf.idxMap x (some uf.nodes.length))
    (nodes : grown.nodes = uf.nodes ++ [.root 1 x]) :
    grown.Wf ∧ grown.rep = uf.rep ∧ ∀ y i, uf.idxMap y = some i → grown.idxMap y = some i := by
  have old : ∀ {n i r : Nat}, Reaches uf.nodes n i r → Reaches grown.nodes n i r := by
    intro n i r reaches
    rw [nodes]
    induction reaches with
    | root here =>
      have inside := (List.getElem?_eq_some_iff.mp here).1
      exact .root (by rwa [List.getElem?_append_left inside])
    | child here _ ih =>
      have inside := (List.getElem?_eq_some_iff.mp here).1
      exact .child (by rwa [List.getElem?_append_left inside]) ih
  have last : grown.nodes[uf.nodes.length]? = some (.root 1 x) := by simp [nodes]
  have here : grown.idxMap x = some uf.nodes.length := by rw [map, update_self]
  have kept : ∀ y i, uf.idxMap y = some i → grown.idxMap y = some i := by
    intro y i present
    rw [map, update_of_ne]
    · exact present
    · rintro rfl
      rw [absent] at present
      cases present
  refine ⟨⟨?_, ?_, ?_⟩, ?_, kept⟩
  · intro y i present
    rw [nodes, List.length_append, List.length_singleton]
    by_cases same : y = x
    · subst same
      rw [here] at present
      cases present
      omega
    · rw [map, update_of_ne same] at present
      have := wf.bound y i present
      omega
  · intro i inside
    rw [nodes, List.length_append, List.length_singleton] at inside
    by_cases new : i = uf.nodes.length
    · subst new
      exact ⟨0, _, .root last⟩
    · obtain ⟨n, r, reaches⟩ := wf.grounded i (by omega)
      exact ⟨n, r, old reaches⟩
  · intro r size y atRoot
    by_cases new : r = uf.nodes.length
    · subst new
      rw [last] at atRoot
      cases atRoot
      exact ⟨_, 0, here, .root last⟩
    · have inside : r < uf.nodes.length := by
        have := (List.getElem?_eq_some_iff.mp atRoot).1
        rw [nodes, List.length_append, List.length_singleton] at this
        omega
      rw [nodes, List.getElem?_append_left inside] at atRoot
      obtain ⟨i, n, present, reaches⟩ := wf.owner r size y atRoot
      exact ⟨i, n, kept y i present, old reaches⟩
  · funext y
    by_cases same : y = x
    · subst same
      rw [rep_of_none absent]
      exact rep_eq here (.root last) last
    · cases present : uf.idxMap y with
      | none =>
        rw [rep_of_none present]
        exact rep_of_none (by rwa [map, update_of_ne same])
      | some i =>
        obtain ⟨n, r, size, reaches, atRoot⟩ := wf.root present
        have inside := (List.getElem?_eq_some_iff.mp atRoot).1
        exact rep_eq (kept y i present) (old reaches) (by
          rwa [nodes, List.getElem?_append_left inside])

/-- `mapOrCreate` gives `x` a node and changes no class. -/
theorem Wf.mapOrCreate_ok (wf : uf.Wf) (x : X) :
    (uf.mapOrCreate x).2.Wf ∧ (uf.mapOrCreate x).2.rep = uf.rep ∧
      (uf.mapOrCreate x).2.idxMap x = some (uf.mapOrCreate x).1 ∧
      ∀ y i, uf.idxMap y = some i → (uf.mapOrCreate x).2.idxMap y = some i := by
  unfold mapOrCreate
  cases absent : uf.idxMap x with
  | some i => exact ⟨wf, rfl, absent, fun _ _ h => h⟩
  | none =>
    obtain ⟨wf', same, kept⟩ := wf.insert absent
      ⟨update uf.idxMap x (some uf.nodes.length), uf.nodes ++ [.root 1 x]⟩ rfl rfl
    exact ⟨wf', same, update_self .., kept⟩

/-- What `union` does with two values: it makes nodes for them and halves the paths to their roots,
and where these differ it links the smaller tree below the larger. -/
theorem Wf.union_cases (wf : uf.Wf) {a b : X} (different : a ≠ b) :
    ∃ (nodes : List (UnionFindNode X)) (r s size size' : Nat),
      let grown := ((uf.mapOrCreate a).2.mapOrCreate b).2
      let halved : UnionFind X := { grown with nodes }
      SameRoots grown.nodes nodes ∧ halved.Wf ∧ halved.rep = uf.rep ∧
      nodes[r]? = some (.root size (uf.rep a)) ∧ nodes[s]? = some (.root size' (uf.rep b)) ∧
      (r = s ∧ uf.union a b = .ok halved ∨
        r ≠ s ∧ size' ≤ size ∧ uf.union a b = .ok { grown with
          nodes := (nodes.set r (.root (size + size') (uf.rep a))).set s (.child r) } ∨
        r ≠ s ∧ size ≤ size' ∧ uf.union a b = .ok { grown with
          nodes := (nodes.set s (.root (size + size') (uf.rep a))).set r (.child s) }) := by
  obtain ⟨wfA, repA, presentA, keptA⟩ := wf.mapOrCreate_ok a
  obtain ⟨wfB, repB, presentB, keptB⟩ := wfA.mapOrCreate_ok b
  have presentA' := keptB a _ presentA
  set first := uf.mapOrCreate a with firstDef
  set second := first.2.mapOrCreate b with secondDef
  have rep : second.2.rep = uf.rep := repB.trans repA
  obtain ⟨n, r, size, reachesA, atA⟩ := wfB.root presentA'
  obtain ⟨m, s, size', reachesB, atB⟩ := wfB.root presentB
  rw [rep] at atA atB
  obtain ⟨nodes, foundA, sameA⟩ :=
    findRoot_ok n second.2.nodes.length second.2.nodes first.1 r size _ reachesA
      reachesA.lt_length atA
  obtain ⟨k, -, reachesB'⟩ := sameA.reaches reachesB
  obtain ⟨nodes', foundB, sameB⟩ :=
    findRoot_ok k nodes.length nodes second.1 s size' _ reachesB' reachesB'.lt_length
      (sameA.roots.mp atB)
  have same : SameRoots second.2.nodes nodes' := sameA.trans sameB
  refine ⟨nodes', r, s, size, size', same, wfB.halve _ rfl same, ?_,
    sameB.roots.mp (sameA.roots.mp atA), sameB.roots.mp (sameA.roots.mp atB), ?_⟩
  · funext z
    rw [wfB.rep_halve { second.2 with nodes := nodes' } rfl same, rep]
  by_cases joined : r = s
  · left
    refine ⟨joined, ?_⟩
    simp only [union, if_neg different, ← firstDef, ← secondDef, foundA, foundB, ok_bind, ne_eq,
      joined, not_true, ↓reduceIte]
    rfl
  · right
    by_cases larger : size ≥ size'
    · left
      refine ⟨joined, larger, ?_⟩
      simp only [union, if_neg different, ← firstDef, ← secondDef, foundA, foundB, ok_bind, ne_eq,
        joined, not_false_eq_true, ↓reduceIte, larger]
      rfl
    · right
      refine ⟨joined, by omega, ?_⟩
      simp only [union, if_neg different, ← firstDef, ← secondDef, foundA, foundB, ok_bind, ne_eq,
        joined, not_false_eq_true, ↓reduceIte, larger]
      rfl

/-- `union` joins the classes of `a` and `b` under the representative of `a`. -/
theorem Wf.union_ok (wf : uf.Wf) (a b : X) :
    ∃ uf', uf.union a b = .ok uf' ∧ uf'.Wf ∧
      ∀ z, uf'.rep z = if uf.rep z = uf.rep b then uf.rep a else uf.rep z := by
  by_cases same : a = b
  · subst same
    refine ⟨uf, ?_, wf, ?_⟩
    · simp only [union, ↓reduceIte]
      rfl
    · intro z
      split
      · rename_i equal
        exact equal
      · rfl
  · obtain ⟨nodes, r, s, size, size', -, wfH, repH, atA, atB, returned⟩ := wf.union_cases same
    have merge : ∀ z : X, (if uf.rep z = uf.rep b ∨ uf.rep z = uf.rep a then uf.rep a
        else uf.rep z) = if uf.rep z = uf.rep b then uf.rep a else uf.rep z := by
      intro z
      by_cases inA : uf.rep z = uf.rep a
      · simp [inA]
      · simp [inA]
    rcases returned with ⟨rfl, returned⟩ | ⟨joined, -, returned⟩ | ⟨joined, -, returned⟩
    · refine ⟨_, returned, wfH, ?_⟩
      intro z
      rw [repH]
      have equal : uf.rep a = uf.rep b := by
        rw [atA] at atB
        exact (UnionFindNode.root.inj (Option.some.inj atB)).2
      split
      next inClass => rw [inClass, equal]
      next => rfl
    · obtain ⟨wf', rep'⟩ := wfH.link atB atA (Ne.symm joined) (Or.inr rfl)
        { ((uf.mapOrCreate a).2.mapOrCreate b).2 with
          nodes := (nodes.set r (.root (size + size') (uf.rep a))).set s (.child r) } rfl rfl
      refine ⟨_, returned, wf', ?_⟩
      intro z
      rw [rep', repH, merge]
    · obtain ⟨wf', rep'⟩ := wfH.link atA atB joined (Or.inl rfl)
        { ((uf.mapOrCreate a).2.mapOrCreate b).2 with
          nodes := (nodes.set s (.root (size + size') (uf.rep a))).set r (.child s) } rfl rfl
      refine ⟨_, returned, wf', ?_⟩
      intro z
      rw [rep', repH, ← merge]
      simp only [or_comm]

end CoralReef.UnionFind
