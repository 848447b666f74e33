import CoralReef.Stubs.Cfg
import CoralReef.Misc.Dominators
import Mathlib.Data.List.Induction
import Mathlib.Data.List.Perm.Subperm

/-!
# Reverse post-order

It lists the blocks that can be reached from the entry, once each, the entry first, and before every
other block one of its predecessors.
-/

open List

namespace CoralReef.CFG

variable {α : Type}

/-- The edges between blocks. -/
def Edge (cfg : CFG α) (u v : Nat) : Prop := (u, v) ∈ cfg.edges ∧ u < cfg.len ∧ v < cfg.len

/-- Some trail of blocks leads from the entry to the block. -/
def Reached (cfg : CFG α) (b : Nat) : Prop := Reachable cfg.Edge 0 b

/-- Every trail from the entry to `b` passes through `a`. -/
def Dom (cfg : CFG α) (a b : Nat) : Prop := Dominates cfg.Edge 0 a b

variable {cfg : CFG α}

/-- Every node of a list but its last has an edge from a later one. -/
def Fed (cfg : CFG α) (order : List Nat) : Prop :=
  ∀ pre b post, order = pre ++ b :: post → post = [] ∨ ∃ p ∈ post, (p, b) ∈ cfg.edges

/-- What a visit adds to the nodes entered and to the nodes left: it leaves all that it enters, and
enters all that their edges lead to. -/
structure Visits (cfg : CFG α) (state state' : List Nat × List Nat) (new : List Nat) : Prop where
  left : state'.2 = state.2 ++ new
  entered : ∀ b, b ∈ state'.1 ↔ b ∈ state.1 ∨ b ∈ new
  next : ∀ b ∈ new, ∀ s ∈ cfg.successors b, s < cfg.len → s ∈ state'.1
  apart : ∀ b ∈ new, b ∉ state.1
  nodup : new.Nodup
  inside : ∀ b ∈ new, b < cfg.len

theorem Visits.refl (state : List Nat × List Nat) : Visits cfg state state [] where
  left := (append_nil _).symm
  entered := by simp
  next := by simp
  apart := by simp
  nodup := nodup_nil
  inside := by simp

theorem Visits.trans {first second third : List Nat × List Nat} {new new' : List Nat}
    (early : Visits cfg first second new) (late : Visits cfg second third new') :
    Visits cfg first third (new ++ new') where
  left := by rw [late.left, early.left, append_assoc]
  entered := by
    intro b
    rw [late.entered, early.entered, mem_append, or_assoc]
  next := by
    intro b member s isNext below
    rcases mem_append.mp member with member | member
    · exact (late.entered s).mpr (.inl (early.next b member s isNext below))
    · exact late.next b member s isNext below
  apart := by
    intro b member
    rcases mem_append.mp member with member | member
    · exact early.apart b member
    · exact fun known => late.apart b member ((early.entered b).mpr (.inl known))
  nodup := by
    refine nodup_append.mpr ⟨early.nodup, late.nodup, ?_⟩
    rintro b member c member' rfl
    exact late.apart b member' ((early.entered b).mpr (.inr member))
  inside := by
    intro b member
    rcases mem_append.mp member with member | member
    · exact early.inside b member
    · exact late.inside b member

/-- Distinct nodes are not more than the nodes of the graph. -/
theorem length_le_of_inside {nodes : List Nat} (nodup : nodes.Nodup)
    (inside : ∀ b ∈ nodes, b < cfg.len) : nodes.length ≤ cfg.len := by
  have subset : nodes ⊆ List.range cfg.len := fun b member => mem_range.mpr (inside b member)
  have := (subperm_of_subset nodup subset).length_le
  rwa [length_range] at this

/-- What a visit of a node adds: nothing if the node is not a block or is known, else nodes that
end with it and are fed from it. -/
structure VisitsNode (cfg : CFG α) (state state' : List Nat × List Nat) (node : Nat)
    (new : List Nat) : Prop extends Visits cfg state state' new where
  known : node < cfg.len → node ∈ state'.1
  last : new = [] ∨ ∃ pre, new = pre ++ [node]
  fed : Fed cfg new

/-- Nodes that are fed from themselves or from a node behind all of them. -/
theorem fed_snoc {new : List Nat} {node : Nat}
    (fed : ∀ pre b post, new = pre ++ b :: post →
      (∃ p ∈ post, (p, b) ∈ cfg.edges) ∨ (node, b) ∈ cfg.edges) : Fed cfg (new ++ [node]) := by
  intro pre b post split
  rcases eq_nil_or_concat post with rfl | ⟨front, last, rfl⟩
  · exact .inl rfl
  · rw [concat_eq_append] at split ⊢
    rw [← cons_append, ← append_assoc] at split
    rcases append_inj' split rfl with ⟨rfl, same⟩
    cases same
    refine .inr ?_
    rcases fed pre b front rfl with ⟨p, member, edge⟩ | edge
    · exact ⟨p, mem_append_left _ member, edge⟩
    · exact ⟨node, mem_append_right _ mem_cons_self, edge⟩

/-- A visit with enough fuel. -/
theorem rpoDfs_visits (fuel : Nat) : ∀ (state : List Nat × List Nat) (node : Nat),
    cfg.len < fuel + state.1.length → state.1.Nodup → (∀ b ∈ state.1, b < cfg.len) →
      ∃ new, VisitsNode cfg state (cfg.rpoDfs fuel state node) node new ∧
        (cfg.rpoDfs fuel state node).1.Nodup ∧
        (cfg.rpoDfs fuel state node).1.length = state.1.length + new.length := by
  induction fuel with
  | zero =>
    intro state node enough nodup inside
    have := length_le_of_inside nodup inside
    omega
  | succ fuel ih =>
    rintro ⟨visited, order⟩ node enough nodup inside
    -- The visits of the successors in turn; each ends its nodes with a successor.
    have children : ∀ (succs : List Nat) (state : List Nat × List Nat),
        cfg.len < fuel + state.1.length → state.1.Nodup → (∀ b ∈ state.1, b < cfg.len) →
          ∃ new, Visits cfg state (succs.foldl (cfg.rpoDfs fuel) state) new ∧
            (∀ s ∈ succs, s < cfg.len → s ∈ (succs.foldl (cfg.rpoDfs fuel) state).1) ∧
            (∀ pre b post, new = pre ++ b :: post →
              (∃ p ∈ post, (p, b) ∈ cfg.edges) ∨ b ∈ succs) ∧
            (succs.foldl (cfg.rpoDfs fuel) state).1.Nodup ∧
            (succs.foldl (cfg.rpoDfs fuel) state).1.length = state.1.length + new.length := by
      intro succs
      induction succs with
      | nil =>
        intro state _ nodup _
        exact ⟨[], .refl state, by simp, by simp, nodup, rfl⟩
      | cons s succs ihSuccs =>
        intro state enough nodup inside
        rcases ih state s enough nodup inside with ⟨new, visits, nodup', length⟩
        have inside' : ∀ b ∈ (cfg.rpoDfs fuel state s).1, b < cfg.len := by
          intro b member
          rcases (visits.entered b).mp member with old | fresh
          · exact inside b old
          · exact visits.inside b fresh
        rcases ihSuccs _ (by omega) nodup' inside' with ⟨new', later, all, fed, nodup'', length'⟩
        refine ⟨new ++ new', visits.toVisits.trans later, ?_, ?_, nodup'', ?_⟩
        · intro t member below
          rcases mem_cons.mp member with rfl | member
          · exact (later.entered t).mpr (.inl (visits.known below))
          · exact all t member below
        · intro pre b post split
          rcases append_eq_append_iff.mp split with ⟨gap, rfl, inNew⟩ | ⟨gap, rfl, inNew⟩
          · exact (fed gap b post inNew).imp_right (mem_cons_of_mem s)
          · cases gap with
            | nil => exact (fed [] b post inNew.symm).imp_right (mem_cons_of_mem s)
            | cons x gap =>
              rcases List.cons.inj inNew with ⟨rfl, rfl⟩
              rcases visits.fed pre b gap rfl with rfl | ⟨p, member, edge⟩
              · rcases visits.last with none | ⟨pre', same⟩
                · simp at none
                · cases (append_inj' same rfl).2
                  exact .inr mem_cons_self
              · exact .inl ⟨p, mem_append_left _ member, edge⟩
        · rw [foldl_cons, length', length, length_append, Nat.add_assoc]
    rw [rpoDfs]
    split
    · next known =>
      refine ⟨[], ⟨.refl _, ?_, .inl rfl, ?_⟩, nodup, rfl⟩
      · exact fun below => known.resolve_left (by omega)
      · intro pre b post split
        simp at split
    · next fresh =>
      rw [not_or] at fresh
      have below : node < cfg.len := by omega
      dsimp only at enough
      rcases children (cfg.successors node) (node :: visited, order)
        (by simp only [length_cons]; omega) (nodup_cons.mpr ⟨fresh.2, nodup⟩) (by
          intro b member
          rcases mem_cons.mp member with rfl | member
          · exact below
          · exact inside b member) with ⟨new, visits, all, fed, nodup', length⟩
      refine ⟨new ++ [node], ⟨⟨?_, ?_, ?_, ?_, ?_, ?_⟩, ?_, .inr ⟨new, rfl⟩, ?_⟩, nodup', ?_⟩
      · dsimp only
        rw [visits.left, append_assoc]
      · intro b
        rw [visits.entered]
        simp only [mem_cons, mem_append, not_mem_nil, or_false]
        tauto
      · intro b member s isNext belowS
        rcases mem_append.mp member with member | same
        · exact visits.next b member s isNext belowS
        · cases mem_singleton.mp same
          exact all s isNext belowS
      · intro b member known
        rcases mem_append.mp member with member | same
        · exact visits.apart b member (mem_cons_of_mem node known)
        · cases mem_singleton.mp same
          exact fresh.2 known
      · refine nodup_append.mpr ⟨visits.nodup, nodup_singleton _, ?_⟩
        intro b member c same equal
        rw [mem_singleton.mp same] at equal
        exact visits.apart b member (equal ▸ mem_cons_self)
      · intro b member
        rcases mem_append.mp member with member | same
        · exact visits.inside b member
        · cases mem_singleton.mp same
          exact below
      · exact fun _ => (visits.entered node).mpr (.inl mem_cons_self)
      · refine fed_snoc fun pre b post split => ?_
        exact (fed pre b post split).imp_right mem_successors.mp
      · dsimp only
        rw [length]
        simp only [length_cons, length_append, length_nil]
        omega

/-- What the dominator computation relies on. -/
structure IsOrder (cfg : CFG α) (rpo : List Nat) : Prop where
  first : ∃ rest, rpo = 0 :: rest
  nodup : rpo.Nodup
  mem : ∀ b, b ∈ rpo ↔ cfg.Reached b
  inside : ∀ b ∈ rpo, b < cfg.len
  /-- Before every block but the entry stands one of its predecessors. -/
  fed : ∀ done b todo, rpo = done ++ b :: todo → done = [] ∨ ∃ p ∈ done, cfg.Edge p b

/-- The depth-first walk gives such an order. -/
theorem isOrder_reversePostOrder (cfg : CFG α) (nonempty : 0 < cfg.len) :
    IsOrder cfg cfg.reversePostOrder := by
  rcases @rpoDfs_visits α cfg (cfg.len + 1) ([], []) 0 (by simp) nodup_nil (by simp)
    with ⟨new, visits, _, _⟩
  have shape : cfg.reversePostOrder = new.reverse := by
    rw [reversePostOrder, if_neg (Nat.ne_of_gt nonempty), visits.left, nil_append]
  have entered : ∀ b, b ∈ (cfg.rpoDfs (cfg.len + 1) ([], []) 0).1 ↔ b ∈ new := by
    intro b
    rw [visits.entered]
    simp
  have entry : 0 ∈ new := (entered 0).mp (visits.known nonempty)
  have fed : ∀ done b todo, new.reverse = done ++ b :: todo →
      done = [] ∨ ∃ p ∈ done, cfg.Edge p b := by
    intro done b todo split
    have split' : new = todo.reverse ++ b :: done.reverse := by
      rw [← reverse_reverse new, split]
      simp
    rcases visits.fed _ _ _ split' with none | ⟨p, member, edge⟩
    · exact .inl (reverse_eq_nil_iff.mp none)
    · refine .inr ⟨p, mem_reverse.mp member, edge, ?_, ?_⟩
      · exact visits.inside p (split' ▸ by simp_all)
      · exact visits.inside b (split' ▸ by simp)
  have first : ∃ rest, new.reverse = 0 :: rest := by
    rcases visits.last with none | ⟨pre, same⟩
    · simp [none] at entry
    · exact ⟨pre.reverse, by rw [same]; simp⟩
  rw [shape]
  refine ⟨first, nodup_reverse.mpr visits.nodup, ?_, ?_, fed⟩
  · intro b
    rw [mem_reverse]
    constructor
    · -- Every block stands behind a predecessor, so a trail leads to each in turn.
      intro member
      have all : ∀ done todo, new.reverse = done ++ todo → ∀ x ∈ done, cfg.Reached x := by
        intro done
        induction done using List.reverseRecOn with
        | nil => simp
        | append_singleton done x ih =>
          intro todo split y member
          rw [append_assoc, singleton_append] at split
          rcases mem_append.mp member with member | same
          · exact ih _ split y member
          · cases mem_singleton.mp same
            rcases fed done x todo split with rfl | ⟨p, before, edge⟩
            · rcases first with ⟨rest, isFirst⟩
              rw [isFirst] at split
              cases split
              exact ⟨_, .start⟩
            · rcases ih _ split p before with ⟨nodes, trail⟩
              exact ⟨_, .step trail edge⟩
      exact all new.reverse [] (append_nil _).symm b (mem_reverse.mpr member)
    · rintro ⟨nodes, trail⟩
      induction trail with
      | start => exact entry
      | @step p b _ _ edge ih =>
        exact (entered b).mp (visits.next p ih b (mem_successors.mpr edge.1) edge.2.2)
  · exact fun b member => visits.inside b (mem_reverse.mp member)

variable {rpo : List Nat}

theorem rpoNumber_inj {a b : Nat} (inA : a ∈ rpo) (inB : b ∈ rpo)
    (same : rpoNumber rpo a = rpoNumber rpo b) : a = b := by
  rw [rpoNumber, rpoNumber, if_pos inA, if_pos inB] at same
  exact (idxOf_inj inA).mp same

namespace IsOrder

theorem headD (order : IsOrder cfg rpo) : rpo.headD 0 = 0 := by
  rcases order.first with ⟨rest, rfl⟩
  rfl

theorem rpoNumber_zero (order : IsOrder cfg rpo) : rpoNumber rpo 0 = 0 := by
  rcases order.first with ⟨rest, rfl⟩
  simp [rpoNumber]

theorem rpoNumber_split (order : IsOrder cfg rpo) {done todo : List Nat} {b : Nat}
    (split : rpo = done ++ b :: todo) : rpoNumber rpo b = done.length := by
  have nodup := order.nodup
  rw [split] at nodup
  have fresh : b ∉ done := fun member =>
    disjoint_of_nodup_append nodup member mem_cons_self
  rw [rpoNumber, split, if_pos (by simp), idxOf_append_of_notMem fresh, idxOf_cons_self,
    Nat.add_zero]

theorem rpoNumber_lt (order : IsOrder cfg rpo) {b : Nat} (member : b ∈ rpo) :
    rpoNumber rpo b < cfg.len := by
  have := length_le_of_inside order.nodup order.inside
  rw [rpoNumber, if_pos member]
  exact Nat.lt_of_lt_of_le (idxOf_lt_length_iff.mpr member) this

/-- The blocks before `b` in the order are those with a smaller number. -/
theorem mem_done (order : IsOrder cfg rpo) {done todo : List Nat} {b p : Nat}
    (split : rpo = done ++ b :: todo) (member : p ∈ rpo) :
    p ∈ done ↔ rpoNumber rpo p < rpoNumber rpo b := by
  rw [order.rpoNumber_split split, rpoNumber, if_pos member]
  constructor
  · intro before
    rw [split, idxOf_append_of_mem before]
    exact idxOf_lt_length_iff.mpr before
  · intro below
    by_contra fresh
    rw [split, idxOf_append_of_notMem fresh] at below
    omega

end IsOrder

end CoralReef.CFG
