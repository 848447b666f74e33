import Mathlib.Data.List.Nodup
import Mathlib.Logic.Relation

/-!
# Dominators and natural loops

A directed graph is a relation between its nodes with an entry. A trail from the entry lists its
nodes backwards, so the last node comes first.
-/

open List

namespace CoralReef

variable {ν : Type*}

/-- A trail from `entry` to a node, with the nodes on it. -/
inductive Trail (edge : ν → ν → Prop) (entry : ν) : ν → List ν → Prop where
  | start : Trail edge entry entry [entry]
  | step {p b : ν} {nodes : List ν} (trail : Trail edge entry p nodes) (next : edge p b) :
      Trail edge entry b (b :: nodes)

/-- Every trail to `b` passes through `a`. -/
def Dominates (edge : ν → ν → Prop) (entry a b : ν) : Prop :=
  ∀ nodes, Trail edge entry b nodes → a ∈ nodes

/-- Some trail leads to the node. -/
def Reachable (edge : ν → ν → Prop) (entry b : ν) : Prop := ∃ nodes, Trail edge entry b nodes

/-- The steps of a walk that keeps to nodes with a property after its first. -/
def Within (edge : ν → ν → Prop) (keep : ν → Prop) : ν → ν → Prop :=
  Relation.ReflTransGen fun u v => edge u v ∧ keep v

variable {edge : ν → ν → Prop} {entry a b c : ν} {nodes : List ν}

theorem Within.weaken {keep keep' : ν → Prop} (walk : Within edge keep a b)
    (weaker : ∀ v, keep v → keep' v) : Within edge keep' a b := by
  induction walk with
  | refl => exact .refl
  | tail _ next ih => exact .tail ih ⟨next.1, weaker _ next.2⟩

namespace Trail

theorem head (trail : Trail edge entry b nodes) : ∃ early, nodes = b :: early := by
  cases trail with
  | start => exact ⟨[], rfl⟩
  | step trail _ => exact ⟨_, rfl⟩

theorem last_mem (trail : Trail edge entry b nodes) : b ∈ nodes := by
  rcases trail.head with ⟨early, rfl⟩
  exact mem_cons_self

theorem entry_mem (trail : Trail edge entry b nodes) : entry ∈ nodes := by
  induction trail with
  | start => exact mem_cons_self
  | step _ _ ih => exact mem_cons_of_mem _ ih

/-- A trail is a trail to each of its nodes, continued. -/
theorem upTo (trail : Trail edge entry b nodes) (on : a ∈ nodes) :
    ∃ late early, nodes = late ++ early ∧ Trail edge entry a early := by
  induction trail with
  | start =>
    cases mem_singleton.mp on
    exact ⟨[], _, rfl, .start⟩
  | @step p b nodes trail next ih =>
    rcases mem_cons.mp on with rfl | on
    · exact ⟨[], _, rfl, .step trail next⟩
    · rcases ih on with ⟨late, early, rfl, found⟩
      exact ⟨b :: late, early, rfl, found⟩

/-- A trail without its detours. -/
theorem simple (trail : Trail edge entry b nodes) :
    ∃ short, Trail edge entry b short ∧ short.Nodup ∧ short ⊆ nodes := by
  induction trail with
  | start => exact ⟨_, .start, nodup_singleton _, List.Subset.refl _⟩
  | @step p b nodes trail next ih =>
    rcases ih with ⟨short, found, nodup, subset⟩
    by_cases on : b ∈ short
    · rcases found.upTo on with ⟨late, early, rfl, back⟩
      refine ⟨early, back, nodup.of_append_right, ?_⟩
      intro x member
      exact mem_cons_of_mem _ (subset (mem_append_right _ member))
    · exact ⟨b :: short, .step found next, nodup_cons.mpr ⟨on, nodup⟩,
        cons_subset_cons _ subset⟩

/-- A trail goes on along a walk. -/
theorem follow {keep : ν → Prop} (trail : Trail edge entry a nodes)
    (walk : Within edge keep a b) :
    ∃ more, Trail edge entry b (more ++ nodes) ∧ ∀ x ∈ more, keep x := by
  induction walk with
  | refl => exact ⟨[], trail, by simp⟩
  | @tail b c _ next ih =>
    rcases ih with ⟨more, found, kept⟩
    refine ⟨c :: more, .step found next.1, ?_⟩
    intro x member
    rcases mem_cons.mp member with rfl | member
    · exact next.2
    · exact kept x member

end Trail

namespace Dominates

theorem refl (b : ν) : Dominates edge entry b b := fun _ trail => trail.last_mem

theorem trans (first : Dominates edge entry a b) (second : Dominates edge entry b c) :
    Dominates edge entry a c := by
  intro nodes trail
  rcases trail.upTo (second nodes trail) with ⟨late, early, rfl, found⟩
  exact mem_append_right _ (first early found)

theorem eq_entry (dom : Dominates edge entry a entry) : a = entry :=
  mem_singleton.mp (dom _ .start)

/-- A strict dominator of a node dominates its predecessors. -/
theorem pred {p : ν} (dom : Dominates edge entry a b) (strict : a ≠ b) (next : edge p b) :
    Dominates edge entry a p := by
  intro nodes trail
  exact (mem_cons.mp (dom _ (.step trail next))).resolve_left strict

theorem reachable (dom : Dominates edge entry a b) (reach : Reachable edge entry b) :
    Reachable edge entry a := by
  rcases reach with ⟨nodes, trail⟩
  rcases trail.upTo (dom nodes trail) with ⟨_, early, _, found⟩
  exact ⟨early, found⟩

theorem antisymm (dom : Dominates edge entry a b) (back : Dominates edge entry b a)
    (reach : Reachable edge entry b) : a = b := by
  rcases reach with ⟨nodes, trail⟩
  rcases trail.simple with ⟨short, found, nodup, _⟩
  rcases found.upTo (dom short found) with ⟨late, early, rfl, toA⟩
  cases late with
  | nil =>
    rcases found.head with ⟨_, shape⟩
    rcases toA.head with ⟨_, shape'⟩
    rw [nil_append, shape'] at shape
    exact (List.cons.inj shape).1
  | cons x late =>
    rcases found.head with ⟨_, shape⟩
    cases shape
    exact absurd (back early toA) fun on =>
      (nodup_cons.mp nodup).1 (mem_append_right _ on)

/-- The simple trails decide. -/
theorem of_simple (simple : ∀ nodes, Trail edge entry b nodes → nodes.Nodup → a ∈ nodes) :
    Dominates edge entry a b := by
  intro nodes trail
  rcases trail.simple with ⟨short, found, nodup, subset⟩
  exact subset (simple short found nodup)

/-- What dominates a node and is none of the nodes of a walk to it dominates the walk's start. -/
theorem of_walk {keep : ν → Prop} (dom : Dominates edge entry a c) (walk : Within edge keep b c)
    (off : ¬ keep a) : Dominates edge entry a b := by
  intro nodes trail
  rcases trail.follow walk with ⟨more, found, kept⟩
  rcases mem_append.mp (dom _ found) with late | early
  · exact absurd (kept a late) off
  · exact early

end Dominates

/-! ## Natural loops -/

variable (edge entry)

/-- An edge to a node that dominates its source, or to its own source. -/
def BackEdge (u h : ν) : Prop :=
  edge u h ∧ (u = h ∨ Reachable edge entry u ∧ Dominates edge entry h u)

/-- The nodes from which `u` is reached without passing through `h`, and `h`. -/
def LoopBody (u h x : ν) : Prop := x = h ∨ x ≠ h ∧ Within edge (· ≠ h) x u

/-- The natural loop of the header `h`, over all of its back edges. -/
def InLoop (h x : ν) : Prop := ∃ u, BackEdge edge entry u h ∧ LoopBody edge u h x

end CoralReef
