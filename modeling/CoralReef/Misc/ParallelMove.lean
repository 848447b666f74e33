import Mathlib.Dynamics.PeriodicPts.Lemmas

/-!
# Pending moves

A set of simultaneous moves that is carried out one at a time. `src i = some j` says that
node `i` must still read node `j`; `held` is what each node holds now and `want` what it has to
hold in the end. The rules below say which single moves keep the moves settleable: a copy into
a node nobody reads, a swap around a cycle, and a walk around a cycle with one value kept aside.
-/

open List
open Function (update update_of_ne update_self)

namespace CoralReef.ParallelMove

variable {ι V : Type}

/-- Each node, or the node it has yet to read, holds the value wanted. -/
def Settles (src : ι → Option ι) (held want : ι → V) : Prop :=
  ∀ i, held ((src i).getD i) = want i

/-- `Settles`, where the readers of `root` are served by the value kept aside. -/
def SettlesFrom [DecidableEq ι] (src : ι → Option ι) (held want : ι → V) (root : ι) (kept : V) :
    Prop :=
  ∀ i, (if src i = some root then kept else held ((src i).getD i)) = want i

/-- No node has two readers. -/
def OneReader (src : ι → Option ι) : Prop :=
  ∀ a b c, src a = some c → src b = some c → a = b

/-- Every node that is read, but for those in `except`, has a move to make itself. -/
def SourcesPending (src : ι → Option ι) (except : ι → Prop) : Prop :=
  ∀ i j, src i = some j → (src j).isSome ∨ except j

/-- What is left once no node can take its value directly: disjoint cycles. -/
structure Cyclic (src : ι → Option ι) : Prop where
  one : OneReader src
  pending : SourcesPending src fun _ => False

/-- A walk around one cycle of a cyclic set: the nodes from `root` up to `p` have moved. -/
structure Walking (src : ι → Option ι) (root p : ι) : Prop where
  one : OneReader src
  pending : SourcesPending src (· = root)
  unread : ∀ k, src k = some p → p = root

variable {src : ι → Option ι} {held want : ι → V}

/-- A walk can start at any node of a cyclic set. -/
theorem Cyclic.walk (cyclic : Cyclic src) (root : ι) : Walking src root root where
  one := cyclic.one
  pending := fun i j edge => Or.inl ((cyclic.pending i j edge).resolve_right id)
  unread := fun _ _ => rfl

/-- Following the reads from a node of a cyclic set leads back to it. -/
theorem Cyclic.transGen (cyclic : Cyclic src) (nodes : Finset ι)
    (members : ∀ i, i ∈ nodes ↔ (src i).isSome) {i : ι} (isPending : (src i).isSome) :
    Relation.TransGen (fun a b => src a = some b) i i := by
  let next : nodes → nodes := fun node =>
    ⟨(src node).get ((members node).mp node.2), (members _).mpr
      ((cyclic.pending node _ (Option.some_get _).symm).resolve_right id)⟩
  have edge : ∀ node : nodes, src node = some (next node) := fun node => (Option.some_get _).symm
  have injective : Function.Injective next := by
    intro a b same
    exact Subtype.ext (cyclic.one a b (next a) (edge a) (by rw [same]; exact edge b))
  have steps : ∀ (count : Nat) (node : nodes),
      Relation.TransGen (fun a b => src a = some b) node.1 (next^[count + 1] node).1 := by
    intro count
    induction count with
    | zero => exact fun node => Relation.TransGen.single (edge node)
    | succ count ih =>
      intro node
      rw [Function.iterate_succ_apply]
      exact Relation.TransGen.head (edge node) (ih (next node))
  obtain ⟨count, positive, period⟩ := injective.mem_periodicPts ⟨i, (members i).mpr isPending⟩
  obtain ⟨before, rfl⟩ := Nat.exists_eq_succ_of_ne_zero positive.ne'
  have path := steps before ⟨i, (members i).mpr isPending⟩
  rwa [show next^[before + 1] _ = _ from period] at path

variable [DecidableEq ι]

/-- A node that nobody reads can take its value. -/
theorem Settles.copy (settles : Settles src held want) {i j : ι} (edge : src i = some j)
    (unread : ∀ k, src k ≠ some i) :
    Settles (update src i none) (update held i (held j)) want := by
  intro k
  by_cases same : k = i
  · subst same
    have := settles k
    simpa [edge] using this
  · rw [update_of_ne same]
    have target : (src k).getD k ≠ i := by
      cases read : src k with
      | none => simpa using same
      | some l =>
        intro equal
        exact unread k (by rw [read]; exact congrArg some equal)
    rw [update_of_ne target]
    exact settles k

/-- One swap inside a cycle: `j` gets its value from `k`, and what `j` held, which its only
reader `i` is waiting for, is now at `k`. -/
theorem Settles.swap (settles : Settles src held want) (cyclic : Cyclic src) {i j k : ι}
    (first : src i = some j) (second : src j = some k) (jk : j ≠ k) :
    Settles (update (update src j none) i (if i = k then none else some k))
      (update (update held j (held k)) k (held j)) want := by
  have kPending : (src k).isSome := (cyclic.pending j k second).resolve_right id
  have atI := settles i
  have atJ := settles j
  simp only [first, Option.getD_some] at atI
  simp only [second, Option.getD_some] at atJ
  intro l
  by_cases li : l = i
  · subst li
    rw [update_self]
    by_cases closes : l = k
    · subst closes
      simpa using atI
    · simpa [closes] using atI
  · rw [update_of_ne li]
    by_cases lj : l = j
    · subst lj
      rw [update_self]
      simpa [jk] using atJ
    · rw [update_of_ne lj]
      have awayJ : (src l).getD l ≠ j := by
        cases read : src l with
        | none => simpa using lj
        | some m =>
          intro equal
          exact li (cyclic.one l i j (by rw [read]; exact congrArg some equal) first)
      have awayK : (src l).getD l ≠ k := by
        cases read : src l with
        | none =>
          intro equal
          rw [Option.getD_none] at equal
          rw [← equal, read] at kPending
          exact absurd kPending (by simp)
        | some m =>
          intro equal
          exact lj (cyclic.one l j k (by rw [read]; exact congrArg some equal) second)
      rw [update_of_ne awayK, update_of_ne awayJ]
      exact settles l

/-- A swap takes one node out of its cycle and leaves the others as they are. -/
theorem Cyclic.swap (cyclic : Cyclic src) {i j k : ι} (first : src i = some j)
    (second : src j = some k) (jk : j ≠ k) :
    Cyclic (update (update src j none) i (if i = k then none else some k)) := by
  -- an edge of the new graph is the shortcut `i → k` or an old edge into neither `j` nor `k`
  have edges : ∀ a b,
      update (update src j none) i (if i = k then none else some k) a = some b →
        a = i ∧ b = k ∧ i ≠ k ∨ a ≠ i ∧ a ≠ j ∧ src a = some b ∧ b ≠ j ∧ b ≠ k := by
    intro a b edge
    by_cases ai : a = i
    · subst ai
      rw [update_self] at edge
      split at edge
      · cases edge
      · rename_i open_
        cases edge
        exact Or.inl ⟨rfl, rfl, open_⟩
    · rw [update_of_ne ai] at edge
      by_cases aj : a = j
      · subst aj
        simp at edge
      · rw [update_of_ne aj] at edge
        refine Or.inr ⟨ai, aj, edge, ?_, ?_⟩
        · rintro rfl
          exact ai (cyclic.one a i b edge first)
        · rintro rfl
          exact aj (cyclic.one a j b edge second)
  constructor
  · intro a b c ha hb
    rcases edges a c ha with ⟨rfl, rfl, -⟩ | ⟨-, -, ea, -, nk⟩ <;>
      rcases edges b _ hb with ⟨rfl, same, -⟩ | ⟨-, -, eb, -, nk'⟩
    · rfl
    · exact absurd rfl nk'
    · exact absurd same nk
    · exact cyclic.one a b c ea eb
  · intro a b edge
    left
    rcases edges a b edge with ⟨rfl, rfl, open_⟩ | ⟨-, -, ea, nj, nk⟩
    · rw [update_of_ne open_.symm, update_of_ne jk.symm]
      exact (cyclic.pending j b second).resolve_right id
    · by_cases bi : b = i
      · subst bi
        simp [nk]
      · rw [update_of_ne bi, update_of_ne nj]
        exact (cyclic.pending a b ea).resolve_right id

/-- Keeping aside what `root` holds starts a walk. -/
theorem Settles.save (settles : Settles src held want) (root : ι) :
    SettlesFrom src held want root (held root) := by
  intro i
  have := settles i
  split
  · rename_i edge
    rwa [edge] at this
  · exact this

theorem of_update_none {p a b : ι} (edge : update src p none a = some b) :
    a ≠ p ∧ src a = some b := by
  by_cases ap : a = p
  · subst ap
    simp at edge
  · exact ⟨ap, by rwa [update_of_ne ap] at edge⟩

omit [DecidableEq ι] in
/-- Only the reader of `root` reads the free node. -/
theorem Walking.target_ne {root p k : ι} (walking : Walking src root p) (other : k ≠ p)
    (notRoot : src k ≠ some root) : (src k).getD k ≠ p := by
  cases read : src k with
  | none => simpa using other
  | some l =>
    intro equal
    rw [Option.getD_some] at equal
    subst equal
    exact notRoot (by rw [read, walking.unread k read])

/-- One step of a walk: the free node `p` takes its value from `j`, which becomes free. -/
theorem SettlesFrom.move {root p j : ι} {kept : V} (settles : SettlesFrom src held want root kept)
    (walking : Walking src root p) (edge : src p = some j) (inside : j ≠ root) :
    SettlesFrom (update src p none) (update held p (held j)) want root kept := by
  intro k
  have here := settles k
  by_cases same : k = p
  · subst same
    simpa [edge, inside] using here
  · rw [update_of_ne same]
    split
    · rename_i toRoot
      simpa [toRoot] using here
    · rename_i notRoot
      rw [if_neg notRoot] at here
      rwa [update_of_ne (walking.target_ne same notRoot)]

theorem Walking.move {root p j : ι} (walking : Walking src root p) (edge : src p = some j) :
    Walking (update src p none) root j := by
  refine ⟨fun a b c ha hb => walking.one a b c (of_update_none ha).2 (of_update_none hb).2, ?_, ?_⟩
  · intro a b h
    obtain ⟨-, old⟩ := of_update_none h
    by_cases bp : b = p
    · subst bp
      exact Or.inr (walking.unread a old)
    · rw [update_of_ne bp]
      exact walking.pending a b old
  · intro k h
    obtain ⟨away, old⟩ := of_update_none h
    exact absurd (walking.one k p j old edge) away

/-- The last step of a walk: the free node is the reader of `root`, and takes the value kept. -/
theorem SettlesFrom.restore {root p : ι} {kept : V} (settles : SettlesFrom src held want root kept)
    (walking : Walking src root p) (edge : src p = some root) :
    Settles (update src p none) (update held p kept) want := by
  intro k
  have here := settles k
  by_cases same : k = p
  · subst same
    simpa [edge] using here
  · have notRoot : src k ≠ some root := fun h => same (walking.one k p root h edge)
    rw [if_neg notRoot] at here
    rw [update_of_ne same]
    rwa [update_of_ne (walking.target_ne same notRoot)]

theorem Walking.restore {root p : ι} (walking : Walking src root p) (edge : src p = some root) :
    Cyclic (update src p none) := by
  refine ⟨fun a b c ha hb => walking.one a b c (of_update_none ha).2 (of_update_none hb).2, ?_⟩
  intro a b h
  obtain ⟨away, old⟩ := of_update_none h
  have notRoot : b ≠ root := by
    rintro rfl
    exact away (walking.one a p b old edge)
  left
  have bp : b ≠ p := by
    rintro rfl
    exact notRoot (walking.unread a old)
  rw [update_of_ne bp]
  exact (walking.pending a b old).resolve_right notRoot

/-- If every node that still has to move is read by another, each is read exactly once and reads
one of them: counting the edges leaves no node over. -/
theorem cyclic_of_read (nodes : Finset ι) (members : ∀ i, i ∈ nodes ↔ (src i).isSome)
    (read : ∀ i ∈ nodes, ∃ k, src k = some i) : Cyclic src := by
  let target := fun i => (src i).getD i
  have covers : nodes ⊆ nodes.image target := by
    intro i inside
    obtain ⟨k, edge⟩ := read i inside
    exact Finset.mem_image.mpr ⟨k, (members k).mpr (by simp [edge]), by simp [target, edge]⟩
  have full : nodes = nodes.image target :=
    Finset.eq_of_subset_of_card_le covers Finset.card_image_le
  have injective : Set.InjOn target nodes :=
    Finset.card_image_iff.mp (congrArg Finset.card full).symm
  constructor
  · intro a b c ha hb
    exact injective ((members a).mpr (by simp [ha])) ((members b).mpr (by simp [hb]))
      (by simp [target, ha, hb])
  · intro i j edge
    left
    apply (members j).mp
    rw [full]
    exact Finset.mem_image.mpr ⟨i, (members i).mpr (by simp [edge]), by simp [target, edge]⟩

end CoralReef.ParallelMove
