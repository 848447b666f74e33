import CoralReef.Stubs.Cfg.Cache
import CoralReef.Stubs.Cfg.Dominance

/-!
# Dominance queries and the numbering of the dominator tree

`dominates` climbs the tree, and `compute_dom_dfs_pre` walks it with a stack: the blocks below a
block get the numbers from its own on.
-/

open List

namespace CoralReef.CFG

variable {α : Type} {cfg : CFG α} {rpo : List Nat} {doms : List (Option Nat)} {a b c : Nat}

/-! ## Climbing -/

theorem Climbs.domPathReaches_iff (climbs : Climbs cfg rpo doms) (target : Nat) (fuel : Nat) :
    ∀ b, (domParent doms b).isSome → rpoNumber rpo b < fuel →
      (domPathReaches doms fuel b target = true ↔ Climb doms b target) := by
  induction fuel with
  | zero =>
    intro b _ enough
    omega
  | succ fuel ih =>
    intro b isKnown enough
    rw [domPathReaches]
    split
    · next same =>
      subst same
      exact iff_of_true rfl .refl
    · next apart =>
      by_cases entry : b = 0
      · subst entry
        rw [climbs.root, climb_zero]
        simp [Ne.symm apart]
      · rcases exists_up isKnown entry with ⟨p, up⟩
        have lower := climbs.falls b p up
        have moves : p ≠ b := by
          rintro rfl
          omega
        rw [up.1, climb_iff up]
        simp only [ne_eq, moves, not_false_eq_true, if_true]
        rw [ih p (climbs.known b p up) (by omega)]
        exact ⟨.inr, fun either => either.resolve_left (Ne.symm apart)⟩

theorem domPathReaches_of_none (absent : domParent doms b = none) (target fuel : Nat) :
    domPathReaches doms (fuel + 1) b target = decide (b = target) := by
  rw [domPathReaches, absent]
  split
  · next same => exact (decide_eq_true same).symm
  · next apart => exact (decide_eq_false apart).symm

/-- A block has a parent exactly if it can be reached. -/
theorem Exact.isSome_iff (exact : Exact cfg rpo doms) (order : IsOrder cfg rpo) :
    (domParent doms b).isSome ↔ cfg.Reached b := by
  rw [← order.mem]
  exact ⟨exact.inOrder b, exact.all b⟩

/-- `dom_path_reaches` on the tree: dominance of a reachable block, itself on any other. -/
theorem Exact.reaches_iff (exact : Exact cfg rpo doms) (order : IsOrder cfg rpo) {fuel : Nat}
    (enough : cfg.len < fuel) :
    domPathReaches doms fuel b a = true ↔ b = a ∨ cfg.Reached b ∧ cfg.Dom a b := by
  by_cases reach : cfg.Reached b
  · have member := (order.mem b).mpr reach
    have below := order.rpoNumber_lt member
    rw [exact.domPathReaches_iff a fuel b (exact.all b member) (by omega), exact.climb b member]
    constructor
    · exact fun dom => .inr ⟨reach, dom⟩
    · rintro (rfl | ⟨_, dom⟩)
      · exact .refl b
      · exact dom
  · have absent : domParent doms b = none := by
      rw [← Option.not_isSome_iff_eq_none, exact.isSome_iff order]
      exact reach
    rcases Nat.exists_eq_add_of_lt enough with ⟨more, rfl⟩
    rw [domPathReaches_of_none absent, decide_eq_true_eq]
    exact ⟨.inl, fun either => either.resolve_right fun dom => reach dom.1⟩

/-! ## The walk of the tree -/

/-- The blocks that hang below a block, in the order in which they are popped. -/
def domChildren (doms : List (Option Nat)) (n node : Nat) : List Nat :=
  (List.range n).filter fun i => i ≠ node ∧ domParent doms i = some node

/-- The tree below a block, parents first. -/
def preorder (doms : List (Option Nat)) (n : Nat) : Nat → Nat → List Nat
  | 0, _ => []
  | fuel + 1, node => node :: (domChildren doms n node).flatMap (preorder doms n fuel)

namespace Climbs

variable (climbs : Climbs cfg rpo doms) (order : IsOrder cfg rpo)

include climbs in
theorem mem_domChildren : b ∈ domChildren doms cfg.len a ↔ Up doms b a := by
  simp only [domChildren, mem_filter, mem_range, decide_eq_true_eq]
  constructor
  · rintro ⟨_, apart, found⟩
    refine ⟨found, ?_⟩
    rintro rfl
    rw [climbs.root] at found
    exact apart (Option.some.inj found)
  · intro up
    have lower := climbs.falls b a up
    refine ⟨?_, ?_, up.1⟩
    · rw [← climbs.length]
      by_contra outside
      have found := up.1
      rw [domParent, List.getElem?_eq_none (by omega)] at found
      cases found
    · rintro rfl
      omega

include climbs order in
theorem preorder_stable (fuel : Nat) : ∀ node more, (domParent doms node).isSome →
    cfg.len ≤ fuel + rpoNumber rpo node →
      preorder doms cfg.len (fuel + more) node = preorder doms cfg.len fuel node := by
  induction fuel with
  | zero =>
    intro node more isKnown enough
    have := order.rpoNumber_lt (climbs.inOrder node isKnown)
    omega
  | succ fuel ih =>
    intro node more _ enough
    rw [Nat.add_right_comm, preorder, preorder]
    refine congrArg (node :: ·) ?_
    rw [flatMap_def, flatMap_def]
    refine congrArg flatten (map_congr_left fun child member => ?_)
    have up := climbs.mem_domChildren.mp member
    have lower := climbs.falls child node up
    exact ih child more (by rw [up.1]; rfl) (by omega)

include climbs order in
theorem mem_preorder (fuel : Nat) : ∀ node, (domParent doms node).isSome →
    cfg.len ≤ fuel + rpoNumber rpo node →
      ∀ b, b ∈ preorder doms cfg.len fuel node ↔ Climb doms b node := by
  induction fuel with
  | zero =>
    intro node isKnown enough
    have := order.rpoNumber_lt (climbs.inOrder node isKnown)
    omega
  | succ fuel ih =>
    intro node _ enough b
    rw [preorder, mem_cons, mem_flatMap]
    have child : ∀ i ∈ domChildren doms cfg.len node,
        (b ∈ preorder doms cfg.len fuel i ↔ Climb doms b i) := by
      intro i member
      have up := climbs.mem_domChildren.mp member
      have lower := climbs.falls i node up
      exact ih i (by rw [up.1]; rfl) (by omega) b
    constructor
    · rintro (rfl | ⟨i, member, below⟩)
      · exact .refl
      · exact ((child i member).mp below).tail (climbs.mem_domChildren.mp member)
    · intro climb
      rcases Relation.ReflTransGen.cases_tail climb with same | ⟨i, below, up⟩
      · exact .inl same.symm
      · have member := climbs.mem_domChildren.mpr up
        exact .inr ⟨i, member, (child i member).mpr below⟩

include climbs order in
theorem nodup_preorder (fuel : Nat) : ∀ node, (domParent doms node).isSome →
    cfg.len ≤ fuel + rpoNumber rpo node → (preorder doms cfg.len fuel node).Nodup := by
  induction fuel with
  | zero => exact fun _ _ _ => nodup_nil
  | succ fuel ih =>
    intro node _ enough
    have child : ∀ i ∈ domChildren doms cfg.len node,
        Up doms i node ∧ (domParent doms i).isSome ∧ rpoNumber rpo node < rpoNumber rpo i := by
      intro i member
      have up := climbs.mem_domChildren.mp member
      exact ⟨up, by rw [up.1]; rfl, climbs.falls i node up⟩
    have below : ∀ i ∈ domChildren doms cfg.len node, ∀ b,
        b ∈ preorder doms cfg.len fuel i ↔ Climb doms b i := by
      intro i member b
      rcases child i member with ⟨_, isKnown, lower⟩
      exact climbs.mem_preorder order fuel i isKnown (by omega) b
    rw [preorder, nodup_cons, nodup_flatMap]
    refine ⟨?_, ?_, ?_⟩
    · intro member
      rcases mem_flatMap.mp member with ⟨i, isChild, inside⟩
      have := climbs.number_le ((below i isChild node).mp inside)
      have := (child i isChild).2.2
      omega
    · intro i member
      rcases child i member with ⟨_, isKnown, lower⟩
      exact ih i isKnown (by omega)
    · -- A block below two children would put one of them below the other.
      refine ((nodup_range (n := cfg.len)).filter _).imp_of_mem ?_
      intro i j inI inJ apart b inside inside'
      have climb := (below i inI b).mp inside
      have climb' := (below j inJ b).mp inside'
      have apartFrom : ∀ {i j : Nat}, Up doms i node → rpoNumber rpo node < rpoNumber rpo j →
          i ≠ j → ¬ Climb doms i j := by
        intro i j up lower apart climb
        rcases (climb_iff up).mp climb with same | above
        · exact apart same.symm
        · have := climbs.number_le above
          omega
      have unique : Relator.RightUnique (Up doms) := fun _ _ _ up up' => up.unique up'
      have total := Relation.ReflTransGen.total_of_right_unique unique climb climb'
      rcases child i inI with ⟨upI, _, lowerI⟩
      rcases child j inJ with ⟨upJ, _, lowerJ⟩
      rcases total with onto | onto
      · exact apartFrom upI lowerJ apart onto
      · exact apartFrom upJ lowerI (Ne.symm apart) onto

include climbs order in
/-- The tree below a block is a stretch of the tree below any block it hangs below. -/
theorem preorder_infix (climb : Climb doms b a) :
    ∃ pre post, preorder doms cfg.len cfg.len a =
      pre ++ preorder doms cfg.len cfg.len b ++ post := by
  induction climb with
  | refl => exact ⟨[], [], by simp⟩
  | @tail x y _ up ih =>
    rcases ih with ⟨pre, post, shape⟩
    rcases append_of_mem (climbs.mem_domChildren.mpr up) with ⟨left, right, children⟩
    have knownX : (domParent doms x).isSome := by rw [up.1]; rfl
    have knownY := climbs.known x y up
    have inside := order.rpoNumber_lt (climbs.inOrder y knownY)
    have lower := climbs.falls x y up
    rcases Nat.exists_eq_succ_of_ne_zero (show cfg.len ≠ 0 by omega) with ⟨fuel, enough⟩
    have sub : preorder doms cfg.len fuel x = preorder doms cfg.len cfg.len x := by
      have := climbs.preorder_stable order fuel x 1 knownX (by omega)
      rw [← this, ← Nat.succ_eq_add_one, ← enough]
    refine ⟨y :: left.flatMap (preorder doms cfg.len fuel) ++ pre,
      post ++ right.flatMap (preorder doms cfg.len fuel), ?_⟩
    have unfolded : preorder doms cfg.len cfg.len y =
        y :: (domChildren doms cfg.len y).flatMap (preorder doms cfg.len fuel) := by
      conv_lhs => rw [enough]
      rw [enough, preorder]
    rw [unfolded, children, flatMap_append, flatMap_cons, sub, shape]
    simp

end Climbs

/-- Numbers given to nodes in turn. -/
def number (state : List Nat × Nat) (nodes : List Nat) : List Nat × Nat :=
  nodes.foldl (fun state node => (state.1.set node state.2, state.2 + 1)) state

theorem getD_number {nodes : List Nat} (nodup : nodes.Nodup) : ∀ state : List Nat × Nat,
    (∀ b ∈ nodes, b < state.1.length) → ∀ b,
      (number state nodes).1.getD b b =
        if b ∈ nodes then state.2 + nodes.idxOf b else state.1.getD b b := by
  induction nodes with
  | nil => exact fun _ _ _ => rfl
  | cons node nodes ih =>
    intro state inside b
    rcases nodup_cons.mp nodup with ⟨fresh, nodup⟩
    rw [number, foldl_cons, ← number, ih nodup _ (by
      intro x member
      rw [length_set]
      exact inside x (mem_cons_of_mem node member))]
    by_cases same : b = node
    · subst same
      rw [if_neg fresh, if_pos mem_cons_self, idxOf_cons_self, Nat.add_zero]
      have := inside b mem_cons_self
      simp [getD_eq_getElem?_getD, List.getElem?_set_self this]
    · have other : (state.1.set node state.2).getD b b = state.1.getD b b := by
        simp only [getD_eq_getElem?_getD, List.getElem?_set_ne (Ne.symm same)]
      simp only [mem_cons, same, false_or]
      rw [idxOf_cons_ne _ (Ne.symm same), other]
      split
      · omega
      · rfl

/-- The stack is worked off tree by tree. -/
theorem domDfsPreLoop_eq (climbs : Climbs cfg rpo doms) (order : IsOrder cfg rpo) (fuel : Nat) :
    ∀ (stack : List Nat) (state : List Nat × Nat), (∀ b ∈ stack, (domParent doms b).isSome) →
      (stack.flatMap (preorder doms cfg.len cfg.len)).length < fuel →
        domDfsPreLoop doms cfg.len fuel stack state =
          (number state (stack.flatMap (preorder doms cfg.len cfg.len))).1 := by
  induction fuel with
  | zero =>
    intro stack state _ enough
    omega
  | succ fuel ih =>
    intro stack state isKnown enough
    cases stack with
    | nil => rfl
    | cons node stack =>
      have knownNode := isKnown node mem_cons_self
      have below := order.inside node (climbs.inOrder node knownNode)
      have unfolded : preorder doms cfg.len cfg.len node =
          node :: (domChildren doms cfg.len node).flatMap (preorder doms cfg.len cfg.len) := by
        have := climbs.preorder_stable order cfg.len node 1 knownNode (by omega)
        rw [← this, preorder]
      rw [flatMap_cons, unfolded] at enough ⊢
      rcases state with ⟨pre, counter⟩
      rw [domDfsPreLoop, if_neg (by omega)]
      dsimp only
      rw [← domChildren, ih]
      · rw [flatMap_append, cons_append, number, number, foldl_cons]
      · intro b member
        rcases mem_append.mp member with child | later
        · rw [(climbs.mem_domChildren.mp child).1]
          rfl
        · exact isKnown b (mem_cons_of_mem node later)
      · rw [flatMap_append]
        simp only [cons_append, length_cons] at enough
        omega

/-- The number of a block is its place in the walk of the tree. -/
theorem Exact.computeDomDfsPre_eq (exact : Exact cfg rpo doms) (order : IsOrder cfg rpo)
    (member : b ∈ rpo) : (computeDomDfsPre doms 0 cfg.len).getD b b =
      (preorder doms cfg.len cfg.len 0).idxOf b := by
  have root : (domParent doms 0).isSome := by rw [exact.root]; rfl
  have nodup := exact.nodup_preorder order cfg.len 0 root (by omega)
  have mem := exact.mem_preorder order cfg.len 0 root (by omega)
  have inside : ∀ x ∈ preorder doms cfg.len cfg.len 0, x < cfg.len := by
    intro x isBelow
    rcases Relation.ReflTransGen.cases_head ((mem x).mp isBelow) with rfl | ⟨c, up, _⟩
    · exact order.inside 0 (exact.inOrder 0 root)
    · exact order.inside x (exact.inOrder x (by rw [up.1]; rfl))
  have few := length_le_of_inside nodup inside
  have all : b ∈ preorder doms cfg.len cfg.len 0 := by
    rw [mem, exact.climb b member]
    exact fun nodes trail => trail.entry_mem
  rw [computeDomDfsPre, domDfsPreLoop_eq exact.toClimbs order (cfg.len + 1) [0] _
    (by simpa using root) (by simp; omega)]
  simp only [flatMap_cons, flatMap_nil, append_nil]
  rw [getD_number nodup _ (by simpa using inside), if_pos all, Nat.zero_add]

/-! ## The analysis -/

/-- What the dominator tree of an analysis says of the graph. -/
structure DomAnalysis.Right (cfg : CFG α) (analysis : DomAnalysis) : Prop where
  dominates : ∀ a b, b < cfg.len → cfg.Reached b →
    (analysis.dominates a b = true ↔ cfg.Dom a b)
  /-- The blocks that a block dominates have the numbers of an interval that starts with its own,
  each number once. -/
  interval : ∃ size : Nat → Nat, ∀ a, a < cfg.len → cfg.Reached a →
    (∀ b, b < cfg.len → cfg.Reached b →
      (cfg.Dom a b ↔ analysis.domDfsPre.getD a a ≤ analysis.domDfsPre.getD b b ∧
        analysis.domDfsPre.getD b b < analysis.domDfsPre.getD a a + size a)) ∧
    ∀ i, i < size a → ∃ b, b < cfg.len ∧ cfg.Reached b ∧
      analysis.domDfsPre.getD b b = analysis.domDfsPre.getD a a + i
  distinct : ∀ a b, a < cfg.len → b < cfg.len → cfg.Reached a → cfg.Reached b →
    analysis.domDfsPre.getD a a = analysis.domDfsPre.getD b b → a = b

theorem idxOf_append_append {pre mid post : List Nat} {x : Nat}
    (nodup : (pre ++ mid ++ post).Nodup) :
    x ∈ mid ↔ pre.length ≤ (pre ++ mid ++ post).idxOf x ∧
      (pre ++ mid ++ post).idxOf x < pre.length + mid.length := by
  rcases nodup_append.mp nodup with ⟨nodup', _, apart⟩
  rcases nodup_append.mp nodup' with ⟨_, _, apart'⟩
  by_cases early : x ∈ pre
  · have notMid : x ∉ mid := fun inMid => apart' x early x inMid rfl
    rw [append_assoc, idxOf_append_of_mem early]
    have := idxOf_lt_length_iff.mpr early
    exact iff_of_false notMid (by omega)
  · by_cases inMid : x ∈ mid
    · rw [idxOf_append_of_mem (mem_append_right _ inMid),
        idxOf_append_of_notMem early]
      have := idxOf_lt_length_iff.mpr inMid
      exact iff_of_true inMid (by omega)
    · rw [idxOf_append_of_notMem (by simp [early, inMid]), length_append]
      exact iff_of_false inMid (by omega)

/-- The tree and the numbers are right whenever they are computed. -/
theorem DomAnalysis.right_of_computed {keys : List Nat} {analysis : DomAnalysis}
    (computed : cfg.computeDomAnalysis keys = .ok analysis) : analysis.Right cfg := by
  by_cases empty : cfg.len = 0
  · exact ⟨fun a b below => by omega, ⟨fun _ => 0, fun a below => by omega⟩,
      fun a b below => by omega⟩
  have nonempty : 0 < cfg.len := by omega
  have order := isOrder_reversePostOrder cfg nonempty
  have notEmpty : cfg.reversePostOrder.isEmpty = false := by
    rcases order.first with ⟨rest, shape⟩
    rw [shape]
    rfl
  rw [computeDomAnalysis] at computed
  simp only [notEmpty, Bool.false_eq_true, if_false] at computed
  rcases bind_eq_ok.mp computed with ⟨doms, found, rest⟩
  cases rest
  have exact := computeDominators_exact nonempty found
  have root : (CFG.domParent doms 0).isSome := by rw [exact.root]; rfl
  have nodup := exact.nodup_preorder order cfg.len 0 root (by omega)
  have place : ∀ b, cfg.Reached b → (computeDomDfsPre doms (cfg.reversePostOrder.headD 0)
      cfg.len).getD b b = (preorder doms cfg.len cfg.len 0).idxOf b := by
    intro b reach
    rw [order.headD]
    exact exact.computeDomDfsPre_eq order ((order.mem b).mpr reach)
  have listed : ∀ b, cfg.Reached b → b ∈ preorder doms cfg.len cfg.len 0 := by
    intro b reach
    rw [exact.mem_preorder order cfg.len 0 root (by omega),
      exact.climb b ((order.mem b).mpr reach)]
    exact fun nodes trail => trail.entry_mem
  refine ⟨?_, ⟨fun a => (preorder doms cfg.len cfg.len a).length, ?_⟩, ?_⟩
  · intro a b below reach
    rw [DomAnalysis.dominates]
    dsimp only
    rw [exact.length]
    split
    · next outside =>
      refine iff_of_false Bool.false_ne_true fun dom => ?_
      have inA := (order.mem a).mpr (Dominates.reachable dom reach)
      have := order.inside a inA
      omega
    · rw [exact.reaches_iff order (Nat.lt_succ_self _)]
      constructor
      · rintro (rfl | ⟨_, dom⟩)
        · exact .refl b
        · exact dom
      · exact fun dom => .inr ⟨reach, dom⟩
  · intro a below reach
    have inA := (order.mem a).mpr reach
    have entry : Climb doms a 0 := (exact.climb a inA 0).mpr fun nodes trail => trail.entry_mem
    rcases exact.preorder_infix order entry with ⟨pre, post, shape⟩
    have memA : ∀ b, b ∈ preorder doms cfg.len cfg.len a ↔ Climb doms b a :=
      exact.mem_preorder order cfg.len a (exact.all a inA) (by omega)
    have placeA : (preorder doms cfg.len cfg.len 0).idxOf a = pre.length := by
      rcases Nat.exists_eq_succ_of_ne_zero empty with ⟨fuel, enough⟩
      have fresh : a ∉ pre := by
        intro early
        rw [shape, append_assoc] at nodup
        exact disjoint_of_nodup_append nodup early
          (mem_append_left _ ((memA a).mpr .refl))
      rw [shape, append_assoc, idxOf_append_of_notMem fresh]
      conv_lhs => rw [enough, preorder]
      simp
    refine ⟨?_, ?_⟩
    · intro b _ reachB
      rw [place a reach, place b reachB, placeA, ← exact.climb b ((order.mem b).mpr reachB), ← memA]
      rw [shape] at nodup ⊢
      exact idxOf_append_append nodup
    · intro i small
      have member := getElem_mem small
      have climb := (memA _).mp member
      have isKnown : (CFG.domParent doms ((preorder doms cfg.len cfg.len a)[i])).isSome := by
        rcases Relation.ReflTransGen.cases_head climb with same | ⟨c, up, _⟩
        · rw [same]
          exact exact.all a inA
        · rw [up.1]
          rfl
      have inOrder := exact.inOrder _ isKnown
      refine ⟨_, order.inside _ inOrder, (order.mem _).mp inOrder, ?_⟩
      rw [place a reach, place _ ((order.mem _).mp inOrder), placeA]
      have inner : (preorder doms cfg.len cfg.len 0)[pre.length + i]? =
          some ((preorder doms cfg.len cfg.len a)[i]) := by
        rw [shape, append_assoc, List.getElem?_append_right (by omega), Nat.add_sub_cancel_left,
          List.getElem?_append_left small, List.getElem?_eq_getElem small]
      rcases List.getElem?_eq_some_iff.mp inner with ⟨bound, same⟩
      rw [← same]
      exact nodup.idxOf_getElem _ bound
  · intro a b _ _ reachA reachB same
    dsimp only at same
    rw [place a reachA, place b reachB] at same
    exact (idxOf_inj (listed a reachA)).mp same

/-!
## The guard of the dominator computation

The computation gives up after 1000 passes. On graphs whose simple trails from the entry have at
most 998 edges against reverse post-order it ends before; a ladder, entered at both ends and climbed
both ways, needs a pass for each rung.
-/

variable {α : Type}

theorem computeDomAnalysis_ok {cfg : CFG α} (keys : List Nat)
    (shallow : Shallow cfg cfg.reversePostOrder 999) :
    ∃ analysis, cfg.computeDomAnalysis keys = .ok analysis := by
  rw [computeDomAnalysis]
  by_cases nonempty : 0 < cfg.len
  · rcases computeDominators_ok nonempty shallow with ⟨doms, found⟩
    dsimp only
    split
    · exact ⟨_, rfl⟩
    · rw [found]
      exact ⟨_, rfl⟩
  · have empty : cfg.reversePostOrder = [] := by
      rw [reversePostOrder, if_pos (by omega)]
    simp [empty, pure, Except.pure]

/-- The analysis is computed where the simple trails are shallow, and it is right wherever it is
computed. -/
theorem computeDomAnalysis_right (cfg : CFG α) (keys : List Nat) :
    (Shallow cfg cfg.reversePostOrder 999 →
      ∃ analysis, cfg.computeDomAnalysis keys = .ok analysis) ∧
    ∀ analysis, cfg.computeDomAnalysis keys = .ok analysis → analysis.Right cfg :=
  ⟨computeDomAnalysis_ok keys, fun _ computed => DomAnalysis.right_of_computed computed⟩

/-! ## A ladder -/

/-- The entry leads to both ends of `n` rungs, which are climbed both ways. -/
def ladder (n : Nat) : CFG Unit where
  blocks := List.replicate (n + 1) ()
  edges := (0, 1) :: (0, n) ::
    (List.range (n - 1)).flatMap fun i => [(i + 1, i + 2), (i + 2, i + 1)]

section Ladder

variable {n : Nat}

theorem ladder_len : (ladder n).len = n + 1 := by
  simp [CFG.len, ladder]

theorem mem_ladder {u v : Nat} : (u, v) ∈ (ladder n).edges ↔
    u = 0 ∧ (v = 1 ∨ v = n) ∨ 1 ≤ u ∧ v = u + 1 ∧ v ≤ n ∨ 1 ≤ v ∧ u = v + 1 ∧ u ≤ n := by
  simp only [ladder, mem_cons, Prod.mk.injEq, mem_flatMap, mem_range,
    not_mem_nil, or_false]
  constructor
  · rintro (⟨rfl, rfl⟩ | ⟨rfl, rfl⟩ | ⟨i, below, ⟨rfl, rfl⟩ | ⟨rfl, rfl⟩⟩)
    · exact .inl ⟨rfl, .inl rfl⟩
    · exact .inl ⟨rfl, .inr rfl⟩
    · exact .inr (.inl ⟨by omega, rfl, by omega⟩)
    · exact .inr (.inr ⟨by omega, rfl, by omega⟩)
  · rintro (⟨rfl, rfl | rfl⟩ | ⟨low, rfl, high⟩ | ⟨low, rfl, high⟩)
    · exact .inl ⟨rfl, rfl⟩
    · exact .inr (.inl ⟨rfl, rfl⟩)
    · exact .inr (.inr ⟨u - 1, by omega, .inl ⟨by omega, by omega⟩⟩)
    · exact .inr (.inr ⟨v - 1, by omega, .inr ⟨by omega, by omega⟩⟩)

/-- Nodes that are known are not visited again. -/
theorem foldl_rpoDfs_known {cfg : CFG α} {fuel : Nat} {state : List Nat × List Nat} :
    ∀ nodes : List Nat, (∀ s ∈ nodes, s ∈ state.1) →
      nodes.foldl (cfg.rpoDfs (fuel + 1)) state = state := by
  intro nodes
  induction nodes with
  | nil => exact fun _ => rfl
  | cons s nodes ih =>
    intro known
    have first : cfg.rpoDfs (fuel + 1) state s = state := by
      rw [rpoDfs]
      exact if_pos (.inr (known s mem_cons_self))
    rw [foldl_cons, first, ih fun t member => known t (mem_cons_of_mem s member)]

/-- From a rung whose lower rungs are known the walk climbs to the top. -/
theorem rpoDfs_ladder (m : Nat) : ∀ (i fuel : Nat) (visited order : List Nat), 1 ≤ i → i + m = n →
    (∀ x, x < i → x ∈ visited) → (∀ x, i ≤ x → x ∉ visited) →
      (ladder n).rpoDfs (m + 2 + fuel) (visited, order) i =
        ((range' i (m + 1)).reverse ++ visited, order ++ (range' i (m + 1)).reverse) := by
  induction m with
  | zero =>
    intro i fuel visited order low top known fresh
    have children : ∀ s ∈ (ladder n).successors i, s ∈ i :: visited := by
      intro s member
      rw [mem_successors, mem_ladder] at member
      exact mem_cons_of_mem i (known s (by omega))
    rw [show 0 + 2 + fuel = fuel + 1 + 1 by omega, rpoDfs, if_neg (by
      rw [ladder_len, not_or]
      exact ⟨by omega, fresh i (Nat.le_refl i)⟩)]
    dsimp only
    rw [foldl_rpoDfs_known _ children]
    simp [range'_succ]
  | succ m ih =>
    intro i fuel visited order low top known fresh
    have next : i + 1 ∈ (ladder n).successors i := by
      rw [mem_successors, mem_ladder]
      omega
    rcases eq_append_cons_of_mem next with ⟨early, late, shape, firstTime⟩
    have only : ∀ s ∈ (ladder n).successors i, s = i + 1 ∨ s < i := by
      intro s member
      rw [mem_successors, mem_ladder] at member
      omega
    have earlier : ∀ s ∈ early, s ∈ i :: visited := by
      intro s member
      rcases only s (shape ▸ mem_append_left _ member) with rfl | lower
      · exact absurd member firstTime
      · exact mem_cons_of_mem i (known s lower)
    have climbed := ih (i + 1) fuel (i :: visited) order (by omega) (by omega)
      (by
        intro x below
        by_cases same : x = i
        · exact mem_cons.mpr (.inl same)
        · exact mem_cons_of_mem i (known x (by omega)))
      (by
        intro x above member
        rcases mem_cons.mp member with same | member
        · omega
        · exact fresh x (by omega) member)
    have later : ∀ s ∈ late,
        s ∈ (range' (i + 1) (m + 1)).reverse ++ i :: visited := by
      intro s member
      rcases only s (shape ▸ mem_append_right _ (mem_cons_of_mem _ member))
        with rfl | lower
      · exact mem_append_left _ (by simp)
      · exact mem_append_right _ (mem_cons_of_mem i (known s lower))
    rw [show m + 1 + 2 + fuel = m + 2 + fuel + 1 by omega, rpoDfs, if_neg (by
      rw [ladder_len, not_or]
      exact ⟨by omega, fresh i (Nat.le_refl i)⟩)]
    dsimp only
    rw [shape, foldl_append, show m + 2 + fuel = m + 1 + fuel + 1 by omega,
      foldl_rpoDfs_known early earlier, foldl_cons,
      show m + 1 + fuel + 1 = m + 2 + fuel by omega, climbed,
      show m + 2 + fuel = m + 1 + fuel + 1 by omega, foldl_rpoDfs_known late later]
    have rungs : range' i (m + 1 + 1) = i :: range' (i + 1) (m + 1) := range'_succ
    rw [rungs, reverse_cons, append_assoc, append_assoc]
    rfl

/-- The order goes up the rungs. -/
theorem reversePostOrder_ladder (tall : 1 ≤ n) :
    (ladder n).reversePostOrder = range (n + 1) := by
  have start : (ladder n).successors 0 = [1, n] := by
    have none : ∀ edges : List Nat, (edges.flatMap fun i => [(i + 1, i + 2), (i + 2, i + 1)]).filterMap
        (fun edge : Nat × Nat => if edge.1 = 0 then some edge.2 else none) = [] := by
      intro edges
      rw [filterMap_eq_nil_iff]
      intro edge member
      rcases mem_flatMap.mp member with ⟨i, _, inside⟩
      simp only [mem_cons, not_mem_nil, or_false] at inside
      rcases inside with rfl | rfl <;> simp
    simp [successors, ladder, none]
  have climbed := rpoDfs_ladder (n := n) (n - 1) 1 0 [0] [] (Nat.le_refl 1) (by omega)
    (by
      intro x below
      exact mem_singleton.mpr (by omega))
    (by
      intro x above member
      have := mem_singleton.mp member
      omega)
  have last : ∀ s ∈ [n], s ∈ (range' 1 (n - 1 + 1)).reverse ++ [0] := by
    intro s member
    rw [mem_singleton.mp member]
    exact mem_append_left _ (mem_reverse.mpr (mem_range'_1.mpr (by omega)))
  have walk : (ladder n).rpoDfs ((ladder n).len + 1) ([], []) 0 =
      ((range' 1 (n - 1 + 1)).reverse ++ [0], (range' 1 (n - 1 + 1)).reverse ++ [0]) := by
    rw [ladder_len, rpoDfs, if_neg (by simp [ladder_len])]
    dsimp only
    rw [start, foldl_cons, show n + 1 = n - 1 + 2 + 0 by omega, climbed,
      show n - 1 + 2 + 0 = n + 1 by omega, foldl_rpoDfs_known _ last, nil_append]
  rw [reversePostOrder, if_neg (by rw [ladder_len]; omega), walk]
  dsimp only
  have rungs : range' 0 (n + 1) = 0 :: range' 1 n := range'_succ
  rw [reverse_append, reverse_reverse, Nat.sub_add_cancel tall, range_eq_range',
    rungs]
  rfl

theorem rpoNumber_range {b : Nat} (member : b ∈ range (n + 1)) :
    rpoNumber (range (n + 1)) b = b := by
  have inside := mem_range.mp member
  rw [rpoNumber, if_pos member]
  have here : (range (n + 1))[b]? = some b := by simp [inside]
  rcases List.getElem?_eq_some_iff.mp here with ⟨bound, same⟩
  conv_lhs => rw [← same]
  exact nodup_range.idxOf_getElem b bound

/-- In pass `k + 1` the rungs that are not yet known from above hang one below the other. -/
def Lags (n k i : Nat) (doms : List (Option Nat)) : Prop :=
  ∀ b c, 2 ≤ b → b + k + (if b < i then 1 else 0) ≤ n → Up doms b c → c + 1 = b

/-- A rung hangs below the one under it as long as the one above it hangs below it. -/
theorem Lags.set {k i : Nat} {doms : List (Option Nat)} {b c : Nat} (tall : 1 ≤ n)
    (progress : Progress (ladder n) (range (n + 1)) k i doms)
    (inB : b ∈ range (n + 1)) (notEntry : b ≠ 0)
    (here : rpoNumber (range (n + 1)) b = i)
    (meets : Meets doms (KnownPred (ladder n) doms b) c) (lags : Lags n k i doms) :
    Lags n k (i + 1) (doms.set b (some c)) := by
  rw [rpoNumber_range inB] at here
  have inside := mem_range.mp inB
  have below : b < doms.length := by
    rw [progress.length, ladder_len]
    exact inside
  have order := isOrder_reversePostOrder (ladder n) (by rw [ladder_len]; omega)
  rw [reversePostOrder_ladder tall] at order
  intro u v low high up
  rcases (up_set below).mp up with ⟨rfl, rfl, _⟩ | ⟨apart, up⟩
  · rw [if_pos (by omega)] at high
    have under : u - 1 ∈ range (n + 1) := mem_range.mpr (by omega)
    have knownUnder : (domParent doms (u - 1)).isSome :=
      progress.started _ under (.inl (by rw [rpoNumber_range under]; omega))
    have climb : Climb doms (u - 1) v := by
      refine (meets.2 v).mp .refl (u - 1) ⟨?_, knownUnder⟩
      rw [mem_predecessors, mem_ladder]
      omega
    have back : Climb doms v (u - 1) := by
      refine (meets.2 _).mpr fun p pred => ?_
      have edge := mem_predecessors.mp pred.1
      rw [mem_ladder] at edge
      have sides : p = u - 1 ∨ p = u + 1 := by omega
      rcases sides with rfl | rfl
      · exact .refl
      · rcases exists_up pred.2 (by omega) with ⟨q, upAbove⟩
        have first := lags (u + 1) q (by omega) (by rw [if_neg (by omega)]; omega) upAbove
        have same : q = u := by omega
        subst same
        have knownHere : (domParent doms q).isSome := progress.known _ _ upAbove
        rcases exists_up knownHere notEntry with ⟨r, upHere⟩
        have second := lags q r low (by rw [if_neg (by omega)]; omega) upHere
        have same : r = q - 1 := by omega
        subst same
        exact .head upAbove (.single upHere)
    have inV : v ∈ range (n + 1) := progress.inOrder v meets.1
    have lower := progress.number_le climb
    have upper := progress.number_le back
    rw [rpoNumber_range inV, rpoNumber_range under] at lower upper
    omega
  · refine lags u v low ?_ up
    split at high <;> split <;> omega

/-- The top rung is entered on its own, and the rungs below it from there. -/
theorem trail_down (m : Nat) : m + 2 ≤ n →
    ∃ nodes, Trail (ladder n).Edge 0 (n - m) nodes ∧ 1 ∉ nodes := by
  induction m with
  | zero =>
    intro enough
    refine ⟨[n, 0], .step .start ⟨mem_ladder.mpr (.inl ⟨rfl, .inr rfl⟩), ?_, ?_⟩, ?_⟩
    · rw [ladder_len]
      omega
    · rw [ladder_len]
      omega
    · simp
      omega
  | succ m ih =>
    intro enough
    rcases ih (by omega) with ⟨nodes, trail, off⟩
    have down : 1 ≤ n - (m + 1) ∧ n - m = n - (m + 1) + 1 ∧ n - m ≤ n := by omega
    refine ⟨_, .step trail ⟨mem_ladder.mpr (.inr (.inr down)), ?_, ?_⟩, ?_⟩
    · rw [ladder_len]
      omega
    · rw [ladder_len]
      omega
    · rw [mem_cons, not_or]
      exact ⟨by omega, off⟩

/-- The passes run out on a ladder with more rungs. -/
theorem dominatorLoop_ladder (tall : 2 ≤ n) (fuel : Nat) : ∀ (k : Nat) (doms : List (Option Nat)),
    Progress (ladder n) (range (n + 1)) k 1 doms → Lags n k 1 doms → k + fuel + 2 ≤ n →
      (ladder n).dominatorLoop (range (n + 1)) 0 fuel doms =
        .error (.panic "Cooper-Harvey-Kennedy dominator computation did not converge") := by
  have order := isOrder_reversePostOrder (ladder n) (by rw [ladder_len]; omega)
  rw [reversePostOrder_ladder (by omega)] at order
  induction fuel with
  | zero => exact fun _ _ _ _ _ => rfl
  | succ fuel ih =>
    intro k doms progress lags enough
    have shape : range (n + 1) = [0] ++ range' 1 n := by
      rw [range_eq_range', range'_succ]
      rfl
    rcases pass_spec (P := Lags n k) order k 0
      (fun i doms b c progress inB notEntry here meets lags =>
        lags.set (by omega) progress inB notEntry here meets)
      (range' 1 n) [0] doms false shape (by simp) progress lags
      with ⟨doms', changed', folded, after, lags', quiet, _⟩
    have pass : (ladder n).dominatorPass (range (n + 1)) 0 doms = .ok (doms', changed') := by
      have dropped : (range (n + 1)).drop 1 = range' 1 n := by rw [shape]; rfl
      rw [dominatorPass, dropped]
      exact folded
    rw [length_range] at lags'
    rw [dominatorLoop, pass]
    cases changed' with
    | true =>
      refine ih (k + 1) doms' (after.next order) ?_ (by omega)
      intro b c low high up
      rw [if_neg (by omega)] at high
      exact lags' b c low (by split <;> omega) up
    | false =>
      -- A pass that changes nothing would have found that rung 1 does not dominate rung 2.
      rcases quiet rfl with ⟨_, same, still⟩
      subst same
      have exact := after.exact order (by rw [shape]; exact still)
      have two : 2 ∈ range (n + 1) := mem_range.mpr (by omega)
      rcases exists_up (exact.all 2 two) (by omega) with ⟨c, up⟩
      have under := lags' 2 c (Nat.le_refl 2) (by split <;> omega) up
      have one : c = 1 := by omega
      subst one
      have dom := (exact.climb 2 two 1).mp (.single up)
      rcases trail_down (n := n) (n - 2) (by omega) with ⟨nodes, trail, off⟩
      rw [show n - (n - 2) = 2 by omega] at trail
      exact absurd (dom nodes trail) off

/-- The guard is reached on every ladder of at least 1002 rungs. -/
theorem computeDomAnalysis_tall (tall : 1002 ≤ n) (keys : List Nat) :
    (ladder n).computeDomAnalysis keys =
      .error (.panic "Cooper-Harvey-Kennedy dominator computation did not converge") := by
  have nonempty : 0 < (ladder n).len := by rw [ladder_len]; omega
  have order := isOrder_reversePostOrder _ nonempty
  have start := progress_start order nonempty
  rw [reversePostOrder_ladder (by omega)] at order start
  have lags : Lags n 0 1 ((replicate (ladder n).len none).set 0 (some 0)) := by
    intro b c low _ up
    have found := up.1
    rw [domParent_set_ne up.2, domParent, List.getElem?_replicate] at found
    split at found <;> cases found
  have loop := dominatorLoop_ladder (by omega) 1000 0 _ start lags (by omega)
  have found : (ladder n).computeDominators =
      .error (.panic "Cooper-Harvey-Kennedy dominator computation did not converge") := by
    rw [computeDominators, reversePostOrder_ladder (by omega), order.headD]
    exact loop
  have notEmpty : (range (n + 1)).isEmpty = false := by
    rw [range_succ_eq_map]
    rfl
  rw [computeDomAnalysis, reversePostOrder_ladder (by omega), found]
  simp only [notEmpty, Bool.false_eq_true, if_false]
  rfl

end Ladder

/-- On a ladder of 1002 rungs the guard is reached. -/
theorem computeDomAnalysis_ladder : (ladder 1002).computeDomAnalysis (List.range 1003) =
    .error (.panic "Cooper-Harvey-Kennedy dominator computation did not converge") :=
  computeDomAnalysis_tall (Nat.le_refl _) _

end CoralReef.CFG
