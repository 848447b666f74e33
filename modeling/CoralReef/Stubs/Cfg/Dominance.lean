import CoralReef.Stubs.Cfg.Order

/-!
# The dominator tree

The passes keep a tree in which every block hangs below blocks that come before it in the order and
that its dominators dominate. After `k` passes a block hangs only below blocks on all its trails
with fewer than `k` edges against the order, so the passes end two after the last such edge of a
simple trail; and where a pass changes nothing, climbing the tree finds exactly the dominators.
-/

open List

namespace CoralReef.CFG

variable {α : Type} {cfg : CFG α} {rpo : List Nat} {doms : List (Option Nat)} {a b c : Nat}

/-- One step up the tree; the entry is its own parent. -/
def Up (doms : List (Option Nat)) (b c : Nat) : Prop := domParent doms b = some c ∧ b ≠ 0

/-- Climbing from `b` passes `a`. -/
def Climb (doms : List (Option Nat)) : Nat → Nat → Prop := Relation.ReflTransGen (Up doms)

theorem Up.unique (up : Up doms b a) (up' : Up doms b c) : a = c :=
  Option.some.inj (up.1.symm.trans up'.1)

theorem exists_up (isKnown : (domParent doms b).isSome) (notEntry : b ≠ 0) : ∃ c, Up doms b c := by
  rcases Option.isSome_iff_exists.mp isKnown with ⟨c, found⟩
  exact ⟨c, found, notEntry⟩

theorem climb_iff (up : Up doms b c) : Climb doms b a ↔ a = b ∨ Climb doms c a := by
  constructor
  · intro climb
    rcases Relation.ReflTransGen.cases_head climb with rfl | ⟨c', up', climb⟩
    · exact .inl rfl
    · exact .inr (up'.unique up ▸ climb)
  · rintro (rfl | climb)
    · exact .refl
    · exact .head up climb

theorem climb_zero : Climb doms 0 a ↔ a = 0 := by
  constructor
  · intro climb
    rcases Relation.ReflTransGen.cases_head climb with rfl | ⟨c, up, _⟩
    · rfl
    · exact absurd rfl up.2
  · rintro rfl
    exact .refl

/-- What every step of the computation keeps. -/
structure Climbs (cfg : CFG α) (rpo : List Nat) (doms : List (Option Nat)) : Prop where
  length : doms.length = cfg.len
  root : domParent doms 0 = some 0
  inOrder : ∀ b, (domParent doms b).isSome → b ∈ rpo
  known : ∀ b c, Up doms b c → (domParent doms c).isSome
  falls : ∀ b c, Up doms b c → rpoNumber rpo c < rpoNumber rpo b
  /-- A block is reached from the one it hangs below through later blocks. -/
  via : ∀ b c, Up doms b c → Within cfg.Edge (rpoNumber rpo c ≤ rpoNumber rpo ·) c b
  /-- The strict dominators of a block dominate the one it hangs below. -/
  keeps : ∀ b c d, Up doms b c → cfg.Dom d b → d ≠ b → cfg.Dom d c

namespace Climbs

variable (climbs : Climbs cfg rpo doms)

include climbs

theorem number_le (climb : Climb doms b a) : rpoNumber rpo a ≤ rpoNumber rpo b := by
  induction climb with
  | refl => exact Nat.le_refl _
  | tail _ up ih => exact Nat.le_trans (Nat.le_of_lt (climbs.falls _ _ up)) ih

theorem climb_known (climb : Climb doms b a) (isKnown : (domParent doms b).isSome) :
    (domParent doms a).isSome := by
  induction climb with
  | refl => exact isKnown
  | tail _ up ih => exact climbs.known _ _ up

theorem climb_via (climb : Climb doms b a) :
    Within cfg.Edge (rpoNumber rpo a ≤ rpoNumber rpo ·) a b := by
  induction climb with
  | refl => exact .refl
  | @tail x y climb up ih =>
    have lower := climbs.falls _ _ up
    exact (climbs.via _ _ up).trans (ih.weaken fun v above => by omega)

/-- Nothing that dominates a block is missed. -/
theorem of_dom {d : Nat} (isKnown : (domParent doms b).isSome) (dom : cfg.Dom d b) :
    Climb doms b d := by
  induction number : rpoNumber rpo b using Nat.strongRecOn generalizing b with
  | ind n ih =>
    by_cases same : d = b
    · subst same
      exact .refl
    · have notEntry : b ≠ 0 := by
        rintro rfl
        exact same dom.eq_entry
      rcases exists_up isKnown notEntry with ⟨c, up⟩
      have lower := climbs.falls _ _ up
      exact .head up (ih _ (number ▸ lower) (climbs.known _ _ up)
        (climbs.keeps _ _ _ up dom same) rfl)

end Climbs

/-! ## The common ancestor -/

/-- `c` hangs below exactly the common ancestors. -/
def Meets (doms : List (Option Nat)) (of : Nat → Prop) (c : Nat) : Prop :=
  (domParent doms c).isSome ∧ ∀ a, Climb doms c a ↔ ∀ p, of p → Climb doms p a

theorem intersect_spec (order : IsOrder cfg rpo) (climbs : Climbs cfg rpo doms) (fuel : Nat) :
    ∀ x y, (domParent doms x).isSome → (domParent doms y).isSome →
      rpoNumber rpo x + rpoNumber rpo y < fuel →
        ∃ c, intersect doms rpo fuel x y = .ok c ∧ Meets doms (fun p => p = x ∨ p = y) c := by
  induction fuel with
  | zero =>
    intro x y _ _ enough
    omega
  | succ fuel ih =>
    intro x y knownX knownY enough
    -- Above a block with a greater number than the other stands its parent.
    have climbs_parent : ∀ {x y p : Nat}, Up doms x p → rpoNumber rpo y < rpoNumber rpo x →
        ∀ a, (Climb doms p a ∧ Climb doms y a) ↔ (Climb doms x a ∧ Climb doms y a) := by
      intro x y p up below a
      rw [climb_iff up]
      constructor
      · exact fun both => ⟨.inr both.1, both.2⟩
      · rintro ⟨rfl | above, climb⟩
        · have := climbs.number_le climb
          omega
        · exact ⟨above, climb⟩
    have pair : ∀ {x y a : Nat}, (∀ p, p = x ∨ p = y → Climb doms p a) ↔
        Climb doms x a ∧ Climb doms y a := by
      intro x y a
      constructor
      · exact fun all => ⟨all x (.inl rfl), all y (.inr rfl)⟩
      · rintro ⟨first, second⟩ p (rfl | rfl)
        · exact first
        · exact second
    have notEntry : ∀ {x y : Nat}, rpoNumber rpo y < rpoNumber rpo x → x ≠ 0 := by
      rintro x y below rfl
      rw [order.rpoNumber_zero] at below
      omega
    rw [intersect]
    split
    · next same =>
      subst same
      exact ⟨x, rfl, knownX, fun a => by rw [pair, and_self]⟩
    · next apart =>
      split
      · next below =>
        rcases exists_up knownX (notEntry below) with ⟨p, up⟩
        have lower := climbs.falls _ _ up
        rw [up.1, Option.getD_some]
        rcases ih p y (climbs.known _ _ up) knownY (by omega) with ⟨c, found, isKnown, meets⟩
        refine ⟨c, found, isKnown, fun a => ?_⟩
        rw [meets, pair, pair, climbs_parent up below]
      · next above =>
        have below : rpoNumber rpo x < rpoNumber rpo y := by
          have := rpoNumber_inj (climbs.inOrder x knownX) (climbs.inOrder y knownY)
          omega
        rcases exists_up knownY (notEntry below) with ⟨p, up⟩
        have lower := climbs.falls _ _ up
        rw [up.1, Option.getD_some]
        rcases ih x p knownX (climbs.known _ _ up) (by omega) with ⟨c, found, isKnown, meets⟩
        refine ⟨c, found, isKnown, fun a => ?_⟩
        rw [meets, pair, pair, and_comm, climbs_parent up below, and_comm]

/-- The predecessors that hang in the tree. -/
def KnownPred (cfg : CFG α) (doms : List (Option Nat)) (b p : Nat) : Prop :=
  p ∈ cfg.predecessors b ∧ (domParent doms p).isSome

/-- What the loop over the predecessors has found after some of them. -/
def FoundIn (doms : List (Option Nat)) (done : List Nat) : Option Nat → Prop
  | none => ∀ p ∈ done, domParent doms p = none
  | some c => Meets doms (fun p => p ∈ done ∧ (domParent doms p).isSome) c

/-- One step of that loop. -/
def meetPred (cfg : CFG α) (doms : List (Option Nat)) (rpo : List Nat) (found : Option Nat)
    (p : Nat) : Except Fault (Option Nat) :=
  match domParent doms p, found with
  | none, found => .ok found
  | some _, none => .ok (some p)
  | some _, some prev => (intersect doms rpo (2 * cfg.len + 1) p prev).map some

theorem newIdom_spec (order : IsOrder cfg rpo) (climbs : Climbs cfg rpo doms) {p : Nat}
    (pred : KnownPred cfg doms b p) (entry : Nat) :
    ∃ c, cfg.newIdom doms rpo entry b = .ok c ∧ Meets doms (KnownPred cfg doms b) c := by
  -- After some predecessors the block found meets those of them that hang in the tree.
  have fold : ∀ (preds done : List Nat) (found : Option Nat), FoundIn doms done found →
      ∃ found', preds.foldlM (meetPred cfg doms rpo) found = Except.ok found' ∧
        FoundIn doms (done ++ preds) found' := by
    intro preds
    induction preds with
    | nil =>
      intro done found meets
      refine ⟨found, rfl, ?_⟩
      rw [append_nil]
      exact meets
    | cons q preds ih =>
      intro done found meets
      have shape : done ++ q :: preds = (done ++ [q]) ++ preds := by simp
      rw [shape, foldlM_cons]
      unfold meetPred
      cases isKnown : domParent doms q with
      | none =>
        refine ih (done ++ [q]) found ?_
        cases found with
        | none =>
          intro p member
          rcases mem_append.mp member with member | same
          · exact meets p member
          · rw [mem_singleton.mp same]
            exact isKnown
        | some c =>
          refine ⟨meets.1, fun a => ?_⟩
          rw [meets.2]
          constructor
          · rintro all p ⟨member, knownP⟩
            rcases mem_append.mp member with member | same
            · exact all p ⟨member, knownP⟩
            · rw [mem_singleton.mp same, isKnown] at knownP
              cases knownP
          · exact fun all p known => all p ⟨mem_append_left _ known.1, known.2⟩
      | some up =>
        have knownQ : (domParent doms q).isSome := by rw [isKnown]; rfl
        cases found with
        | none =>
          refine ih (done ++ [q]) (some q) ⟨knownQ, fun a => ?_⟩
          constructor
          · rintro climb p ⟨member, knownP⟩
            rcases mem_append.mp member with member | same
            · rw [meets p member] at knownP
              cases knownP
            · rw [mem_singleton.mp same]
              exact climb
          · exact fun all => all q ⟨mem_append_right _ mem_cons_self, knownQ⟩
        | some prev =>
          have inQ := order.rpoNumber_lt (climbs.inOrder q knownQ)
          have inPrev := order.rpoNumber_lt (climbs.inOrder prev meets.1)
          rcases intersect_spec order climbs (2 * cfg.len + 1) q prev knownQ meets.1 (by omega)
            with ⟨c, found, knownC, both⟩
          dsimp only
          rw [found]
          refine ih (done ++ [q]) (some c) ⟨knownC, fun a => ?_⟩
          rw [both]
          constructor
          · rintro all p ⟨member, knownP⟩
            rcases mem_append.mp member with member | same
            · exact (meets.2 a).mp (all prev (.inr rfl)) p ⟨member, knownP⟩
            · rw [mem_singleton.mp same]
              exact all q (.inl rfl)
          · rintro all p (rfl | rfl)
            · exact all p ⟨mem_append_right _ mem_cons_self, knownQ⟩
            · refine (meets.2 a).mpr fun x known => ?_
              exact all x ⟨mem_append_left _ known.1, known.2⟩
  rcases fold (cfg.predecessors b) [] none (by simp [FoundIn]) with ⟨found, folded, meets⟩
  rw [nil_append] at meets
  cases found with
  | none =>
    have absent := meets p pred.1
    have present := pred.2
    rw [absent] at present
    cases present
  | some c =>
    refine ⟨c, ?_, meets⟩
    rw [newIdom]
    exact (congrArg (· >>= fun found => pure (found.getD entry)) folded)

/-! ## One block -/

theorem domParent_set_self {x : Option Nat} (below : b < doms.length) :
    domParent (doms.set b x) b = x := by
  simp [domParent, List.getElem?_set_self below]

theorem domParent_set_ne {x : Option Nat} (apart : a ≠ b) :
    domParent (doms.set b x) a = domParent doms a := by
  simp [domParent, List.getElem?_set_ne (Ne.symm apart)]

theorem up_set (below : b < doms.length) {u v : Nat} :
    Up (doms.set b (some c)) u v ↔ (u = b ∧ v = c ∧ b ≠ 0) ∨ (u ≠ b ∧ Up doms u v) := by
  by_cases same : u = b
  · subst same
    simp only [Up, domParent_set_self below, Option.some.injEq]
    constructor
    · rintro ⟨rfl, notEntry⟩
      exact .inl ⟨trivial, rfl, notEntry⟩
    · rintro (⟨_, rfl, notEntry⟩ | ⟨apart, _⟩)
      · exact ⟨rfl, notEntry⟩
      · exact absurd rfl apart
  · simp only [Up, domParent_set_ne same]
    constructor
    · exact fun up => .inr ⟨same, up⟩
    · rintro (⟨equal, _⟩ | ⟨_, up⟩)
      · exact absurd equal same
      · exact up

theorem isSome_set (below : b < doms.length) {u : Nat} :
    (domParent (doms.set b (some c)) u).isSome ↔ u = b ∨ (domParent doms u).isSome := by
  by_cases same : u = b
  · subst same
    simp [domParent_set_self below]
  · simp [domParent_set_ne same, same]

namespace Climbs

variable (climbs : Climbs cfg rpo doms) (order : IsOrder cfg rpo)

include climbs order

/-- A predecessor in the tree is an edge of the graph. -/
theorem edge_of_pred {p : Nat} (pred : KnownPred cfg doms b p) (inB : b ∈ rpo) : cfg.Edge p b :=
  ⟨mem_predecessors.mp pred.1, order.inside p (climbs.inOrder p pred.2), order.inside b inB⟩

/-- A block below the meet of its predecessors, one of which comes before it. -/
theorem set (inB : b ∈ rpo) (notEntry : b ≠ 0) {p : Nat} (pred : KnownPred cfg doms b p)
    (before : rpoNumber rpo p < rpoNumber rpo b) (meets : Meets doms (KnownPred cfg doms b) c) :
    Climbs cfg rpo (doms.set b (some c)) := by
  have below : b < doms.length := climbs.length ▸ order.inside b inB
  have climb : ∀ q, KnownPred cfg doms b q → Climb doms q c := (meets.2 c).mp .refl
  have lower : rpoNumber rpo c ≤ rpoNumber rpo p := climbs.number_le (climb p pred)
  have via : Within cfg.Edge (rpoNumber rpo c ≤ rpoNumber rpo ·) c b :=
    (climbs.climb_via (climb p pred)).tail ⟨climbs.edge_of_pred order pred inB, by omega⟩
  refine ⟨?_, ?_, ?_, ?_, ?_, ?_, ?_⟩
  · rw [length_set]
    exact climbs.length
  · rw [domParent_set_ne (Ne.symm notEntry)]
    exact climbs.root
  · intro u isKnown
    rcases (isSome_set below).mp isKnown with rfl | isKnown
    · exact inB
    · exact climbs.inOrder u isKnown
  · intro u v up
    rw [isSome_set below]
    rcases (up_set below).mp up with ⟨_, rfl, _⟩ | ⟨_, up⟩
    · exact .inr meets.1
    · exact .inr (climbs.known u v up)
  · intro u v up
    rcases (up_set below).mp up with ⟨rfl, rfl, _⟩ | ⟨_, up⟩
    · omega
    · exact climbs.falls u v up
  · intro u v up
    rcases (up_set below).mp up with ⟨rfl, rfl, _⟩ | ⟨_, up⟩
    · exact via
    · exact climbs.via u v up
  · intro u v d up dom strict
    rcases (up_set below).mp up with ⟨rfl, rfl, _⟩ | ⟨_, up⟩
    · -- `d` dominates every predecessor, so `c` hangs below it.
      have above : Climb doms v d := by
        refine (meets.2 d).mpr fun q predQ => ?_
        exact climbs.of_dom predQ.2 (dom.pred strict (climbs.edge_of_pred order predQ inB))
      by_cases same : d = v
      · subst same
        exact .refl d
      · have apart : rpoNumber rpo d ≠ rpoNumber rpo v := fun equal => same <|
          rpoNumber_inj (climbs.inOrder d (climbs.climb_known above meets.1))
            (climbs.inOrder v meets.1) equal
        have := climbs.number_le above
        exact dom.of_walk via (by omega)
    · exact climbs.keeps u v d up dom strict

end Climbs

/-! ## The passes -/

/-- The edges of a trail that go against the order. -/
def retreats (rpo : List Nat) : List Nat → Nat
  | b :: p :: nodes =>
    (if rpoNumber rpo b ≤ rpoNumber rpo p then 1 else 0) + retreats rpo (p :: nodes)
  | _ => 0

theorem retreats_append (late early : List Nat) :
    retreats rpo early ≤ retreats rpo (late ++ early) := by
  induction late with
  | nil => exact Nat.le_refl _
  | cons x late ih =>
    refine Nat.le_trans ih ?_
    rw [cons_append]
    cases late ++ early with
    | nil => exact Nat.zero_le _
    | cons y rest => exact Nat.le_add_left _ _

/-- The state of pass `k + 1` after the first `i` blocks of the order. -/
structure Progress (cfg : CFG α) (rpo : List Nat) (k i : Nat) (doms : List (Option Nat)) : Prop
    extends Climbs cfg rpo doms where
  started : ∀ b ∈ rpo, rpoNumber rpo b < i ∨ 0 < k → (domParent doms b).isSome
  /-- A block hangs below one on all its trails with few retreats. -/
  shallow : ∀ b c nodes, Up doms b c → Trail cfg.Edge 0 b nodes →
    retreats rpo nodes < (if rpoNumber rpo b < i then k + 1 else k) → c ∈ nodes

namespace Progress

variable {k i : Nat} (progress : Progress cfg rpo k i doms)

include progress

theorem climb_mem {nodes : List Nat} (climb : Climb doms b a) (trail : Trail cfg.Edge 0 b nodes)
    (few : retreats rpo nodes < (if rpoNumber rpo b < i then k + 1 else k)) : a ∈ nodes := by
  induction climb using Relation.ReflTransGen.head_induction_on generalizing nodes with
  | refl => exact trail.last_mem
  | @head x y up _ ih =>
    rcases trail.upTo (progress.shallow x y nodes up trail few) with ⟨late, early, rfl, found⟩
    have lower := progress.falls x y up
    have fewer : retreats rpo early ≤ retreats rpo (late ++ early) := retreats_append late early
    refine mem_append_right _ (ih found ?_)
    split at few <;> split <;> omega

/-- The meet of the predecessors is on all trails with few retreats. -/
theorem meet_mem (order : IsOrder cfg rpo) (inB : b ∈ rpo) (notEntry : b ≠ 0)
    (here : rpoNumber rpo b = i) (meets : Meets doms (KnownPred cfg doms b) c) {nodes : List Nat}
    (trail : Trail cfg.Edge 0 b nodes) (few : retreats rpo nodes < k + 1) : c ∈ nodes := by
  cases trail with
  | start => exact absurd rfl notEntry
  | @step p _ early trail edge =>
    rcases trail.head with ⟨rest, rfl⟩
    rw [retreats] at few
    have inP : p ∈ rpo := (order.mem p).mpr ⟨_, trail⟩
    have isKnown : (domParent doms p).isSome := by
      refine progress.started p inP ?_
      split at few <;> omega
    have climb : Climb doms p c := (meets.2 c).mp .refl p ⟨mem_predecessors.mpr edge.1, isKnown⟩
    refine mem_cons_of_mem _ (progress.climb_mem climb trail ?_)
    split at few <;> split <;> omega

/-- The next block of the pass. -/
theorem set (order : IsOrder cfg rpo) (inB : b ∈ rpo) (notEntry : b ≠ 0)
    (here : rpoNumber rpo b = i) {p : Nat} (pred : KnownPred cfg doms b p)
    (before : rpoNumber rpo p < i) (meets : Meets doms (KnownPred cfg doms b) c) :
    Progress cfg rpo k (i + 1) (doms.set b (some c)) := by
  have below : b < doms.length := progress.length ▸ order.inside b inB
  have climbs := progress.toClimbs.set order inB notEntry pred (here ▸ before) meets
  refine ⟨climbs, ?_, ?_⟩
  · intro u inU early
    rw [isSome_set below]
    by_cases same : u = b
    · exact .inl same
    · refine .inr (progress.started u inU ?_)
      have apart : rpoNumber rpo u ≠ rpoNumber rpo b := fun equal => same (rpoNumber_inj inU inB equal)
      omega
  · intro u v nodes up trail few
    rcases (up_set below).mp up with ⟨rfl, rfl, _⟩ | ⟨apart, up⟩
    · rw [if_pos (by omega)] at few
      exact progress.meet_mem order inB notEntry here meets trail few
    · refine progress.shallow u v nodes up trail ?_
      have inU := progress.inOrder u (by rw [up.1]; rfl)
      have : rpoNumber rpo u ≠ rpoNumber rpo b := fun equal => apart (rpoNumber_inj inU inB equal)
      split at few <;> split <;> omega

end Progress

/-- Every block of a list hangs below the meet of its predecessors. -/
def Settled (cfg : CFG α) (doms : List (Option Nat)) (blocks : List Nat) : Prop :=
  ∀ b ∈ blocks, ∀ c, Up doms b c → Meets doms (KnownPred cfg doms b) c

/-- The simple trails from the entry have fewer than `k` edges against the order. -/
def Shallow (cfg : CFG α) (rpo : List Nat) (k : Nat) : Prop :=
  ∀ b nodes, Trail cfg.Edge 0 b nodes → nodes.Nodup → retreats rpo nodes < k

theorem set_eq_self (found : domParent doms b = some c) : doms.set b (some c) = doms := by
  have here : doms[b]? = some (some c) := by
    rw [domParent] at found
    cases entry : doms[b]? with
    | none => simp [entry] at found
    | some x =>
      rw [entry] at found
      exact congrArg some found
  refine ext_getElem? fun u => ?_
  rw [List.getElem?_set]
  split
  · next same =>
    subst same
    rw [here]
    split
    · rfl
    · next outside =>
      rw [List.getElem?_eq_none (by omega)] at here
      cases here
  · rfl

namespace Progress

variable {k i : Nat}

/-- Where the simple trails are shallow, the tree has the immediate dominators. -/
theorem meet_eq (progress : Progress cfg rpo k i doms) (order : IsOrder cfg rpo)
    (shallow : Shallow cfg rpo k) (inB : b ∈ rpo) (here : rpoNumber rpo b = i) {p : Nat}
    (pred : KnownPred cfg doms b p) (before : rpoNumber rpo p < i)
    (meets : Meets doms (KnownPred cfg doms b) c) (up : Up doms b a) : a = c := by
  have below : b < doms.length := progress.length ▸ order.inside b inB
  have after := progress.set order inB up.2 here pred before meets
  have up' : Up (doms.set b (some c)) b c := (up_set below).mpr (.inl ⟨rfl, rfl, up.2⟩)
  have lower := progress.falls b a up
  have lower' := after.falls b c up'
  have domA : cfg.Dom a b := .of_simple fun nodes trail simple => by
    refine progress.shallow b a nodes up trail ?_
    have := shallow b nodes trail simple
    split <;> omega
  have domC : cfg.Dom c b := .of_simple fun nodes trail simple => by
    refine progress.meet_mem order inB up.2 here meets trail ?_
    have := shallow b nodes trail simple
    omega
  have strictA : a ≠ b := by
    rintro rfl
    omega
  have strictC : c ≠ b := by
    rintro rfl
    omega
  have forward : cfg.Dom a c := after.keeps b c a up' domA strictA
  have back : cfg.Dom c a := progress.keeps b a c up domC strictC
  exact forward.antisymm back ((order.mem c).mp (progress.inOrder c meets.1))

end Progress

/-- The body of a pass. -/
def visitBlock (cfg : CFG α) (rpo : List Nat) (entry : Nat) (state : List (Option Nat) × Bool)
    (b : Nat) : Except Fault (List (Option Nat) × Bool) := do
  let idom ← cfg.newIdom state.1 rpo entry b
  if domParent state.1 b ≠ some idom then return (state.1.set b (some idom), true)
  else return (state.1, state.2)

theorem visitBlock_eq {entry : Nat} {changed : Bool}
    (found : cfg.newIdom doms rpo entry b = .ok c) :
    cfg.visitBlock rpo entry (doms, changed) b =
      .ok (doms.set b (some c), changed || decide (domParent doms b ≠ some c)) := by
  rw [visitBlock, found]
  change (if _ then _ else _) = _
  split
  · next differs =>
    rw [decide_eq_true differs, Bool.or_true]
    rfl
  · next same =>
    rw [not_not] at same
    rw [set_eq_self same, decide_eq_false (not_not.mpr same), Bool.or_false]
    rfl

/-- The rest of a pass, with anything else that each of its blocks keeps. -/
theorem pass_spec (order : IsOrder cfg rpo) (k entry : Nat) {P : Nat → List (Option Nat) → Prop}
    (keep : ∀ i doms b c, Progress cfg rpo k i doms → b ∈ rpo → b ≠ 0 → rpoNumber rpo b = i →
      Meets doms (KnownPred cfg doms b) c → P i doms → P (i + 1) (doms.set b (some c))) :
    ∀ (todo done : List Nat) (doms : List (Option Nat)) (changed : Bool), rpo = done ++ todo →
      done ≠ [] → Progress cfg rpo k done.length doms → P done.length doms →
        ∃ doms' changed',
          todo.foldlM (cfg.visitBlock rpo entry) (doms, changed) = .ok (doms', changed') ∧
          Progress cfg rpo k rpo.length doms' ∧ P rpo.length doms' ∧
          (changed' = false → changed = false ∧ doms' = doms ∧ Settled cfg doms todo) ∧
          (Shallow cfg rpo k → changed' = changed) := by
  intro todo
  induction todo with
  | nil =>
    intro done doms changed split _ progress also
    rw [append_nil] at split
    subst split
    exact ⟨doms, changed, rfl, progress, also, fun same => ⟨same, rfl, by simp [Settled]⟩, fun _ => rfl⟩
  | cons b todo ih =>
    intro done doms changed split nonempty progress also
    have inB : b ∈ rpo := split ▸ by simp
    have here := order.rpoNumber_split split
    have notEntry : b ≠ 0 := by
      rintro rfl
      rw [order.rpoNumber_zero] at here
      exact nonempty (length_eq_zero_iff.mp here.symm)
    rcases (order.fed done b todo split).resolve_left nonempty with ⟨p, isDone, edge⟩
    have inP : p ∈ rpo := split ▸ mem_append_left _ isDone
    have before : rpoNumber rpo p < done.length := here ▸ (order.mem_done split inP).mp isDone
    have pred : KnownPred cfg doms b p :=
      ⟨mem_predecessors.mpr edge.1, progress.started p inP (.inl before)⟩
    rcases newIdom_spec order progress.toClimbs pred entry with ⟨c, found, meets⟩
    have next := progress.set order inB notEntry here pred before meets
    rw [foldlM_cons, visitBlock_eq found]
    rcases ih (done ++ [b]) (doms.set b (some c)) (changed || decide (domParent doms b ≠ some c))
      (by rw [split]; simp) (by simp) (by rw [length_append]; exact next)
      (by rw [length_append]; exact keep _ doms b c progress inB notEntry here meets also)
      with ⟨doms', changed', folded, progress', also', quiet, settled⟩
    refine ⟨doms', changed', folded, progress', also', ?_, ?_⟩
    · intro none
      rcases quiet none with ⟨unchanged, rfl, rest⟩
      rw [Bool.or_eq_false_iff, decide_eq_false_iff_not, not_not] at unchanged
      rw [set_eq_self unchanged.2] at rest ⊢
      refine ⟨unchanged.1, rfl, ?_⟩
      intro x member y up
      rcases mem_cons.mp member with rfl | member
      · exact up.unique ⟨unchanged.2, notEntry⟩ ▸ meets
      · exact rest x member y up
    · intro shallow
      have positive : 0 < k := by
        rcases (order.mem 0).mp (order.first.elim fun rest same => same ▸ mem_cons_self)
          with ⟨nodes, trail⟩
        rcases trail.simple with ⟨short, found, simple, _⟩
        have := shallow 0 short found simple
        omega
      rcases exists_up (progress.started b inB (.inr positive)) notEntry with ⟨a, up⟩
      have same := progress.meet_eq order shallow inB here pred before meets up
      rw [settled shallow, decide_eq_false (not_not.mpr (same ▸ up.1)), Bool.or_false]

/-- After a pass the next begins. -/
theorem Progress.next {k : Nat} (progress : Progress cfg rpo k rpo.length doms)
    (order : IsOrder cfg rpo) : Progress cfg rpo (k + 1) 1 doms := by
  have inside : ∀ b ∈ rpo, rpoNumber rpo b < rpo.length := by
    intro b member
    rw [rpoNumber, if_pos member]
    exact idxOf_lt_length_iff.mpr member
  refine ⟨progress.toClimbs, fun b member _ => progress.started b member (.inl (inside b member)),
    ?_⟩
  intro b c nodes up trail few
  have member := progress.inOrder b (by rw [up.1]; rfl)
  have apart : rpoNumber rpo b ≠ rpoNumber rpo 0 := fun same => up.2 <|
    rpoNumber_inj member (order.first.elim fun rest same => same ▸ mem_cons_self) same
  rw [order.rpoNumber_zero] at apart
  rw [if_neg (by omega)] at few
  exact progress.shallow b c nodes up trail (by rwa [if_pos (inside b member)])

/-- The tree in which climbing finds the dominators. -/
structure Exact (cfg : CFG α) (rpo : List Nat) (doms : List (Option Nat)) : Prop
    extends Climbs cfg rpo doms where
  all : ∀ b ∈ rpo, (domParent doms b).isSome
  climb : ∀ b ∈ rpo, ∀ a, Climb doms b a ↔ cfg.Dom a b

/-- Where nothing changes, every block hangs below its immediate dominator. -/
theorem Progress.exact {k : Nat} (progress : Progress cfg rpo k rpo.length doms)
    (order : IsOrder cfg rpo) (settled : Settled cfg doms (rpo.drop 1)) : Exact cfg rpo doms := by
  have all : ∀ b ∈ rpo, (domParent doms b).isSome := fun b member =>
    progress.started b member (.inl (by
      rw [rpoNumber, if_pos member]
      exact idxOf_lt_length_iff.mpr member))
  refine ⟨progress.toClimbs, all, fun b member a => ⟨?_, progress.of_dom (all b member)⟩⟩
  intro climb nodes trail
  induction trail with
  | start =>
    rw [climb_zero.mp climb]
    exact mem_singleton.mpr rfl
  | @step p b nodes trail edge ih =>
    have inP : p ∈ rpo := (order.mem p).mpr ⟨nodes, trail⟩
    by_cases entry : b = 0
    · subst entry
      rw [climb_zero.mp climb]
      exact mem_cons_self
    · rcases exists_up (all b member) entry with ⟨c, up⟩
      have later : b ∈ rpo.drop 1 := by
        rcases order.first with ⟨rest, rfl⟩
        exact (mem_cons.mp member).resolve_left entry
      have pred : KnownPred cfg doms b p := ⟨mem_predecessors.mpr edge.1, all p inP⟩
      rcases (climb_iff up).mp climb with rfl | above
      · exact mem_cons_self
      · have meets := settled b later c up
        exact mem_cons_of_mem _ (ih inP ((meets.2 a).mp above p pred))

/-- The passes end with such a tree or run out, and do not run out on shallow trails. -/
theorem dominatorLoop_spec (order : IsOrder cfg rpo) (entry : Nat) : ∀ (fuel k : Nat)
    (doms : List (Option Nat)), Progress cfg rpo k 1 doms →
      (∀ doms', cfg.dominatorLoop rpo entry fuel doms = .ok doms' → Exact cfg rpo doms') ∧
      ∀ d, Shallow cfg rpo (d + 1) → d + 1 < fuel + k → 0 < fuel →
        ∃ doms', cfg.dominatorLoop rpo entry fuel doms = .ok doms' := by
  intro fuel
  induction fuel with
  | zero =>
    intro k doms _
    refine ⟨?_, by omega⟩
    intro doms' run
    cases run
  | succ fuel ih =>
    intro k doms progress
    rcases order.first with ⟨rest, shape⟩
    have dropped : rpo.drop 1 = rest := by rw [shape]; rfl
    rcases pass_spec (P := fun _ _ => True) order k entry (fun _ _ _ _ _ _ _ _ _ _ => trivial)
      rest [0] doms false shape (by simp) progress trivial
      with ⟨doms', changed', folded, after, _, quiet, settled⟩
    have pass : cfg.dominatorPass rpo entry doms = .ok (doms', changed') := by
      rw [dominatorPass, dropped]
      exact folded
    rw [dominatorLoop, pass]
    cases changed' with
    | false =>
      rcases quiet rfl with ⟨_, rfl, still⟩
      refine ⟨?_, fun d _ _ _ => ⟨doms', rfl⟩⟩
      intro result run
      cases run
      exact after.exact order (dropped ▸ still)
    | true =>
      rcases ih (k + 1) doms' (after.next order) with ⟨correct, ends⟩
      refine ⟨correct, ?_⟩
      intro d shallow enough _
      have early : ¬ d + 1 ≤ k := fun late => by
        have deeper : Shallow cfg rpo k := fun b nodes trail simple =>
          Nat.lt_of_lt_of_le (shallow b nodes trail simple) late
        cases settled deeper
      exact ends d shallow (by omega) (by omega)

/-- Before the first pass only the entry hangs in the tree, below itself. -/
theorem progress_start (order : IsOrder cfg rpo) (nonempty : 0 < cfg.len) :
    Progress cfg rpo 0 1 ((List.replicate cfg.len none).set 0 (some 0)) := by
  have known : ∀ b c, domParent ((List.replicate cfg.len none).set 0 (some 0)) b = some c →
      b = 0 ∧ c = 0 := by
    intro b c found
    by_cases entry : b = 0
    · subst entry
      rw [domParent_set_self (by simpa using nonempty)] at found
      exact ⟨rfl, (Option.some.inj found).symm⟩
    · rw [domParent_set_ne entry, domParent, List.getElem?_replicate] at found
      split at found <;> cases found
  have none : ∀ b c, ¬ Up ((List.replicate cfg.len none).set 0 (some 0)) b c := fun b c up =>
    up.2 (known b c up.1).1
  refine ⟨⟨by simp, domParent_set_self (by simpa using nonempty), ?_, fun b c up => absurd up (none b c),
    fun b c up => absurd up (none b c), fun b c up => absurd up (none b c),
    fun b c _ up => absurd up (none b c)⟩, ?_, fun b c _ up => absurd up (none b c)⟩
  · intro b isKnown
    rcases Option.isSome_iff_exists.mp isKnown with ⟨c, found⟩
    rw [(known b c found).1]
    exact order.first.elim fun rest same => same ▸ mem_cons_self
  · intro b member first
    have zero : rpoNumber rpo b = rpoNumber rpo 0 := by
      rw [order.rpoNumber_zero]
      omega
    have entry := rpoNumber_inj member
      (order.first.elim fun rest same => same ▸ mem_cons_self) zero
    rw [entry, domParent_set_self (by simpa using nonempty)]
    rfl

/-- Whatever is computed is the tree of immediate dominators. -/
theorem computeDominators_exact (nonempty : 0 < cfg.len)
    (computed : cfg.computeDominators = .ok doms) : Exact cfg cfg.reversePostOrder doms := by
  have order := isOrder_reversePostOrder cfg nonempty
  rw [computeDominators, order.headD] at computed
  exact (dominatorLoop_spec order 0 1000 0 _ (progress_start order nonempty)).1 doms computed

/-- The guard is not reached where the simple trails have at most 998 edges against the order. -/
theorem computeDominators_ok (nonempty : 0 < cfg.len)
    (shallow : Shallow cfg cfg.reversePostOrder 999) :
    ∃ doms, cfg.computeDominators = .ok doms := by
  have order := isOrder_reversePostOrder cfg nonempty
  rw [computeDominators, order.headD]
  exact (dominatorLoop_spec order 0 1000 0 _ (progress_start order nonempty)).2 998 shallow
    (by omega) (by omega)

end CoralReef.CFG
