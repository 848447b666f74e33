import CoralReef.Codegen.Ir.Semantics
import CoralReef.Codegen.RepairSsa

/-!
# The bookkeeping of SSA repair

Ghost state remembers the version that each block has at its start and where each version is
defined. `Book` ties it to the tracker, and `Ext` says what a search for a version can change.
-/

open List
open Function (update update_of_ne update_self)

namespace CoralReef.RepairState

variable {st : RepairState} {b : Nat} {block : DefTrackerBlock}

/-!
## The tracker state as functions of the block

The version of a name at the end of a block and the phis at its start, after each update of the
state.
-/

/-- The version of a name at the end of a block, if it has one so far. -/
def blockDefs (st : RepairState) (b : Nat) (ssa : SSAValue) : Option SSAValue :=
  st.blocks[b]?.bind fun block => block.defs ssa

/-- The phis at the start of a block so far. -/
def phisOf (st : RepairState) (b : Nat) : List PhiTracker :=
  (st.blocks[b]?.map DefTrackerBlock.phis).getD []

theorem blockDefs_of_getElem (here : st.blocks[b]? = some block) : st.blockDefs b = block.defs := by
  funext ssa
  simp [blockDefs, here]

theorem phisOf_of_getElem (here : st.blocks[b]? = some block) : st.phisOf b = block.phis := by
  simp [phisOf, here]

theorem blockDefs_inside {ssa version : SSAValue} (present : st.blockDefs b ssa = some version) :
    b < st.blocks.length := by
  unfold blockDefs at present
  rw [Option.bind_eq_some_iff] at present
  obtain ⟨block, here, -⟩ := present
  exact (List.getElem?_eq_some_iff.mp here).1

theorem phisOf_inside {tracker : PhiTracker} (member : tracker ∈ st.phisOf b) :
    b < st.blocks.length := by
  by_contra outside
  rw [phisOf, getElem?_eq_none (by omega)] at member
  simp at member

@[simp] theorem setDef_length (st : RepairState) (b : Nat) (ssa version : SSAValue) :
    (st.setDef b ssa version).blocks.length = st.blocks.length := by
  simp [setDef]

@[simp] theorem pushPhi_length (st : RepairState) (b : Nat) (tracker : PhiTracker) :
    (st.pushPhi b tracker).blocks.length = st.blocks.length := by
  simp [pushPhi]

theorem blockDefs_setDef (inside : b < st.blocks.length) (ssa version : SSAValue) :
    (st.setDef b ssa version).blockDefs =
      update st.blockDefs b (update (st.blockDefs b) ssa (some version)) := by
  funext c x
  by_cases same : c = b
  · subst same
    rw [update_self, blockDefs_of_getElem (getElem?_eq_getElem inside)]
    simp only [setDef, blockDefs, getElem?_modify_eq, getElem?_eq_getElem inside,
      Option.map_eq_map, Option.map_some, Option.bind_some]
  · simp only [update_of_ne same, setDef, blockDefs,
      getElem?_modify_ne _ _ (Ne.symm same)]

theorem phisOf_setDef (st : RepairState) (b : Nat) (ssa version : SSAValue) :
    (st.setDef b ssa version).phisOf = st.phisOf := by
  funext c
  by_cases same : c = b
  · subst same
    simp only [setDef, phisOf, getElem?_modify_eq, Option.map_eq_map, Option.map_map]
    rfl
  · simp only [setDef, phisOf, getElem?_modify_ne _ _ (Ne.symm same)]

theorem blockDefs_pushPhi (st : RepairState) (b : Nat) (tracker : PhiTracker) :
    (st.pushPhi b tracker).blockDefs = st.blockDefs := by
  funext c x
  by_cases same : c = b
  · subst same
    simp only [pushPhi, blockDefs, getElem?_modify_eq, Option.map_eq_map, Option.bind_map]
    rfl
  · simp only [pushPhi, blockDefs, getElem?_modify_ne _ _ (Ne.symm same)]

theorem phisOf_pushPhi (inside : b < st.blocks.length) (tracker : PhiTracker) :
    (st.pushPhi b tracker).phisOf = update st.phisOf b (st.phisOf b ++ [tracker]) := by
  funext c
  by_cases same : c = b
  · subst same
    simp [pushPhi, phisOf, getElem?_eq_getElem inside]
  · simp only [update_of_ne same, pushPhi, phisOf,
      getElem?_modify_ne _ _ (Ne.symm same)]

/-- The blocks keep their neighbours. -/
def SameNeighbours (st st' : RepairState) : Prop :=
  ∀ b : Nat, (st'.blocks[b]?.map fun block => (block.pred, block.succ)) =
    st.blocks[b]?.map fun block => (block.pred, block.succ)

theorem sameNeighbours_setDef (st : RepairState) (b : Nat) (ssa version : SSAValue) :
    st.SameNeighbours (st.setDef b ssa version) := by
  intro c
  by_cases same : c = b
  · subst same
    simp only [setDef, getElem?_modify_eq, Option.map_eq_map, Option.map_map]
    rfl
  · simp only [setDef, getElem?_modify_ne _ _ (Ne.symm same)]

theorem sameNeighbours_pushPhi (st : RepairState) (b : Nat) (tracker : PhiTracker) :
    st.SameNeighbours (st.pushPhi b tracker) := by
  intro c
  by_cases same : c = b
  · subst same
    simp only [pushPhi, getElem?_modify_eq, Option.map_eq_map, Option.map_map]
    rfl
  · simp only [pushPhi, getElem?_modify_ne _ _ (Ne.symm same)]

/-- The turns of `get_ssa_or_phi` that the blocks without a version of `ssa` may still cost. -/
def cost (st : RepairState) (ssa : SSAValue) : Nat :=
  (st.blocks.map fun block =>
    if block.defs ssa = none then block.pred.length + 2 else 0).sum

theorem sum_map_modify {α : Type} (h : α → Nat) (f : α → α) :
    ∀ (list : List α) (i : Nat) (a : α), list[i]? = some a →
      ((list.modify i f).map h).sum + h a = (list.map h).sum + h (f a) := by
  intro list
  induction list with
  | nil =>
    intro i a here
    simp at here
  | cons head tail ih =>
    intro i a here
    cases i with
    | zero =>
      simp only [getElem?_cons_zero, Option.some.injEq] at here
      subst here
      simp only [modify_zero_cons, map_cons, sum_cons]
      omega
    | succ i =>
      rw [getElem?_cons_succ] at here
      have := ih i a here
      simp only [modify_succ_cons, map_cons, sum_cons]
      omega

/-- Giving a block its version pays for its own turns. -/
theorem cost_setDef (here : st.blocks[b]? = some block) {ssa : SSAValue}
    (unknown : block.defs ssa = none) (version : SSAValue) :
    (st.setDef b ssa version).cost ssa + (block.pred.length + 2) = st.cost ssa := by
  have := sum_map_modify (fun block : DefTrackerBlock =>
    if block.defs ssa = none then block.pred.length + 2 else 0)
    (fun block => { block with defs := update block.defs ssa (some version) })
    st.blocks b block here
  simp only [unknown, if_true, update_self, reduceCtorEq, if_false] at this
  simp only [cost, setDef]
  omega

theorem cost_setDef_ne {ssa other version : SSAValue} (differs : other ≠ ssa) :
    (st.setDef b ssa version).cost other = st.cost other := by
  cases here : st.blocks[b]? with
  | none =>
    have outside : st.blocks.length ≤ b := getElem?_eq_none_iff.mp here
    simp [cost, setDef, modify_eq_self outside]
  | some block =>
    have := sum_map_modify (fun block : DefTrackerBlock =>
      if block.defs other = none then block.pred.length + 2 else 0)
      (fun block => { block with defs := update block.defs ssa (some version) })
      st.blocks b block here
    simp only [update_of_ne differs] at this
    exact Nat.add_right_cancel this

theorem cost_pushPhi (st : RepairState) (b : Nat) (tracker : PhiTracker) (ssa : SSAValue) :
    (st.pushPhi b tracker).cost ssa = st.cost ssa := by
  cases here : st.blocks[b]? with
  | none =>
    have outside : st.blocks.length ≤ b := getElem?_eq_none_iff.mp here
    simp [cost, pushPhi, modify_eq_self outside]
  | some block =>
    have := sum_map_modify (fun block : DefTrackerBlock =>
      if block.defs ssa = none then block.pred.length + 2 else 0)
      (fun block => { block with phis := block.phis ++ [tracker] }) st.blocks b block here
    exact Nat.add_right_cancel this

theorem cost_le_fuel (st : RepairState) (ssa : SSAValue) : st.cost ssa + 1 ≤ st.fuel := by
  have : st.cost ssa ≤ (st.blocks.map fun block => block.pred.length + 2).sum := by
    unfold cost
    induction st.blocks with
    | nil => rfl
    | cons block blocks ih =>
      simp only [map_cons, sum_cons]
      split <;> omega
  unfold fuel
  omega

end CoralReef.RepairState

namespace CoralReef.RepairSsa

variable {x : SSAValue}

inductive SiteKind where
  | instr | phi | undef
  deriving DecidableEq

/-- The name a version stands for, and where it is defined. -/
structure VersionInfo where
  orig : SSAValue
  block : Nat
  kind : SiteKind

structure Ghost where
  entry : Nat → SSAValue → Option SSAValue
  info : SSAValue → VersionInfo

variable {f : Function} {multi : SSAValue → Bool} {outDefs : Nat → List SSAValue}
  {exempt : Nat → Nat → Prop} {g g' : Ghost} {st st' : RepairState}

/-- A value that the pass has allocated. -/
def Known (f : Function) (st : RepairState) (v : SSAValue) : Prop :=
  f.ssaAlloc.count < v.idx ∧ v.idx ≤ st.ssaAlloc.count

/-- Why block `b` has version `v` of `x` at its start. -/
inductive Justified (f : Function) (st : RepairState) (b : Nat) (x v : SSAValue) : Prop where
  | phi (tracker : PhiTracker) (member : tracker ∈ st.phisOf b) (orig : tracker.orig = x)
      (dst : tracker.dst = v)
  | preds (present : f.blocks.predecessors b ≠ [])
      (agree : ∀ p ∈ f.blocks.predecessors b, p < b ∧ st.blockDefs p x = some v)
  | undef (absent : f.blocks.predecessors b = []) (member : (b, v) ∈ st.synthUndefs)

/-- What holds of the tracker while the pass searches for versions. `outDefs` are the values that
the rewritten instructions of a block define so far; a pair of a block and a predecessor that is
`exempt` may lack a phi source. -/
structure Book (f : Function) (multi : SSAValue → Bool) (outDefs : Nat → List SSAValue)
    (exempt : Nat → Nat → Prop) (g : Ghost) (st : RepairState) : Prop where
  shape : ∀ (b : Nat) block, st.blocks[b]? = some block →
    block.pred = f.blocks.predecessors b ∧ block.succ = f.blocks.successors b
  ssaCount : f.ssaAlloc.count ≤ st.ssaAlloc.count
  phiCount : f.phiAlloc.count ≤ st.phiAlloc.count
  entry : ∀ b x v, g.entry b x = some v →
    multi x ∧ f.LiveIn x b ∧ (g.info v).orig = x ∧ Known f st v ∧ st.blockDefs b x ≠ none ∧
      Justified f st b x v
  defs : ∀ b x v, st.blockDefs b x = some v →
    multi x ∧ (g.info v).orig = x ∧ Known f st v ∧ (g.entry b x = some v ∨ v ∈ outDefs b)
  out : ∀ b, ∀ v ∈ outDefs b, f.ssaAlloc.count < v.idx →
    v.idx ≤ st.ssaAlloc.count ∧ (g.info v).block = b ∧ (g.info v).kind = .instr
  phi : ∀ b, ∀ tracker ∈ st.phisOf b, g.entry b tracker.orig = some tracker.dst ∧
    (g.info tracker.dst).block = b ∧ (g.info tracker.dst).kind = .phi ∧
      f.phiAlloc.count ≤ tracker.phi.idx ∧ tracker.phi.idx < st.phiAlloc.count
  phiPreds : ∀ b, ∀ tracker ∈ st.phisOf b, f.blocks.predecessors b ≠ []
  phiUnique : ∀ b b' tracker tracker', tracker ∈ st.phisOf b → tracker' ∈ st.phisOf b' →
    tracker.phi = tracker'.phi → b = b' ∧ tracker.orig = tracker'.orig
  phiNodup : ∀ b, ((st.phisOf b).map PhiTracker.orig).Nodup
  srcs : ∀ b, ∀ tracker ∈ st.phisOf b, ∀ p v, tracker.srcs.lookup p = some v →
    p ∈ f.blocks.predecessors b ∧ st.blockDefs p tracker.orig = some v
  needs : ∀ b, ∀ tracker ∈ st.phisOf b, ∀ p ∈ f.blocks.predecessors b, ¬ exempt b p →
    tracker.srcs.lookup p ≠ none ∨ b ≤ p ∧ p ∈ st.needsSrc
  needsInside : ∀ p ∈ st.needsSrc, p < f.blocks.len
  undefs : ∀ b v, (b, v) ∈ st.synthUndefs → b ≠ 0 ∧ f.blocks.predecessors b = [] ∧
    g.entry b (g.info v).orig = some v ∧ (g.info v).block = b ∧ (g.info v).kind = .undef
  undefNodup : (st.synthUndefs.map Prod.snd).Nodup
  filled : ∀ b, b + 1 < st.blocks.length → ∀ x ∈ f.defs b, multi x → st.blockDefs b x ≠ none

/-- What a search for a version of `x` from block `b` changes: some blocks without a version,
none of them after `b`, get one. -/
structure Ext (x : SSAValue) (b : Nat) (g : Ghost) (st : RepairState) (g' : Ghost)
    (st' : RepairState) : Prop where
  length : st'.blocks.length = st.blocks.length
  change : ∀ c y, st'.blockDefs c y = st.blockDefs c y ∧ g'.entry c y = g.entry c y ∨
    y = x ∧ c ≤ b ∧ st.blockDefs c x = none ∧ g.entry c x = none ∧
      ∃ v, st'.blockDefs c x = some v ∧ g'.entry c x = some v
  info : ∀ v, v.idx ≤ st.ssaAlloc.count → g'.info v = g.info v
  phis : ∀ c, ∃ new, st'.phisOf c = st.phisOf c ++ new ∧ (new ≠ [] → st.blockDefs c x = none) ∧
    ∀ tracker ∈ new, ∀ p, tracker.srcs.lookup p ≠ none → p < c
  ssaCount : st.ssaAlloc.count ≤ st'.ssaAlloc.count
  phiCount : st.phiAlloc.count ≤ st'.phiAlloc.count
  undefs : ∀ entry ∈ st.synthUndefs, entry ∈ st'.synthUndefs
  cost : st'.needsSrc.length + st'.cost x ≤ st.needsSrc.length + st.cost x
  costOther : ∀ y, y ≠ x → st'.cost y = st.cost y

theorem Ext.refl (x : SSAValue) (b : Nat) (g : Ghost) (st : RepairState) : Ext x b g st g st where
  length := rfl
  change := fun _ _ => Or.inl ⟨rfl, rfl⟩
  info := fun _ _ => rfl
  phis := fun _ => ⟨[], by simp, fun h => absurd rfl h, by simp⟩
  ssaCount := le_rfl
  phiCount := le_rfl
  undefs := fun _ h => h
  cost := le_rfl
  costOther := fun _ _ => rfl

theorem Ext.defs_some {b c : Nat} {y v : SSAValue} (grows : Ext x b g st g' st')
    (present : st.blockDefs c y = some v) : st'.blockDefs c y = some v := by
  rcases grows.change c y with ⟨same, -⟩ | ⟨rfl, -, absent, -⟩
  · rw [same, present]
  · rw [absent] at present
    cases present

theorem Ext.entry_some {b c : Nat} {y v : SSAValue} (grows : Ext x b g st g' st')
    (present : g.entry c y = some v) : g'.entry c y = some v := by
  rcases grows.change c y with ⟨-, same⟩ | ⟨rfl, -, -, absent, -⟩
  · rw [same, present]
  · rw [absent] at present
    cases present

theorem Ext.above {b c : Nat} (grows : Ext x b g st g' st') (above : b < c) :
    st'.blockDefs c = st.blockDefs c := by
  funext y
  rcases grows.change c y with ⟨same, -⟩ | ⟨-, le, -⟩
  · exact same
  · omega

theorem Ext.mono {b c : Nat} (grows : Ext x b g st g' st') (le : b ≤ c) :
    Ext x c g st g' st' where
  length := grows.length
  change := by
    intro d y
    rcases grows.change d y with same | ⟨isX, le', rest⟩
    · exact Or.inl same
    · exact Or.inr ⟨isX, by omega, rest⟩
  info := grows.info
  phis := grows.phis
  ssaCount := grows.ssaCount
  phiCount := grows.phiCount
  undefs := grows.undefs
  cost := grows.cost
  costOther := grows.costOther

theorem Ext.trans {b : Nat} {g'' : Ghost} {st'' : RepairState} (first : Ext x b g st g' st')
    (second : Ext x b g' st' g'' st'') : Ext x b g st g'' st'' where
  length := second.length.trans first.length
  change := by
    intro c y
    rcases first.change c y with ⟨sameDefs, sameEntry⟩ | ⟨rfl, le, absent, absent', v, new, new'⟩
    · rcases second.change c y with ⟨sameDefs', sameEntry'⟩ | ⟨rfl, le, absent, absent', rest⟩
      · exact Or.inl ⟨sameDefs'.trans sameDefs, sameEntry'.trans sameEntry⟩
      · exact Or.inr ⟨rfl, le, sameDefs ▸ absent, sameEntry ▸ absent', rest⟩
    · exact Or.inr ⟨rfl, le, absent, absent', v, second.defs_some new, second.entry_some new'⟩
  info := by
    intro v le
    rw [second.info v (le.trans first.ssaCount), first.info v le]
  phis := by
    intro c
    obtain ⟨new, isNew, empty, early⟩ := first.phis c
    obtain ⟨new', isNew', empty', early'⟩ := second.phis c
    refine ⟨new ++ new', by rw [isNew', isNew, append_assoc], ?_, ?_⟩
    · intro some
      by_cases h : new = []
      · have absent := empty' (by simpa [h] using some)
        rcases first.change c x with ⟨same, -⟩ | ⟨-, -, -, -, v, present, -⟩
        · rw [← same, absent]
        · rw [absent] at present
          cases present
      · exact empty h
    · intro tracker member
      rcases mem_append.mp member with member | member
      · exact early tracker member
      · exact early' tracker member
  ssaCount := first.ssaCount.trans second.ssaCount
  phiCount := first.phiCount.trans second.phiCount
  undefs := fun entry member => second.undefs entry (first.undefs entry member)
  cost := second.cost.trans first.cost
  costOther := fun y other => (second.costOther y other).trans (first.costOther y other)

theorem Known.mono {v : SSAValue} (known : Known f st v)
    (le : st.ssaAlloc.count ≤ st'.ssaAlloc.count) : Known f st' v :=
  ⟨known.1, known.2.trans le⟩

theorem Justified.grows {x y v : SSAValue} {b c : Nat} (justified : Justified f st b y v)
    (grows : Ext x c g st g' st') : Justified f st' b y v := by
  cases justified with
  | phi tracker member orig dst =>
    obtain ⟨new, isNew, -, -⟩ := grows.phis b
    exact .phi tracker (by rw [isNew]; exact mem_append_left _ member) orig dst
  | preds present agree =>
    exact .preds present fun p member => ⟨(agree p member).1, grows.defs_some (agree p member).2⟩
  | undef absent member => exact .undef absent (grows.undefs _ member)

/-- Block `b` starts with version `v` of `x`. -/
def Ghost.setEntry (g : Ghost) (b : Nat) (x v : SSAValue) : Ghost :=
  { g with entry := Function.update g.entry b (Function.update (g.entry b) x (some v)) }

/-- The state and the ghost once the version `v` of `x` at the start of block `b` has been
allocated and its phi or undef added, but before it is entered in the map of the block. -/
structure Prepared (f : Function) (exempt : Nat → Nat → Prop) (b : Nat) (x v : SSAValue)
    (g : Ghost) (st : RepairState) (g' : Ghost) (st' : RepairState)
    (newPhis : List PhiTracker) (newUndefs : List (Nat × SSAValue)) : Prop where
  blockDefs : st'.blockDefs = st.blockDefs
  neighbours : st.SameNeighbours st'
  length : st'.blocks.length = st.blocks.length
  cost : ∀ y, st'.cost y = st.cost y
  entry : g'.entry = g.entry
  info : ∀ u, u.idx ≤ st.ssaAlloc.count → g'.info u = g.info u
  ssaCount : st.ssaAlloc.count ≤ st'.ssaAlloc.count
  phiCount : st.phiAlloc.count ≤ st'.phiAlloc.count
  known : Known f st' v
  orig : (g'.info v).orig = x
  phis : st'.phisOf = Function.update st.phisOf b (st.phisOf b ++ newPhis)
  newPhi : ∀ tracker ∈ newPhis, tracker.orig = x ∧ tracker.dst = v ∧ (g'.info v).block = b ∧
    (g'.info v).kind = .phi ∧ st.phiAlloc.count ≤ tracker.phi.idx ∧
      tracker.phi.idx < st'.phiAlloc.count ∧
      (∀ p u, tracker.srcs.lookup p = some u →
        p < b ∧ p ∈ f.blocks.predecessors b ∧ st.blockDefs p x = some u) ∧
      ∀ p ∈ f.blocks.predecessors b, tracker.srcs.lookup p ≠ none ∨ b ≤ p ∧ p ∈ st'.needsSrc
  newPreds : newPhis ≠ [] → f.blocks.predecessors b ≠ []
  onePhi : newPhis.length ≤ 1
  undefs : st'.synthUndefs = st.synthUndefs ++ newUndefs
  newUndef : ∀ entry ∈ newUndefs, entry = (b, v) ∧ b ≠ 0 ∧ f.blocks.predecessors b = [] ∧
    (g'.info v).block = b ∧ (g'.info v).kind = .undef ∧ st.ssaAlloc.count < v.idx
  oneUndef : newUndefs.length ≤ 1
  needs : ∀ p ∈ st.needsSrc, p ∈ st'.needsSrc
  needsInside : ∀ p ∈ st'.needsSrc, p < f.blocks.len
  needsCost : st'.needsSrc.length ≤ st.needsSrc.length + ((f.blocks.predecessors b).length + 2)
  justified : Justified f st' b x v

theorem sameNeighbours_trans {st st' st'' : RepairState} (first : st.SameNeighbours st')
    (second : st'.SameNeighbours st'') : st.SameNeighbours st'' :=
  fun b => (second b).trans (first b)

/-- Entering the version of a block pays for the turns that the block may cost. -/
theorem Prepared.paid {b : Nat} {x v : SSAValue} {newPhis : List PhiTracker}
    {newUndefs : List (Nat × SSAValue)} (book : Book f multi outDefs exempt g st)
    (inside : b < st.blocks.length) (unknown : st.blockDefs b x = none)
    (prepared : Prepared f exempt b x v g st g' st' newPhis newUndefs) :
    (st'.setDef b x v).cost x + ((f.blocks.predecessors b).length + 2) = st.cost x := by
  have inside' : b < st'.blocks.length := by rwa [prepared.length]
  obtain ⟨block, here⟩ : ∃ block, st'.blocks[b]? = some block :=
    ⟨_, getElem?_eq_getElem inside'⟩
  have unknown' : block.defs x = none := by
    rw [← RepairState.blockDefs_of_getElem here, prepared.blockDefs, unknown]
  have paid := RepairState.cost_setDef here unknown' v
  obtain ⟨old, oldHere⟩ : ∃ old, st.blocks[b]? = some old :=
    ⟨_, getElem?_eq_getElem inside⟩
  have neighbours := prepared.neighbours b
  rw [here, oldHere, Option.map_some, Option.map_some, Option.some.injEq,
    Prod.mk.injEq] at neighbours
  rw [← (book.shape b old oldHere).1, ← neighbours.1, paid, prepared.cost x]

/-- Entering the version of a block in its map keeps the books. -/
theorem Prepared.settle {b : Nat} {x v : SSAValue} {newPhis : List PhiTracker}
    {newUndefs : List (Nat × SSAValue)} (book : Book f multi outDefs exempt g st)
    (inside : b < st.blocks.length) (isMulti : multi x) (live : f.LiveIn x b)
    (unknown : st.blockDefs b x = none)
    (prepared : Prepared f exempt b x v g st g' st' newPhis newUndefs) :
    Book f multi outDefs exempt (g'.setEntry b x v) (st'.setDef b x v) ∧
      Ext x b g st (g'.setEntry b x v) (st'.setDef b x v) := by
  have inside' : b < st'.blocks.length := by rwa [prepared.length]
  have noEntry : g.entry b x = none := by
    by_contra some
    obtain ⟨u, present⟩ := Option.ne_none_iff_exists'.mp some
    exact (book.entry b x u present).2.2.2.2.1 unknown
  have defs : (st'.setDef b x v).blockDefs =
      update st.blockDefs b (update (st.blockDefs b) x (some v)) := by
    rw [RepairState.blockDefs_setDef inside', prepared.blockDefs]
  have phis : (st'.setDef b x v).phisOf =
      update st.phisOf b (st.phisOf b ++ newPhis) := by
    rw [RepairState.phisOf_setDef, prepared.phis]
  have entries : (g'.setEntry b x v).entry =
      update g.entry b (update (g.entry b) x (some v)) := by
    simp only [Ghost.setEntry, prepared.entry]
  have change : ∀ c y,
      (st'.setDef b x v).blockDefs c y = st.blockDefs c y ∧
          (g'.setEntry b x v).entry c y = g.entry c y ∨
        y = x ∧ c ≤ b ∧ st.blockDefs c x = none ∧ g.entry c x = none ∧
          ∃ u, (st'.setDef b x v).blockDefs c x = some u ∧
            (g'.setEntry b x v).entry c x = some u := by
    intro c y
    rw [defs, entries]
    by_cases same : c = b
    · subst same
      by_cases isX : y = x
      · subst isX
        exact Or.inr ⟨rfl, le_rfl, unknown, noEntry, v, by simp, by simp⟩
      · exact Or.inl ⟨by simp [isX], by simp [isX]⟩
    · exact Or.inl ⟨by simp [same], by simp [same]⟩
  have phiAt : ∀ c, ∀ tracker ∈ (st'.setDef b x v).phisOf c,
      tracker ∈ st.phisOf c ∨ c = b ∧ tracker ∈ newPhis := by
    intro c tracker member
    rw [phis] at member
    by_cases same : c = b
    · subst same
      rw [update_self, mem_append] at member
      exact member.imp_right fun h => ⟨rfl, h⟩
    · rw [update_of_ne same] at member
      exact Or.inl member
  have grows : Ext x b g st (g'.setEntry b x v) (st'.setDef b x v) := by
    refine ⟨by rw [RepairState.setDef_length, prepared.length], change, prepared.info, ?_,
      prepared.ssaCount, prepared.phiCount, ?_, ?_, ?_⟩
    · intro c
      rw [phis]
      by_cases same : c = b
      · subst same
        refine ⟨newPhis, by rw [update_self], fun _ => unknown, ?_⟩
        intro tracker member p found
        obtain ⟨u, present⟩ := Option.ne_none_iff_exists'.mp found
        obtain ⟨-, -, -, -, -, -, srcs, -⟩ := prepared.newPhi tracker member
        exact (srcs p u present).1
      · refine ⟨[], ?_, fun h => absurd rfl h, by simp⟩
        rw [update_of_ne same, append_nil]
    · intro entry member
      show entry ∈ st'.synthUndefs
      rw [prepared.undefs]
      exact mem_append_left _ member
    · have paid := prepared.paid book inside unknown
      have needsCost := prepared.needsCost
      show st'.needsSrc.length + (st'.setDef b x v).cost x ≤ _
      omega
    · intro y other
      rw [← prepared.cost y]
      exact RepairState.cost_setDef_ne other
  refine ⟨?_, grows⟩
  refine ⟨?_, ?_, ?_, ?_, ?_, ?_, ?_, ?_, ?_, ?_, ?_, ?_, ?_, ?_, ?_, ?_⟩
  · intro c block here
    have same := sameNeighbours_trans prepared.neighbours
      (RepairState.sameNeighbours_setDef st' b x v) c
    rw [here, Option.map_some] at same
    obtain ⟨old, oldHere, equal⟩ := Option.map_eq_some_iff.mp same.symm
    rw [Prod.mk.injEq] at equal
    rw [← equal.1, ← equal.2]
    exact book.shape c old oldHere
  · exact book.ssaCount.trans prepared.ssaCount
  · exact book.phiCount.trans prepared.phiCount
  · intro c y u present
    rcases change c y with ⟨sameDefs, sameEntry⟩ | ⟨rfl, -, absent, absent', w, new, new'⟩
    · rw [sameEntry] at present
      obtain ⟨isMulti', live', orig, known, some, justified⟩ := book.entry c y u present
      refine ⟨isMulti', live', ?_, known.mono prepared.ssaCount, by rwa [sameDefs],
        justified.grows grows⟩
      show (g'.info u).orig = y
      rw [prepared.info u known.2, orig]
    · have atB : c = b := by
        by_contra other
        rw [defs, update_of_ne other, absent] at new
        cases new
      subst atB
      rw [entries, update_self, update_self] at present
      cases present
      refine ⟨isMulti, live, prepared.orig, prepared.known, by simp [new], ?_⟩
      cases prepared.justified with
      | phi tracker member orig dst =>
        exact .phi tracker (by rwa [RepairState.phisOf_setDef]) orig dst
      | preds present agree =>
        refine .preds present fun p member => ⟨(agree p member).1, ?_⟩
        apply grows.defs_some
        rw [← prepared.blockDefs]
        exact (agree p member).2
      | undef absent member => exact .undef absent member
  · intro c y u present
    rcases change c y with ⟨sameDefs, sameEntry⟩ | ⟨rfl, -, absent, absent', w, new, new'⟩
    · rw [sameDefs] at present
      obtain ⟨isMulti', orig, known, place⟩ := book.defs c y u present
      refine ⟨isMulti', ?_, known.mono prepared.ssaCount, by rwa [sameEntry]⟩
      show (g'.info u).orig = y
      rw [prepared.info u known.2, orig]
    · rw [new] at present
      cases present
      have atB : c = b := by
        by_contra other
        rw [defs, update_of_ne other, absent] at new
        cases new
      subst atB
      rw [entries, update_self, update_self] at new'
      cases new'
      refine ⟨isMulti, prepared.orig, prepared.known, Or.inl ?_⟩
      rw [entries, update_self, update_self]
  · intro c u member above
    obtain ⟨le, block, kind⟩ := book.out c u member above
    refine ⟨le.trans prepared.ssaCount, ?_⟩
    show (g'.info u).block = c ∧ (g'.info u).kind = .instr
    rw [prepared.info u le]
    exact ⟨block, kind⟩
  · intro c tracker member
    rcases phiAt c tracker member with old | ⟨rfl, new⟩
    · obtain ⟨entry, block, kind, low, high⟩ := book.phi c tracker old
      have known := (book.entry c tracker.orig tracker.dst entry).2.2.2.1
      refine ⟨grows.entry_some entry, ?_⟩
      show (g'.info tracker.dst).block = c ∧ (g'.info tracker.dst).kind = .phi ∧ _
      rw [prepared.info _ known.2]
      exact ⟨block, kind, low, lt_of_lt_of_le high prepared.phiCount⟩
    · obtain ⟨rfl, rfl, block, kind, low, high, -⟩ := prepared.newPhi tracker new
      refine ⟨by rw [entries, update_self, update_self], block, kind, ?_, high⟩
      exact book.phiCount.trans low
  · intro c tracker member
    rcases phiAt c tracker member with old | ⟨rfl, new⟩
    · exact book.phiPreds c tracker old
    · exact prepared.newPreds (ne_nil_of_mem new)
  · intro c c' tracker tracker' member member' same
    rcases phiAt c tracker member with old | ⟨rfl, new⟩ <;>
      rcases phiAt c' tracker' member' with old' | ⟨rfl, new'⟩
    · exact book.phiUnique c c' tracker tracker' old old' same
    · have below := (book.phi c tracker old).2.2.2.2
      have above := (prepared.newPhi tracker' new').2.2.2.2.1
      rw [same] at below
      omega
    · have below := (book.phi c' tracker' old').2.2.2.2
      have above := (prepared.newPhi tracker new).2.2.2.2.1
      rw [same] at above
      omega
    · exact ⟨rfl, (prepared.newPhi tracker new).1.trans (prepared.newPhi tracker' new').1.symm⟩
  · intro c
    rw [phis]
    by_cases same : c = b
    · subst same
      rw [update_self, map_append, nodup_append]
      refine ⟨book.phiNodup c, ?_, ?_⟩
      · have := prepared.onePhi
        cases newPhis with
        | nil => exact nodup_nil
        | cons tracker rest =>
          have empty : rest = [] := by
            rw [length_cons] at this
            exact length_eq_zero_iff.mp (by omega)
          subst empty
          exact nodup_singleton _
      · intro y member z member' equal
        subst equal
        obtain ⟨tracker, old, rfl⟩ := mem_map.mp member
        obtain ⟨tracker', new, same⟩ := mem_map.mp member'
        rw [(prepared.newPhi tracker' new).1] at same
        have := (book.phi c tracker old).1
        rw [← same, noEntry] at this
        cases this
    · rw [update_of_ne same]
      exact book.phiNodup c
  · intro c tracker member p u found
    rcases phiAt c tracker member with old | ⟨rfl, new⟩
    · obtain ⟨isPred, present⟩ := book.srcs c tracker old p u found
      exact ⟨isPred, grows.defs_some present⟩
    · obtain ⟨rfl, -, -, -, -, -, srcs, -⟩ := prepared.newPhi tracker new
      obtain ⟨-, isPred, present⟩ := srcs p u found
      exact ⟨isPred, grows.defs_some present⟩
  · intro c tracker member p isPred notExempt
    rcases phiAt c tracker member with old | ⟨rfl, new⟩
    · rcases book.needs c tracker old p isPred notExempt with found | ⟨le, needed⟩
      · exact Or.inl found
      · exact Or.inr ⟨le, prepared.needs p needed⟩
    · obtain ⟨-, -, -, -, -, -, -, needs⟩ := prepared.newPhi tracker new
      exact needs p isPred
  · exact prepared.needsInside
  · intro c u member
    have split : (c, u) ∈ st.synthUndefs ∨ (c, u) ∈ newUndefs := by
      have here : (c, u) ∈ st'.synthUndefs := member
      rwa [prepared.undefs, mem_append] at here
    rcases split with old | new
    · obtain ⟨notEntry, noPreds, entry, block, kind⟩ := book.undefs c u old
      have known := (book.entry c _ u entry).2.2.2.1
      refine ⟨notEntry, noPreds, ?_, ?_⟩
      · show (g'.setEntry b x v).entry c (g'.info u).orig = some u
        rw [prepared.info u known.2]
        exact grows.entry_some entry
      · show (g'.info u).block = c ∧ (g'.info u).kind = .undef
        rw [prepared.info u known.2]
        exact ⟨block, kind⟩
    · obtain ⟨same, notEntry, noPreds, block, kind, -⟩ := prepared.newUndef _ new
      rw [Prod.mk.injEq] at same
      obtain ⟨rfl, rfl⟩ := same
      refine ⟨notEntry, noPreds, ?_, block, kind⟩
      show (g'.setEntry c x u).entry c (g'.info u).orig = some u
      rw [prepared.orig, entries, update_self, update_self]
  · show (st'.synthUndefs.map Prod.snd).Nodup
    rw [prepared.undefs, map_append, nodup_append]
    refine ⟨book.undefNodup, ?_, ?_⟩
    · have := prepared.oneUndef
      cases newUndefs with
      | nil => exact nodup_nil
      | cons entry rest =>
        have empty : rest = [] := by
          rw [length_cons] at this
          exact length_eq_zero_iff.mp (by omega)
        subst empty
        exact nodup_singleton _
    · intro u member w member' equal
      subst equal
      obtain ⟨⟨c, u'⟩, old, rfl⟩ := mem_map.mp member
      obtain ⟨entry, new, same⟩ := mem_map.mp member'
      obtain ⟨rfl, -, -, -, -, above⟩ := prepared.newUndef entry new
      have known := (book.entry c _ u' (book.undefs c u' old).2.2.1).2.2.2.1
      have := known.2
      simp only at same
      rw [← same] at this
      omega
  · intro c inside'' y member isMulti'
    rw [RepairState.setDef_length, prepared.length] at inside''
    have some := book.filled c inside'' y member isMulti'
    obtain ⟨u, present⟩ := Option.ne_none_iff_exists'.mp some
    rw [grows.defs_some present]
    simp

end CoralReef.RepairSsa
