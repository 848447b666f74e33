import CoralReef.Codegen.RepairSsa.Proofs.Rename
import Mathlib.Data.List.Dedup

/-!
# Filling the phis

The loop over the blocks that owe phi sources along back edges. Its searches add no phi to the
block whose phis are borrowed, and it ends since every search that adds work settles a block.
-/

open List

namespace CoralReef.RepairSsa

variable {f : Function} {multi : SSAValue → Bool} {outs : Nat → List Instr}
  {exempt exempt' : Nat → Nat → Prop} {g g' : Ghost} {st st' : RepairState}

/-- The state once phi `i` of block `s` has a source for predecessor `b`. -/
def withSrc (st : RepairState) (s i b : Nat) (v : SSAValue) : RepairState :=
  { st with blocks := st.blocks.modify s fun block =>
      { block with phis := block.phis.modify i fun tracker => tracker.insertSrc b v } }

theorem blockDefs_withSrc (st : RepairState) (s i b : Nat) (v : SSAValue) :
    (withSrc st s i b v).blockDefs = st.blockDefs := by
  funext c x
  by_cases same : c = s
  · subst same
    simp only [withSrc, RepairState.blockDefs, getElem?_modify_eq, Option.map_eq_map,
      Option.bind_map]
    rfl
  · simp only [withSrc, RepairState.blockDefs, getElem?_modify_ne _ _ (Ne.symm same)]

theorem phisOf_withSrc (st : RepairState) (s i b : Nat) (v : SSAValue) :
    (withSrc st s i b v).phisOf = Function.update st.phisOf s
      ((st.phisOf s).modify i fun tracker => tracker.insertSrc b v) := by
  funext c
  by_cases same : c = s
  · subst same
    rw [Function.update_self]
    simp only [withSrc, RepairState.phisOf, getElem?_modify_eq, Option.map_eq_map]
    cases st.blocks[c]? <;> simp
  · rw [Function.update_of_ne same]
    simp only [withSrc, RepairState.phisOf, getElem?_modify_ne _ _ (Ne.symm same)]

theorem cost_withSrc (st : RepairState) (s i b : Nat) (v x : SSAValue) :
    (withSrc st s i b v).cost x = st.cost x := by
  cases here : st.blocks[s]? with
  | none =>
    have outside : st.blocks.length ≤ s := getElem?_eq_none_iff.mp here
    simp [RepairState.cost, withSrc, modify_eq_self outside]
  | some block =>
    have := RepairState.sum_map_modify (fun block : DefTrackerBlock =>
      if block.defs x = none then block.pred.length + 2 else 0)
      (fun block => { block with
        phis := block.phis.modify i fun tracker => tracker.insertSrc b v }) st.blocks s block here
    exact Nat.add_right_cancel this

/-- A phi after `withSrc` is one from before, perhaps with the new source. -/
theorem phi_of_withSrc {s i b : Nat} {v : SSAValue} {c : Nat} {tracker : PhiTracker}
    (member : tracker ∈ (withSrc st s i b v).phisOf c) :
    ∃ old ∈ st.phisOf c, tracker = old ∨
      c = s ∧ (st.phisOf s)[i]? = some old ∧ tracker = old.insertSrc b v := by
  rw [phisOf_withSrc] at member
  by_cases same : c = s
  · subst same
    rw [Function.update_self] at member
    obtain ⟨j, inside, at_⟩ := getElem_of_mem member
    have at_' : ((st.phisOf c).modify i fun tracker => tracker.insertSrc b v)[j]? =
        some tracker := by rw [getElem?_eq_getElem inside, at_]
    by_cases isI : i = j
    · subst isI
      rw [getElem?_modify_eq, Option.map_eq_map, Option.map_eq_some_iff] at at_'
      obtain ⟨old, here, new⟩ := at_'
      exact ⟨old, mem_of_getElem? here, Or.inr ⟨rfl, here, new.symm⟩⟩
    · rw [getElem?_modify_ne _ _ isI] at at_'
      exact ⟨tracker, mem_of_getElem? at_', Or.inl rfl⟩
  · rw [Function.update_of_ne same] at member
    exact ⟨tracker, member, Or.inl rfl⟩

/-- A phi from before `withSrc` is there afterwards, with the same name and version. -/
theorem phi_withSrc {s i b : Nat} {v : SSAValue} {c : Nat} {tracker : PhiTracker}
    (member : tracker ∈ st.phisOf c) :
    ∃ new ∈ (withSrc st s i b v).phisOf c, new.orig = tracker.orig ∧ new.dst = tracker.dst := by
  rw [phisOf_withSrc]
  by_cases same : c = s
  · subst same
    rw [Function.update_self]
    obtain ⟨j, inside, at_⟩ := getElem_of_mem member
    have at_' : (st.phisOf c)[j]? = some tracker := by rw [getElem?_eq_getElem inside, at_]
    by_cases isI : i = j
    · subst isI
      refine ⟨tracker.insertSrc b v, mem_of_getElem? (i := i) ?_, rfl, rfl⟩
      rw [getElem?_modify_eq, at_']
      rfl
    · refine ⟨tracker, mem_of_getElem? (i := j) ?_, rfl, rfl⟩
      rw [getElem?_modify_ne _ _ isI, at_']
  · rw [Function.update_of_ne same]
    exact ⟨tracker, member, rfl, rfl⟩

/-- A source that is the version at the end of the predecessor may be added. -/
theorem Progress.withSrc {src : Nat → List Instr} {s i b : Nat} {v : SSAValue}
    {tracker : PhiTracker} (progress : Progress f multi src outs exempt g st)
    (here : (st.phisOf s)[i]? = some tracker) (isPred : b ∈ f.blocks.predecessors s)
    (present : st.blockDefs b tracker.orig = some v) :
    Progress f multi src outs exempt g (withSrc st s i b v) := by
  have book := progress.book
  refine ⟨{ book with
    shape := ?_, entry := ?_, defs := ?_, phi := ?_, phiPreds := ?_, phiUnique := ?_
    phiNodup := ?_, srcs := ?_, needs := ?_, filled := ?_ }, ?_, progress.old, progress.new⟩
  · intro c block at_
    by_cases same : c = s
    · subst same
      simp only [RepairSsa.withSrc, getElem?_modify_eq, Option.map_eq_map] at at_
      obtain ⟨old, oldHere, rfl⟩ := Option.map_eq_some_iff.mp at_
      exact book.shape c old oldHere
    · simp only [RepairSsa.withSrc, getElem?_modify_ne _ _ (Ne.symm same)] at at_
      exact book.shape c block at_
  · intro c x u found
    obtain ⟨isMulti, live, orig, known, some, justified⟩ := book.entry c x u found
    refine ⟨isMulti, live, orig, known, by rwa [blockDefs_withSrc], ?_⟩
    cases justified with
    | phi tracker member orig dst =>
      obtain ⟨new, member', orig', dst'⟩ := phi_withSrc (s := s) (i := i) (b := b) (v := v) member
      exact .phi new member' (orig'.trans orig) (dst'.trans dst)
    | preds nonempty agree =>
      exact .preds nonempty fun p member => by rw [blockDefs_withSrc]; exact agree p member
    | undef absent member => exact .undef absent member
  · rw [blockDefs_withSrc]
    exact book.defs
  · intro c new member
    obtain ⟨old, member', rfl | ⟨-, -, rfl⟩⟩ := phi_of_withSrc member
    · exact book.phi c new member'
    · exact book.phi c old member'
  · intro c new member
    obtain ⟨old, member', -⟩ := phi_of_withSrc member
    exact book.phiPreds c old member'
  · intro c c' new new' member member' same
    obtain ⟨old, inOld, equal⟩ := phi_of_withSrc member
    obtain ⟨old', inOld', equal'⟩ := phi_of_withSrc member'
    have phis : old.phi = new.phi ∧ old.orig = new.orig := by
      rcases equal with rfl | ⟨-, -, rfl⟩ <;> exact ⟨rfl, rfl⟩
    have phis' : old'.phi = new'.phi ∧ old'.orig = new'.orig := by
      rcases equal' with rfl | ⟨-, -, rfl⟩ <;> exact ⟨rfl, rfl⟩
    rw [← phis.2, ← phis'.2]
    exact book.phiUnique c c' old old' inOld inOld' (by rw [phis.1, phis'.1, same])
  · intro c
    rw [phisOf_withSrc]
    by_cases same : c = s
    · subst same
      rw [Function.update_self]
      have origs : ((st.phisOf c).modify i fun tracker => tracker.insertSrc b v).map
          PhiTracker.orig = (st.phisOf c).map PhiTracker.orig := by
        apply ext_getElem?
        intro j
        by_cases isI : i = j
        · subst isI
          simp only [getElem?_map, getElem?_modify_eq, Option.map_eq_map,
            Option.map_map]
          rfl
        · simp only [getElem?_map, getElem?_modify_ne _ _ isI]
      rw [origs]
      exact book.phiNodup c
    · rw [Function.update_of_ne same]
      exact book.phiNodup c
  · intro c new member p u found
    rw [blockDefs_withSrc]
    obtain ⟨old, inOld, rfl | ⟨rfl, at_, rfl⟩⟩ := phi_of_withSrc member
    · exact book.srcs c new inOld p u found
    · rw [here] at at_
      cases at_
      rw [lookup_insertSrc] at found
      split at found
      · rename_i same
        subst same
        cases found
        exact ⟨isPred, present⟩
      · exact book.srcs c tracker inOld p u found
  · intro c new member p isPred' notExempt
    obtain ⟨old, inOld, rfl | ⟨rfl, at_, rfl⟩⟩ := phi_of_withSrc member
    · exact book.needs c new inOld p isPred' notExempt
    · rcases book.needs c old inOld p isPred' notExempt with found | needed
      · left
        rw [lookup_insertSrc]
        split
        · simp
        · exact found
      · exact Or.inr needed
  · intro c isBlock x defined isMulti
    rw [blockDefs_withSrc]
    exact book.filled c (by simpa [RepairSsa.withSrc] using isBlock) x defined isMulti
  · rw [blockDefs_withSrc]
    exact progress.renamed

/-- The work left: the blocks that owe sources and the turns that searches may still cost. -/
def work (names : List SSAValue) (st : RepairState) : Nat :=
  st.needsSrc.length + (names.map st.cost).sum

theorem sum_map_change {h h' : SSAValue → Nat} {x : SSAValue} :
    ∀ {names : List SSAValue}, names.Nodup → x ∈ names → (∀ y, y ≠ x → h' y = h y) →
      (names.map h').sum + h x = (names.map h).sum + h' x := by
  intro names
  induction names with
  | nil => simp
  | cons y names ih =>
    intro nodup member others
    rw [nodup_cons] at nodup
    simp only [map_cons, sum_cons]
    by_cases same : y = x
    · subst same
      have rest : names.map h' = names.map h := by
        apply map_congr_left
        intro z inNames
        apply others
        rintro rfl
        exact nodup.1 inNames
      rw [rest]
      omega
    · have inNames : x ∈ names := by
        rcases mem_cons.mp member with rfl | h
        · exact absurd rfl same
        · exact h
      have := ih nodup.2 inNames others
      rw [others y same]
      omega

theorem Ext.work_le {names : List SSAValue} {x : SSAValue} {b : Nat}
    (grows : Ext x b g st g' st') (nodup : names.Nodup) (member : x ∈ names) :
    work names st' ≤ work names st := by
  have := sum_map_change nodup member grows.costOther
  have := grows.cost
  unfold work
  omega

/-- What the filling keeps. -/
structure Filling (f : Function) (multi : SSAValue → Bool) (outs : Nat → List Instr)
    (names : List SSAValue) (limit : Nat) (exempt : Nat → Nat → Prop) (st : RepairState) :
    Prop where
  progress : ∃ g, Progress f multi f.instrs outs exempt g st
  length : st.blocks.length = f.blocks.len
  bounded : work names st ≤ limit

section Fill

variable {names : List SSAValue} {limit b s : Nat}

/-- One phi of block `s` gets its source from `b`. -/
theorem fillPhi_ok (wf : f.WellFormed) (dead : ∀ x, ¬ f.LiveIn x 0) (nodup : names.Nodup)
    (named : ∀ x, multi x = true → x ∈ names) (edge : (b, s) ∈ f.blocks.edges)
    (filling : Filling f multi outs names limit exempt st) {i : Nat}
    (inside : i < (st.phisOf s).length) :
    ∃ st', fillPhi b s st i = .ok st' ∧ Filling f multi outs names limit exempt st' ∧
      (st'.phisOf s).length = (st.phisOf s).length ∧
      (∀ (j : Nat) (tracker : PhiTracker), (st'.phisOf s)[j]? = some tracker → j = i → tracker.srcs.lookup b ≠ none) ∧
      ∀ (j : Nat) (old : PhiTracker), (st.phisOf s)[j]? = some old → old.srcs.lookup b ≠ none →
        ∃ tracker : PhiTracker, (st'.phisOf s)[j]? = some tracker ∧
          tracker.srcs.lookup b ≠ none := by
  obtain ⟨⟨g, progress⟩, length, bounded⟩ := filling
  obtain ⟨tracker, here⟩ : ∃ tracker, (st.phisOf s)[i]? = some tracker :=
    ⟨_, getElem?_eq_getElem inside⟩
  have member := mem_of_getElem? here
  have book := progress.book
  have sInside := RepairState.phisOf_inside member
  have bInside : b < st.blocks.length := by
    rw [length]
    exact (wf.edges _ edge).1
  obtain ⟨block, atS⟩ : ∃ block, st.blocks[s]? = some block :=
    ⟨_, getElem?_eq_getElem sInside⟩
  have phis : ∀ {st₁ : RepairState} {block₁}, st₁.blocks[s]? = some block₁ →
      block₁.phis = st₁.phisOf s := fun here => (RepairState.phisOf_of_getElem here).symm
  have found : (st.blocks[s]?.bind fun block => block.phis[i]?) = some tracker := by
    rw [atS, Option.bind_some, phis atS, here]
  cases lookup : tracker.srcs.lookup b with
  | some v =>
    refine ⟨st, ?_, ⟨⟨g, progress⟩, length, bounded⟩, rfl, ?_, ?_⟩
    · rw [fillPhi, found, expect_some, ok_bind, lookup]
      rfl
    · intro j tracker' at_ isI
      subst isI
      rw [here] at at_
      cases at_
      simp [lookup]
    · intro j old at_ some
      exact ⟨old, at_, some⟩
  | none =>
    have entry := (book.phi s tracker member).1
    obtain ⟨isMulti, live, -, -, known, -⟩ := book.entry s tracker.orig tracker.dst entry
    have defined : tracker.orig ∈ f.defs b → st.blockDefs b tracker.orig ≠ none :=
      (progress.renamed b).defined isMulti
    obtain ⟨v, g₁, st₁, searched, book₁, grows, present⟩ :=
      getSsaOrPhi_ok wf.edges isMulti (dead tracker.orig) book bInside fun absent =>
        .through (fun isDef => defined isDef absent) edge live
    have samePhis : st₁.phisOf s = st.phisOf s := by
      obtain ⟨new, isNew, onlyUnknown, -⟩ := grows.phis s
      have empty : new = [] := by
        by_contra nonempty
        exact known (onlyUnknown nonempty)
      rw [isNew, empty, append_nil]
    obtain ⟨block₁, atS₁⟩ : ∃ block, st₁.blocks[s]? = some block :=
      ⟨_, getElem?_eq_getElem (by rwa [grows.length])⟩
    have here₁ : (st₁.phisOf s)[i]? = some tracker := by rw [samePhis, here]
    have progress₁ := (progress.grow book₁ grows).withSrc here₁
      (CFG.mem_predecessors.mpr edge) present
    have newPhis : (withSrc st₁ s i b v).phisOf s =
        (st.phisOf s).modify i fun tracker => tracker.insertSrc b v := by
      rw [phisOf_withSrc, Function.update_self, samePhis]
    refine ⟨withSrc st₁ s i b v, ?_, ⟨⟨g₁, progress₁⟩, ?_, ?_⟩, ?_, ?_, ?_⟩
    · rw [fillPhi, found, expect_some, ok_bind, lookup]
      simp only [Option.isSome_none, Bool.false_eq_true, if_false]
      rw [searched, ok_bind]
      dsimp only
      rw [atS, atS₁, Option.map_some, Option.map_some, phis atS, phis atS₁, samePhis]
      simp only [decide_true, assertThat_true, ok_bind]
      rfl
    · simp only [withSrc, length_modify]
      rw [grows.length, length]
    · have := grows.work_le nodup (named _ isMulti)
      have same : work names (withSrc st₁ s i b v) = work names st₁ := by
        have costs : (withSrc st₁ s i b v).cost = st₁.cost := funext fun x => cost_withSrc ..
        simp only [work, costs]
        rfl
      omega
    · rw [newPhis, length_modify]
    · intro j tracker' at_ isI
      subst isI
      rw [newPhis, getElem?_modify_eq, here] at at_
      simp only [Option.map_eq_map, Option.map_some, Option.some.injEq] at at_
      rw [← at_, lookup_insertSrc, if_pos rfl]
      simp
    · intro j old at_ some
      rw [newPhis]
      by_cases isI : i = j
      · subst isI
        refine ⟨old.insertSrc b v, by rw [getElem?_modify_eq, at_]; rfl, ?_⟩
        rw [lookup_insertSrc, if_pos rfl]
        simp
      · exact ⟨old, by rw [getElem?_modify_ne _ _ isI, at_], some⟩

/-- Fewer exemptions, once every phi they are about has its source. -/
theorem Progress.discharge {src : Nat → List Instr}
    (progress : Progress f multi src outs exempt g st)
    (settled : ∀ c p, exempt c p → ¬ exempt' c p →
      ∀ tracker ∈ st.phisOf c, tracker.srcs.lookup p ≠ none) :
    Progress f multi src outs exempt' g st := by
  refine ⟨{ progress.book with needs := ?_ }, progress.renamed, progress.old, progress.new⟩
  intro c tracker member p isPred notExempt
  by_cases was : exempt c p
  · exact Or.inl (settled c p was notExempt tracker member)
  · exact progress.book.needs c tracker member p isPred was

/-- The phis that may lack the source from `b`: those of its successors `todo` not after it. -/
def Owed (b : Nat) (todo : List Nat) : Nat → Nat → Prop := fun c p => p = b ∧ c ≤ b ∧ c ∈ todo

theorem fillSucc_ok (wf : f.WellFormed) (dead : ∀ x, ¬ f.LiveIn x 0) (nodup : names.Nodup)
    (named : ∀ x, multi x = true → x ∈ names) (edge : (b, s) ∈ f.blocks.edges) {todo : List Nat}
    (filling : Filling f multi outs names limit (Owed b (s :: todo)) st) :
    ∃ st', fillSucc b st s = .ok st' ∧ Filling f multi outs names limit (Owed b todo) st' := by
  by_cases le : s ≤ b
  · have sInside : s < st.blocks.length := by
      rw [filling.length]
      exact (wf.edges _ edge).2
    obtain ⟨block, atS⟩ : ∃ block, st.blocks[s]? = some block :=
      ⟨_, getElem?_eq_getElem sInside⟩
    have phis := RepairState.phisOf_of_getElem atS
    obtain ⟨st', filled, ⟨⟨g, progress⟩, length, bounded⟩, same, have_⟩ := foldlM_range_ok
      (fillPhi b s) (fun i st' => Filling f multi outs names limit (Owed b (s :: todo)) st' ∧
        (st'.phisOf s).length = (st.phisOf s).length ∧
        ∀ j < i, ∃ tracker, (st'.phisOf s)[j]? = some tracker ∧ tracker.srcs.lookup b ≠ none)
      ⟨filling, rfl, by simp⟩ block.phis.length (by
        rintro i st₁ inside ⟨filling₁, same, have_⟩
        have inside₁ : i < (st₁.phisOf s).length := by
          rw [same, phis]
          exact inside
        obtain ⟨st₂, filled, filling₂, same₂, new, old⟩ :=
          fillPhi_ok wf dead nodup named edge filling₁ inside₁
        refine ⟨st₂, filled, filling₂, same₂.trans same, ?_⟩
        intro j less
        by_cases isI : j = i
        · subst isI
          obtain ⟨tracker, here⟩ : ∃ tracker, (st₂.phisOf s)[j]? = some tracker :=
            ⟨_, getElem?_eq_getElem (by omega)⟩
          exact ⟨tracker, here, new j tracker here rfl⟩
        · obtain ⟨tracker, here, found⟩ := have_ j (by omega)
          exact old j tracker here found)
    refine ⟨st', ?_, ⟨g, progress.discharge ?_⟩, length, bounded⟩
    · rw [fillSucc, if_pos le, atS, expect_some, ok_bind]
      exact filled
    · rintro c p ⟨rfl, isBefore, member⟩ notOwed tracker inPhis
      have isS : c = s := by
        rcases mem_cons.mp member with h | h
        · exact h
        · exact absurd ⟨rfl, isBefore, h⟩ notOwed
      subst isS
      obtain ⟨j, inside, at_⟩ := getElem_of_mem inPhis
      obtain ⟨tracker', here, found⟩ := have_ j (by rw [← phis, ← same]; exact inside)
      rw [getElem?_eq_getElem inside, at_] at here
      cases here
      exact found
  · obtain ⟨⟨g, progress⟩, length, bounded⟩ := filling
    refine ⟨st, ?_, ⟨g, progress.discharge ?_⟩, length, bounded⟩
    · rw [fillSucc, if_neg le]
      rfl
    · rintro c p ⟨rfl, isBefore, member⟩ notOwed
      rcases mem_cons.mp member with rfl | h
      · exact absurd isBefore le
      · exact absurd ⟨rfl, isBefore, h⟩ notOwed

theorem fillSuccs_ok (wf : f.WellFormed) (dead : ∀ x, ¬ f.LiveIn x 0) (nodup : names.Nodup)
    (named : ∀ x, multi x = true → x ∈ names) : ∀ (todo : List Nat) (st : RepairState),
      (∀ s ∈ todo, (b, s) ∈ f.blocks.edges) →
      Filling f multi outs names limit (Owed b todo) st →
      ∃ st', todo.foldlM (fillSucc b) st = .ok st' ∧
        Filling f multi outs names limit (Owed b []) st' := by
  intro todo
  induction todo with
  | nil => exact fun st _ filling => ⟨st, rfl, filling⟩
  | cons s todo ih =>
    intro st edges filling
    obtain ⟨st₁, first, filling₁⟩ :=
      fillSucc_ok wf dead nodup named (edges s mem_cons_self) filling
    obtain ⟨st', rest, filling'⟩ :=
      ih st₁ (fun t member => edges t (mem_cons_of_mem s member)) filling₁
    refine ⟨st', ?_, filling'⟩
    rw [foldlM_cons, first, ok_bind, rest]

/-- Taking a block off the list of those that owe sources. -/
theorem Filling.take (filling : Filling f multi outs names limit (fun _ _ => False) st)
    (member : b ∈ st.needsSrc) :
    0 < limit ∧ Filling f multi outs names (limit - 1) (Owed b (f.blocks.successors b))
      { st with needsSrc := st.needsSrc.filter (· ≠ b) } := by
  obtain ⟨⟨g, progress⟩, length, bounded⟩ := filling
  have shorter : (st.needsSrc.filter (· ≠ b)).length < st.needsSrc.length := by
    rw [length_filter_lt_length_iff_exists]
    exact ⟨b, member, by simp⟩
  have smaller : work names { st with needsSrc := st.needsSrc.filter (· ≠ b) } < work names st :=
    Nat.add_lt_add_right shorter _
  refine ⟨by omega, ⟨g, ?_⟩, length, by omega⟩
  have book := progress.book
  refine ⟨{ book with entry := ?_, needs := ?_, needsInside := ?_ }, progress.renamed,
    progress.old, progress.new⟩
  · intro c x v present
    obtain ⟨isMulti, live, orig, known, some, justified⟩ := book.entry c x v present
    refine ⟨isMulti, live, orig, known, some, ?_⟩
    cases justified with
    | phi tracker member orig dst => exact .phi tracker member orig dst
    | preds nonempty agree => exact .preds nonempty agree
    | undef absent member => exact .undef absent member
  · intro c tracker inPhis p isPred notOwed
    rcases book.needs c tracker inPhis p isPred (by simp) with found | ⟨le, needed⟩
    · exact Or.inl found
    · refine Or.inr ⟨le, mem_filter.mpr ⟨needed, ?_⟩⟩
      rw [decide_eq_true_eq]
      rintro rfl
      exact notOwed ⟨rfl, le, CFG.mem_successors.mpr (CFG.mem_predecessors.mp isPred)⟩
  · intro p inNeeds
    exact book.needsInside p (mem_of_mem_filter inNeeds)

/-- The loop returns, and every phi has a source for each predecessor. -/
theorem fillLoop_ok (wf : f.WellFormed) (dead : ∀ x, ¬ f.LiveIn x 0) (nodup : names.Nodup)
    (named : ∀ x, multi x = true → x ∈ names) : ∀ (fuel limit : Nat) (st : RepairState),
      Filling f multi outs names limit (fun _ _ => False) st → limit < fuel →
      ∃ g' st', fillLoop fuel st = .ok st' ∧
        Progress f multi f.instrs outs (fun _ _ => False) g' st' ∧ st'.needsSrc = [] ∧
        st'.blocks.length = f.blocks.len := by
  intro fuel
  induction fuel with
  | zero =>
    intro limit st _ enough
    omega
  | succ fuel ih =>
    intro limit st filling enough
    cases least : st.needsSrc.min? with
    | none =>
      obtain ⟨g, progress⟩ := filling.progress
      refine ⟨g, st, ?_, progress, min?_eq_none_iff.mp least, filling.length⟩
      rw [fillLoop, least]
      rfl
    | some b =>
      have member : b ∈ st.needsSrc := min?_mem least
      obtain ⟨positive, taken⟩ := filling.take member
      obtain ⟨g, progress⟩ := taken.progress
      have inside : b < st.blocks.length := by
        obtain ⟨g, progress⟩ := filling.progress
        rw [filling.length]
        exact progress.book.needsInside b member
      obtain ⟨block, here⟩ : ∃ block, st.blocks[b]? = some block :=
        ⟨_, getElem?_eq_getElem inside⟩
      have succ := (progress.book.shape b block here).2
      obtain ⟨st₁, filled, filling₁⟩ := fillSuccs_ok wf dead nodup named (f.blocks.successors b) _
        (fun s isSucc => CFG.mem_successors.mp isSucc) taken
      have noneOwed : Owed b [] = fun _ _ => False := by
        funext c p
        simp [Owed]
      rw [noneOwed] at filling₁
      obtain ⟨g', st', rest, progress', empty, length'⟩ :=
        ih (limit - 1) st₁ filling₁ (by omega)
      refine ⟨g', st', ?_, progress', empty, length'⟩
      rw [fillLoop, least]
      dsimp only
      rw [here, expect_some, ok_bind, succ, filled, ok_bind, rest]

end Fill

end CoralReef.RepairSsa
