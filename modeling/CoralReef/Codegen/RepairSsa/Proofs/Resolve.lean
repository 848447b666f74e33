import CoralReef.Codegen.RepairSsa.Proofs.Book

/-!
# The search for a version

One turn of `get_ssa_or_phi` settles a block whose predecessors are known, and the whole search
settles every block it visits: induction on the block, whose earlier predecessors come first.
-/

open List

namespace CoralReef.RepairSsa

variable {f : Function} {multi : SSAValue → Bool} {outDefs : Nat → List SSAValue}
  {exempt : Nat → Nat → Prop} {g g' : Ghost} {st st' : RepairState}

/-- What the scan over the predecessors `done` has found. -/
structure Scanned (st : RepairState) (b : Nat) (x : SSAValue) (done : List Nat)
    (scan : PredScan) : Prop where
  pushed : scan.pushed = done.filter fun p => decide (p < b) && (st.blockDefs p x).isNone
  same : scan.allSame = true → ∀ p ∈ done, p < b ∧
    (st.blockDefs p x = none ∨ st.blockDefs p x = scan.predSsa)
  first : ∀ v, scan.predSsa = some v → ∃ p ∈ done, st.blockDefs p x = some v
  none : scan.predSsa = Option.none → ∀ p ∈ done, p < b → st.blockDefs p x = Option.none
  differs : scan.allSame = false → done ≠ []

theorem scan_step {b p : Nat} {x : SSAValue} (inside : b ≤ st.blocks.length) {before : List Nat}
    {scan : PredScan} (scanned : Scanned st b x before scan) :
    ∃ next, scanPred st.blocks b x scan p = .ok next ∧ Scanned st b x (before ++ [p]) next := by
  by_cases back : p ≥ b
  · refine ⟨{ scan with allSame := false }, ?_, ?_, ?_, ?_, ?_, by simp⟩
    · simp only [scanPred, back, if_true]
      rfl
    · have notBefore : ¬ p < b := by omega
      rw [filter_append, scanned.pushed]
      simp [notBefore]
    · simp
    · intro v found
      obtain ⟨q, member, present⟩ := scanned.first v found
      exact ⟨q, mem_append_left _ member, present⟩
    · intro absent q member before'
      rcases mem_append.mp member with member | member
      · exact scanned.none absent q member before'
      · rw [mem_singleton] at member
        omega
  · obtain ⟨block, here⟩ : ∃ block, st.blocks[p]? = some block :=
      ⟨_, List.getElem?_eq_getElem (by omega)⟩
    have defs := RepairState.blockDefs_of_getElem here
    cases version : block.defs x with
    | none =>
      have unknown : st.blockDefs p x = Option.none := by rw [defs, version]
      refine ⟨{ scan with pushed := scan.pushed ++ [p] }, ?_, ?_, ?_, ?_, ?_, by simp⟩
      · simp only [scanPred, back, if_false, here, expect_some, ok_bind, version]
        rfl
      · have isBefore : p < b := by omega
        rw [filter_append, scanned.pushed]
        simp [isBefore, unknown]
      · intro allSame q member
        rcases mem_append.mp member with member | member
        · exact scanned.same allSame q member
        · rw [mem_singleton] at member
          subst member
          exact ⟨by omega, Or.inl unknown⟩
      · intro v found
        obtain ⟨q, member, present⟩ := scanned.first v found
        exact ⟨q, mem_append_left _ member, present⟩
      · intro absent q member before'
        rcases mem_append.mp member with member | member
        · exact scanned.none absent q member before'
        · rw [mem_singleton] at member
          rw [member, unknown]
    | some v =>
      have known : st.blockDefs p x = some v := by rw [defs, version]
      have pushed : scan.pushed = (before ++ [p]).filter
          fun p => decide (p < b) && (st.blockDefs p x).isNone := by
        rw [filter_append, scanned.pushed]
        simp [known]
      cases found : scan.predSsa with
      | none =>
        refine ⟨{ scan with predSsa := some v }, ?_, pushed, ?_, ?_, ?_, by simp⟩
        · simp only [scanPred, back, if_false, here, expect_some, ok_bind, version, found]
          rfl
        · intro allSame q member
          rcases mem_append.mp member with member | member
          · have isBefore := (scanned.same allSame q member).1
            exact ⟨isBefore, Or.inl (scanned.none found q member isBefore)⟩
          · rw [mem_singleton] at member
            subst member
            exact ⟨by omega, Or.inr known⟩
        · intro u same
          cases same
          exact ⟨p, by simp, known⟩
        · intro absent
          cases absent
      | some first =>
        refine ⟨{ scan with allSame := scan.allSame && decide (first = v) }, ?_, pushed, ?_, ?_,
          ?_, by simp⟩
        · simp only [scanPred, back, if_false, here, expect_some, ok_bind, version, found]
          rfl
        · intro allSame q member
          rw [Bool.and_eq_true, decide_eq_true_eq] at allSame
          rcases mem_append.mp member with member | member
          · exact scanned.same allSame.1 q member
          · rw [mem_singleton] at member
            subst member
            refine ⟨by omega, Or.inr ?_⟩
            rw [known, found, allSame.2]
        · intro u same
          obtain ⟨q, member, present⟩ := scanned.first u same
          exact ⟨q, mem_append_left _ member, present⟩
        · intro absent
          rw [found] at absent
          cases absent

theorem scan_ok {b : Nat} (x : SSAValue) (inside : b ≤ st.blocks.length) (preds : List Nat) :
    ∃ scan, preds.foldlM (scanPred st.blocks b x) {} = .ok scan ∧ Scanned st b x preds scan :=
  foldlM_ok (scanPred st.blocks b x) (Scanned st b x) preds [] {}
    ⟨by simp, by simp, by simp, by simp, by simp⟩ fun _ _ _ _ scanned => scan_step inside scanned

theorem lookup_insertSrc (tracker : PhiTracker) (p q : Nat) (v : SSAValue) :
    (tracker.insertSrc p v).srcs.lookup q = if q = p then some v else tracker.srcs.lookup q := by
  unfold PhiTracker.insertSrc
  rw [lookup_cons]
  by_cases same : q = p
  · simp [same]
  · have differs : (q == p) = false := by simpa using same
    rw [differs, if_neg same]
    dsimp only
    induction tracker.srcs with
    | nil => rfl
    | cons entry rest ih =>
      obtain ⟨r, u⟩ := entry
      by_cases removed : r = p
      · subst removed
        rw [filter_cons_of_neg (by simp), ih, lookup_cons, differs]
      · rw [filter_cons_of_pos (by simp [removed]), lookup_cons, lookup_cons, ih]

/-- What the loop over the predecessors `done` has made of a new phi. -/
structure Sourced (f : Function) (st : RepairState) (b : Nat) (x : SSAValue) (start : PhiTracker)
    (done : List Nat) (state : RepairState × PhiTracker) : Prop where
  kept : ∃ needs, state.1 = { st with needsSrc := needs } ∧
    (∀ p ∈ st.needsSrc, p ∈ needs) ∧ (∀ p ∈ done, b ≤ p → p ∈ needs) ∧
    (∀ p ∈ needs, p ∈ st.needsSrc ∨ p ∈ done) ∧ needs.length ≤ st.needsSrc.length + done.length
  tracker : state.2.phi = start.phi ∧ state.2.orig = start.orig ∧ state.2.dst = start.dst
  srcs : ∀ p v, state.2.srcs.lookup p = some v → p < b ∧ p ∈ done ∧ st.blockDefs p x = some v
  all : ∀ p ∈ done, p < b → state.2.srcs.lookup p ≠ none

theorem addSrc_step {b p : Nat} {x : SSAValue} (inside : b ≤ st.blocks.length)
    {start : PhiTracker} (known : p < b → st.blockDefs p x ≠ none) {before : List Nat}
    {state : RepairState × PhiTracker} (sourced : Sourced f st b x start before state) :
    ∃ next, addSrc b x state p = .ok next ∧ Sourced f st b x start (before ++ [p]) next := by
  obtain ⟨needs, isState, old, new, only, short⟩ := sourced.kept
  by_cases back : p ≥ b
  · have step : addSrc b x state p = .ok (state.1.insertNeedsSrc p, state.2) := by
      simp only [addSrc, back, if_true]
      rfl
    refine ⟨_, step, ?_, sourced.tracker, ?_, ?_⟩
    · rw [isState]
      unfold RepairState.insertNeedsSrc
      by_cases present : p ∈ needs
      · refine ⟨needs, by simp only [present, if_true], old, ?_, ?_, ?_⟩
        · intro q inDone le
          rcases mem_append.mp inDone with h | h
          · exact new q h le
          · rw [mem_singleton] at h
            rwa [h]
        · intro q inNeeds
          exact (only q inNeeds).imp_right (mem_append_left _)
        · rw [length_append]
          omega
      · refine ⟨p :: needs, by simp only [present, if_false], ?_, ?_, ?_, ?_⟩
        · intro q h
          exact mem_cons_of_mem p (old q h)
        · intro q inDone le
          rcases mem_append.mp inDone with h | h
          · exact mem_cons_of_mem p (new q h le)
          · rw [mem_singleton] at h
            rw [h]
            exact mem_cons_self
        · intro q inNeeds
          rcases mem_cons.mp inNeeds with rfl | h
          · exact Or.inr (by simp)
          · exact (only q h).imp_right (mem_append_left _)
        · rw [length_append, length_cons, length_singleton]
          omega
    · intro q v found
      obtain ⟨isBefore, inDone, present⟩ := sourced.srcs q v found
      exact ⟨isBefore, mem_append_left _ inDone, present⟩
    · intro q inDone isBefore
      rcases mem_append.mp inDone with h | h
      · exact sourced.all q h isBefore
      · rw [mem_singleton] at h
        omega
  · obtain ⟨block, here⟩ : ∃ block, st.blocks[p]? = some block :=
      ⟨_, List.getElem?_eq_getElem (by omega)⟩
    have defs := RepairState.blockDefs_of_getElem here
    have here' : state.1.blocks[p]? = some block := by rw [isState, here]
    obtain ⟨v, version⟩ := Option.ne_none_iff_exists'.mp (known (by omega))
    have step : addSrc b x state p = .ok (state.1, state.2.insertSrc p v) := by
      rw [defs] at version
      simp only [addSrc, back, if_false, here', expect_some, ok_bind, version]
      rfl
    refine ⟨_, step, ⟨needs, isState, old, ?_, ?_, ?_⟩, sourced.tracker, ?_, ?_⟩
    · intro q inDone le
      rcases mem_append.mp inDone with h | h
      · exact new q h le
      · rw [mem_singleton] at h
        omega
    · intro q inNeeds
      exact (only q inNeeds).imp_right (mem_append_left _)
    · rw [length_append]
      omega
    · intro q u found
      rw [lookup_insertSrc] at found
      split at found
      · rename_i same
        subst same
        cases found
        exact ⟨by omega, by simp, version⟩
      · obtain ⟨isBefore, inDone, present⟩ := sourced.srcs q u found
        exact ⟨isBefore, mem_append_left _ inDone, present⟩
    · intro q inDone isBefore
      rw [lookup_insertSrc]
      split
      · simp
      · rename_i other
        rcases mem_append.mp inDone with h | h
        · exact sourced.all q h isBefore
        · rw [mem_singleton] at h
          exact absurd h other

theorem addSrcs_ok {b : Nat} {x : SSAValue} (inside : b ≤ st.blocks.length) (start : PhiTracker)
    (fresh : start.srcs = []) (preds : List Nat)
    (known : ∀ p ∈ preds, p < b → st.blockDefs p x ≠ none) :
    ∃ state, preds.foldlM (addSrc b x) (st, start) = .ok state ∧
      Sourced f st b x start preds state :=
  foldlM_ok (addSrc b x) (Sourced f st b x start) preds [] (st, start)
    ⟨⟨st.needsSrc, rfl, fun _ h => h, by simp, fun _ h => Or.inl h, by simp⟩, ⟨rfl, rfl, rfl⟩,
      by simp [fresh], by simp⟩
    fun _ p _ member sourced => addSrc_step inside (known p member) sourced

/-- The ghost with the place of a new version. -/
def Ghost.define (g : Ghost) (v : SSAValue) (info : VersionInfo) : Ghost :=
  { g with info := Function.update g.info v info }

theorem Ghost.define_info (g : Ghost) (info : VersionInfo) {v u : SSAValue}
    (below : u.idx < v.idx) : (g.define v info).info u = g.info u := by
  have differs : u ≠ v := by
    rintro rfl
    omega
  simp only [define, Function.update_of_ne differs]

section Resolve

variable {b : Nat} {x : SSAValue} {scan : PredScan}

/-- All predecessors agree on a version. -/
theorem prepared_preds (book : Book f multi outDefs exempt g st) {v : SSAValue}
    (scanned : Scanned st b x (f.blocks.predecessors b) scan) (settled : scan.pushed = [])
    (same : scan.allSame = true) (found : scan.predSsa = some v) :
    Prepared f exempt b x v g st g st [] [] := by
  obtain ⟨p, member, present⟩ := scanned.first v found
  obtain ⟨-, orig, known, -⟩ := book.defs p x v present
  have agree : ∀ p ∈ f.blocks.predecessors b, p < b ∧ st.blockDefs p x = some v := by
    intro q inPreds
    obtain ⟨isBefore, version⟩ := scanned.same same q inPreds
    refine ⟨isBefore, ?_⟩
    rcases version with absent | version
    · have pushed : q ∈ scan.pushed := by
        rw [scanned.pushed, mem_filter]
        exact ⟨inPreds, by simp [isBefore, absent]⟩
      rw [settled] at pushed
      simp at pushed
    · rw [version, found]
  exact {
    blockDefs := rfl
    neighbours := fun _ => rfl
    length := rfl
    cost := fun _ => rfl
    entry := rfl
    info := fun _ _ => rfl
    ssaCount := le_rfl
    phiCount := le_rfl
    known := known
    orig := orig
    phis := by simp
    newPhi := by simp
    newPreds := by simp
    onePhi := by simp
    undefs := by simp
    newUndef := by simp
    oneUndef := by simp
    needs := fun _ h => h
    needsInside := book.needsInside
    needsCost := by omega
    justified := .preds (ne_nil_of_mem member) agree }

/-- A block without predecessors gets an undef. -/
theorem prepared_undef (book : Book f multi outDefs exempt g st) (notEntry : b ≠ 0)
    (absent : f.blocks.predecessors b = []) :
    Prepared f exempt b x ⟨x.file, st.ssaAlloc.count + 1⟩ g st
      (g.define ⟨x.file, st.ssaAlloc.count + 1⟩ ⟨x, b, .undef⟩)
      { (st.allocSsa x.file).2 with
        synthUndefs := st.synthUndefs ++ [(b, ⟨x.file, st.ssaAlloc.count + 1⟩)] }
      [] [(b, ⟨x.file, st.ssaAlloc.count + 1⟩)] where
  blockDefs := rfl
  neighbours := fun _ => rfl
  length := rfl
  cost := fun _ => rfl
  entry := rfl
  info := fun u le => g.define_info _ (Nat.lt_succ_of_le le)
  ssaCount := Nat.le_succ _
  phiCount := le_rfl
  known := ⟨Nat.lt_succ_of_le book.ssaCount, le_rfl⟩
  orig := by simp [Ghost.define]
  phis := by
    rw [append_nil, Function.update_eq_self]
    rfl
  newPhi := by simp
  newPreds := by simp
  onePhi := by simp
  undefs := rfl
  newUndef := by
    simp [Ghost.define, notEntry, absent]
  oneUndef := le_rfl
  needs := fun _ h => h
  needsInside := book.needsInside
  needsCost := Nat.le_add_right _ _
  justified := .undef absent (by simp)

/-- Every other block gets a phi, with the sources known so far. -/
theorem prepared_phi (edges : f.blocks.EdgesIn) (book : Book f multi outDefs exempt g st)
    (inside : b < st.blocks.length) (present : f.blocks.predecessors b ≠ [])
    {state : RepairState × PhiTracker} (sourced : Sourced f { st with
        ssaAlloc := ⟨st.ssaAlloc.count + 1⟩, phiAlloc := ⟨st.phiAlloc.count + 1⟩ } b x
      { phi := ⟨st.phiAlloc.count⟩, orig := x, dst := ⟨x.file, st.ssaAlloc.count + 1⟩ }
      (f.blocks.predecessors b) state) :
    Prepared f exempt b x ⟨x.file, st.ssaAlloc.count + 1⟩ g st
      (g.define ⟨x.file, st.ssaAlloc.count + 1⟩ ⟨x, b, .phi⟩) (state.1.pushPhi b state.2)
      [state.2] [] := by
  obtain ⟨needs, isState, old, new, only, short⟩ := sourced.kept
  obtain ⟨samePhi, sameOrig, sameDst⟩ := sourced.tracker
  have blocks : state.1.blocks = st.blocks := by rw [isState]
  have alloc : (state.1.pushPhi b state.2).ssaAlloc.count = st.ssaAlloc.count + 1 := by
    show state.1.ssaAlloc.count = _
    rw [isState]
  have phiAlloc : (state.1.pushPhi b state.2).phiAlloc.count = st.phiAlloc.count + 1 := by
    show state.1.phiAlloc.count = _
    rw [isState]
  have sameDefs : state.1.blockDefs = st.blockDefs := by
    unfold RepairState.blockDefs
    rw [blocks]
  have samePhis : state.1.phisOf = st.phisOf := by
    unfold RepairState.phisOf
    rw [blocks]
  have sameNeeds : (state.1.pushPhi b state.2).needsSrc = needs := by
    show state.1.needsSrc = _
    rw [isState]
  have phis : (state.1.pushPhi b state.2).phisOf =
      Function.update st.phisOf b (st.phisOf b ++ [state.2]) := by
    rw [RepairState.phisOf_pushPhi (by rwa [blocks]), samePhis]
  exact {
    blockDefs := by rw [RepairState.blockDefs_pushPhi, sameDefs]
    neighbours := by
      intro c
      rw [RepairState.sameNeighbours_pushPhi state.1 b state.2 c, blocks]
    length := by rw [RepairState.pushPhi_length, blocks]
    cost := by
      intro y
      rw [RepairState.cost_pushPhi]
      simp only [RepairState.cost, blocks]
    entry := rfl
    info := fun u le => g.define_info _ (Nat.lt_succ_of_le le)
    ssaCount := by
      rw [alloc]
      omega
    phiCount := by
      rw [phiAlloc]
      omega
    known := ⟨Nat.lt_succ_of_le book.ssaCount, alloc.ge⟩
    orig := by simp [Ghost.define]
    phis := phis
    newPhi := by
      intro tracker member
      rw [mem_singleton] at member
      subst member
      refine ⟨sameOrig, sameDst, by simp [Ghost.define], by simp [Ghost.define], ?_, ?_, ?_, ?_⟩
      · rw [samePhi]
      · rw [samePhi, phiAlloc]
        exact Nat.lt_succ_self _
      · exact sourced.srcs
      · intro p member
        by_cases isBefore : p < b
        · exact Or.inl (sourced.all p member isBefore)
        · right
          rw [sameNeeds]
          exact ⟨by omega, new p member (by omega)⟩
    newPreds := fun _ => present
    onePhi := le_rfl
    undefs := by
      rw [append_nil]
      show state.1.synthUndefs = _
      rw [isState]
    newUndef := by simp
    oneUndef := by simp
    needs := by
      rw [sameNeeds]
      exact old
    needsInside := by
      rw [sameNeeds]
      intro p member
      rcases only p member with earlier | isPred
      · exact book.needsInside p earlier
      · exact (edges _ (CFG.mem_predecessors.mp isPred)).1
    needsCost := by
      rw [sameNeeds]
      have : needs.length ≤ st.needsSrc.length + (f.blocks.predecessors b).length := short
      omega
    justified := by
      refine .phi state.2 ?_ sameOrig sameDst
      rw [phis, Function.update_self]
      simp }

/-- A block whose earlier predecessors all have a version of a live name gets one. -/
theorem resolve_ok (edges : f.blocks.EdgesIn) (book : Book f multi outDefs exempt g st)
    (inside : b < st.blocks.length) (isMulti : multi x) (live : f.LiveIn x b)
    (dead : ¬ f.LiveIn x 0) (unknown : st.blockDefs b x = none)
    (scanned : Scanned st b x (f.blocks.predecessors b) scan) (settled : scan.pushed = []) :
    ∃ v g' st', resolve st b (f.blocks.predecessors b) x scan = .ok (v, st') ∧
      Book f multi outDefs exempt g' st' ∧ Ext x b g st g' st' ∧ st'.blockDefs b x = some v ∧
        st'.cost x + ((f.blocks.predecessors b).length + 2) = st.cost x := by
  have done : ∀ {v : SSAValue} {g₁ : Ghost} {st₁ : RepairState} {newPhis newUndefs},
      Prepared f exempt b x v g st g₁ st₁ newPhis newUndefs →
      Book f multi outDefs exempt (g₁.setEntry b x v) (st₁.setDef b x v) ∧
        Ext x b g st (g₁.setEntry b x v) (st₁.setDef b x v) ∧
        (st₁.setDef b x v).blockDefs b x = some v ∧
        (st₁.setDef b x v).cost x + ((f.blocks.predecessors b).length + 2) = st.cost x := by
    intro v g₁ st₁ newPhis newUndefs prepared
    obtain ⟨book', grows⟩ := prepared.settle book inside isMulti live unknown
    refine ⟨book', grows, ?_, prepared.paid book inside unknown⟩
    rw [RepairState.blockDefs_setDef (by rwa [prepared.length]), Function.update_self,
      Function.update_self]
  have notEntry : b ≠ 0 := by
    rintro rfl
    exact dead live
  by_cases same : scan.allSame = true
  · cases found : scan.predSsa with
    | some v =>
      refine ⟨v, _, _, ?_, done (prepared_preds book scanned settled same found)⟩
      simp only [resolve, same, if_true, found]
      rfl
    | none =>
      have absent : f.blocks.predecessors b = [] := by
        rw [eq_nil_iff_forall_not_mem]
        intro p member
        have isBefore := (scanned.same same p member).1
        have pushed : p ∈ scan.pushed := by
          rw [scanned.pushed, mem_filter]
          exact ⟨member, by simp [isBefore, scanned.none found p member isBefore]⟩
        rw [settled] at pushed
        simp at pushed
      refine ⟨_, _, _, ?_, done (prepared_undef book notEntry absent)⟩
      simp only [resolve, same, if_true, found, notEntry, absent, ne_eq, not_false_eq_true,
        and_self]
      rfl
  · have present := scanned.differs (by simpa using same)
    let opened : RepairState := { st with
      ssaAlloc := ⟨st.ssaAlloc.count + 1⟩, phiAlloc := ⟨st.phiAlloc.count + 1⟩ }
    have known : ∀ p ∈ f.blocks.predecessors b, p < b → opened.blockDefs p x ≠ none := by
      intro p member isBefore absent
      have absent' : st.blockDefs p x = none := absent
      have pushed : p ∈ scan.pushed := by
        rw [scanned.pushed, mem_filter]
        exact ⟨member, by simp [isBefore, absent']⟩
      rw [settled] at pushed
      simp at pushed
    have insideOpened : b ≤ opened.blocks.length := Nat.le_of_lt inside
    obtain ⟨state, returned, sourced⟩ := addSrcs_ok (f := f) insideOpened
      { phi := ⟨st.phiAlloc.count⟩, orig := x, dst := ⟨x.file, st.ssaAlloc.count + 1⟩ } rfl
      (f.blocks.predecessors b) known
    refine ⟨_, _, _, ?_, done (prepared_phi edges book inside present sourced)⟩
    simp only [resolve, same]
    simp only [RepairState.allocPhi, RepairState.allocSsa, PhiAllocator.alloc,
      SSAValueAllocator.alloc]
    rw [returned]
    rfl

end Resolve

section Search

variable {x : SSAValue}

theorem orderedInsert_append {b p : Nat} (le : p ≤ b) (front rest : List Nat) :
    (front ++ b :: rest).orderedInsert (· ≤ ·) p =
      front.orderedInsert (· ≤ ·) p ++ b :: rest := by
  induction front with
  | nil => simp [le]
  | cons q front ih =>
    rw [cons_append, List.orderedInsert, List.orderedInsert, ih]
    split <;> rfl

/-- The worklist after a block has pushed the blocks `pushed`. -/
def pushAll (pushed worklist : List Nat) : List Nat :=
  pushed.foldl (fun worklist p => worklist.orderedInsert (· ≤ ·) p) worklist

/-- The blocks pushed come before the block that pushes them. -/
theorem pushAll_append {b : Nat} (rest : List Nat) (pushed : List Nat) (le : ∀ p ∈ pushed, p ≤ b) :
    ∀ front, pushAll pushed (front ++ b :: rest) = pushAll pushed front ++ b :: rest := by
  induction pushed with
  | nil => exact fun _ => rfl
  | cons p pushed ih =>
    intro front
    have here : p ≤ b := le p mem_cons_self
    show pushAll pushed ((front ++ b :: rest).orderedInsert (· ≤ ·) p) = _
    rw [orderedInsert_append here]
    exact ih (fun q member => le q (mem_cons_of_mem p member)) _

theorem pushAll_perm (pushed : List Nat) :
    ∀ front, (pushAll pushed front).Perm (front ++ pushed) := by
  induction pushed with
  | nil =>
    intro front
    rw [append_nil]
    exact List.Perm.refl front
  | cons p pushed ih =>
    intro front
    refine (ih (front.orderedInsert (· ≤ ·) p)).trans ?_
    refine ((perm_orderedInsert _ p front).append_right pushed).trans ?_
    exact perm_middle.symm

/-- One turn at a block without a version. -/
theorem unknown_turn {b : Nat} {block : DefTrackerBlock} {scan : PredScan}
    (here : st.blocks[b]? = some block) (absent : block.defs x = none) (fuel : Nat)
    (worklist : List Nat)
    (returned : block.pred.foldlM (scanPred st.blocks b x) {} = .ok scan) :
    getSsaOrPhi x (fuel + 1) (b :: worklist) st =
      if scan.pushed ≠ [] then getSsaOrPhi x fuel (pushAll scan.pushed (b :: worklist)) st
      else resolve st b block.pred x scan >>= fun found =>
        if worklist = [] then .ok found else getSsaOrPhi x fuel worklist found.2 := by
  rw [getSsaOrPhi, here, expect_some, ok_bind]
  dsimp only
  rw [absent]
  dsimp only
  rw [returned, ok_bind]
  rfl

/-- What a search from block `b` achieves: a version for it, in a number of turns that the blocks
settled on the way pay for. -/
def Searched (f : Function) (multi : SSAValue → Bool) (outDefs : Nat → List SSAValue)
    (exempt : Nat → Nat → Prop) (x : SSAValue) (b : Nat) (g : Ghost) (st : RepairState) : Prop :=
  ∃ v g' st' turns, Book f multi outDefs exempt g' st' ∧ Ext x b g st g' st' ∧
    st'.blockDefs b x = some v ∧ turns + st'.cost x ≤ 1 + st.cost x ∧
    ∀ fuel worklist, getSsaOrPhi x (fuel + turns) (b :: worklist) st =
      if worklist = [] then .ok (v, st') else getSsaOrPhi x fuel worklist st'

/-- The searches from a list of earlier blocks, one after the other. -/
theorem search_all {b : Nat}
    (ih : ∀ p < b, ∀ g st, Book f multi outDefs exempt g st → p < st.blocks.length →
      (st.blockDefs p x = none → f.LiveIn x p) → Searched f multi outDefs exempt x p g st) :
    ∀ (front : List Nat) g st, Book f multi outDefs exempt g st → b ≤ st.blocks.length →
      (∀ p ∈ front, p < b ∧ (st.blockDefs p x = none → f.LiveIn x p)) →
      ∃ g' st' turns, Book f multi outDefs exempt g' st' ∧ Ext x b g st g' st' ∧
        st'.blockDefs b = st.blockDefs b ∧ (∀ p ∈ front, st'.blockDefs p x ≠ none) ∧
        turns + st'.cost x ≤ front.length + st.cost x ∧
        ∀ fuel rest, rest ≠ [] →
          getSsaOrPhi x (fuel + turns) (front ++ rest) st = getSsaOrPhi x fuel rest st' := by
  intro front
  induction front with
  | nil =>
    intro g st book _ _
    exact ⟨g, st, 0, book, Ext.refl x b g st, rfl, by simp, by simp, fun _ _ _ => rfl⟩
  | cons p front inner =>
    intro g st book inside ready
    obtain ⟨isBefore, live⟩ := ready p mem_cons_self
    obtain ⟨v, g₁, st₁, turns₁, book₁, grows₁, present, paid₁, turn₁⟩ :=
      ih p isBefore g st book (by omega) live
    obtain ⟨g₂, st₂, turns₂, book₂, grows₂, same, known, paid₂, turn₂⟩ :=
      inner g₁ st₁ book₁ (by rwa [grows₁.length]) (by
        intro q member
        obtain ⟨isBefore', live'⟩ := ready q (mem_cons_of_mem p member)
        refine ⟨isBefore', fun absent => live' ?_⟩
        by_contra some
        obtain ⟨u, present'⟩ := Option.ne_none_iff_exists'.mp some
        rw [grows₁.defs_some present'] at absent
        cases absent)
    refine ⟨g₂, st₂, turns₂ + turns₁, book₂, (grows₁.mono (Nat.le_of_lt isBefore)).trans grows₂,
      same.trans (grows₁.above isBefore), ?_, ?_, ?_⟩
    · intro q member
      rcases mem_cons.mp member with rfl | member
      · rw [grows₂.defs_some present]
        simp
      · exact known q member
    · rw [length_cons]
      omega
    · intro fuel rest nonempty
      rw [cons_append, ← Nat.add_assoc, turn₁, if_neg (by simp [nonempty]),
        turn₂ fuel rest nonempty]

/-- The search from a block, by induction on it: the predecessors pushed are earlier blocks. -/
theorem search (edges : f.blocks.EdgesIn) (isMulti : multi x) (dead : ¬ f.LiveIn x 0) (b : Nat) :
    ∀ g st, Book f multi outDefs exempt g st → b < st.blocks.length →
      (st.blockDefs b x = none → f.LiveIn x b) → Searched f multi outDefs exempt x b g st := by
  induction b using Nat.strong_induction_on with
  | _ b ih =>
    intro g st book inside live
    obtain ⟨block, here⟩ : ∃ block, st.blocks[b]? = some block :=
      ⟨_, List.getElem?_eq_getElem inside⟩
    have defs := RepairState.blockDefs_of_getElem here
    cases version : st.blockDefs b x with
    | some v =>
      refine ⟨v, g, st, 1, book, Ext.refl x b g st, version, le_rfl, ?_⟩
      intro fuel worklist
      rw [defs] at version
      rw [getSsaOrPhi, here, expect_some, ok_bind, version]
      rfl
    | none =>
      have isPred := (book.shape b block here).1
      obtain ⟨scan, returned, scanned⟩ := scan_ok x (Nat.le_of_lt inside) block.pred
      have absent : block.defs x = none := by rw [← defs, version]
      have turn := fun fuel worklist => unknown_turn here absent fuel worklist returned
      rw [isPred] at scanned turn
      have liveHere := live version
      have ready : ∀ p ∈ scan.pushed, p < b ∧ (st.blockDefs p x = none → f.LiveIn x p) := by
        intro p member
        rw [scanned.pushed, mem_filter, Bool.and_eq_true, decide_eq_true_eq] at member
        obtain ⟨inPreds, isBefore, -⟩ := member
        refine ⟨isBefore, fun absent => .through ?_ (CFG.mem_predecessors.mp inPreds) liveHere⟩
        intro defined
        exact book.filled p (by omega) x defined isMulti absent
      by_cases settled : scan.pushed = []
      · obtain ⟨v, g', st', resolved, book', grows, present, paid⟩ :=
          resolve_ok edges book inside isMulti liveHere dead version scanned settled
        refine ⟨v, g', st', 1, book', grows, present, by omega, ?_⟩
        intro fuel worklist
        rw [turn, if_neg (by simp [settled]), resolved, ok_bind]
      · obtain ⟨g₁, st₁, turns, book₁, grows₁, same, known, paid₁, turn₁⟩ :=
          search_all ih (pushAll scan.pushed []) g st book (Nat.le_of_lt inside) fun p member =>
            ready p ((pushAll_perm scan.pushed []).mem_iff.mp member)
        have length : (pushAll scan.pushed []).length ≤ (f.blocks.predecessors b).length := by
          rw [(pushAll_perm scan.pushed []).length_eq, nil_append, scanned.pushed]
          exact length_filter_le _ _
        have inside₁ : b < st₁.blocks.length := by rwa [grows₁.length]
        have version₁ : st₁.blockDefs b x = none := by rw [same, version]
        have front : ∀ fuel worklist, getSsaOrPhi x (fuel + (turns + 1)) (b :: worklist) st =
            getSsaOrPhi x fuel (b :: worklist) st₁ := by
          intro fuel worklist
          have order := pushAll_append worklist scan.pushed
            (fun p member => Nat.le_of_lt (ready p member).1) []
          rw [nil_append] at order
          rw [← Nat.add_assoc, turn, if_pos settled, order, turn₁ fuel _ (by simp)]
        obtain ⟨scan₁, returned₁, scanned₁⟩ :=
          scan_ok x (Nat.le_of_lt inside₁) (f.blocks.predecessors b)
        have settled₁ : scan₁.pushed = [] := by
          rw [scanned₁.pushed, filter_eq_nil_iff]
          intro p member unknown
          rw [Bool.and_eq_true, decide_eq_true_eq, Option.isNone_iff_eq_none] at unknown
          refine known p ((pushAll_perm scan.pushed []).mem_iff.mpr ?_) unknown.2
          rw [nil_append, scanned.pushed, mem_filter]
          refine ⟨member, ?_⟩
          cases absent : st.blockDefs p x with
          | none => simp [unknown.1]
          | some u =>
            have := grows₁.defs_some absent
            rw [unknown.2] at this
            cases this
        obtain ⟨v, g', st', resolved, book', grows, present, paid⟩ :=
          resolve_ok edges book₁ inside₁ isMulti liveHere dead version₁ scanned₁ settled₁
        refine ⟨v, g', st', 1 + (turns + 1), book', grows₁.trans grows, present, by omega, ?_⟩
        intro fuel worklist
        obtain ⟨block₁, here₁⟩ : ∃ block, st₁.blocks[b]? = some block :=
          ⟨_, List.getElem?_eq_getElem inside₁⟩
        have isPred₁ := (book₁.shape b block₁ here₁).1
        have absent₁ : block₁.defs x = none := by
          rw [← RepairState.blockDefs_of_getElem here₁, version₁]
        rw [← Nat.add_assoc, front, unknown_turn here₁ absent₁ fuel worklist
          (by rw [isPred₁]; exact returned₁), if_neg (by simp [settled₁]), isPred₁, resolved, ok_bind]

/-- A version of a live name is always found. -/
theorem getSsaOrPhi_ok {b : Nat} (edges : f.blocks.EdgesIn) (isMulti : multi x)
    (dead : ¬ f.LiveIn x 0) (book : Book f multi outDefs exempt g st)
    (inside : b < st.blocks.length) (live : st.blockDefs b x = none → f.LiveIn x b) :
    ∃ v g' st', getSsaOrPhi x st.fuel [b] st = .ok (v, st') ∧ Book f multi outDefs exempt g' st' ∧
      Ext x b g st g' st' ∧ st'.blockDefs b x = some v := by
  obtain ⟨v, g', st', turns, book', grows, present, paid, turn⟩ :=
    search edges isMulti dead b g st book inside live
  refine ⟨v, g', st', ?_, book', grows, present⟩
  have enough := RepairState.cost_le_fuel st x
  have split : st.fuel = (st.fuel - turns) + turns := by omega
  rw [split, turn, if_pos rfl]

end Search

end CoralReef.RepairSsa
