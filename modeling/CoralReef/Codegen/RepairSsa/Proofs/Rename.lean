import CoralReef.Codegen.RepairSsa.Proofs.Resolve

/-!
# Renaming

What the loop over the blocks makes of their instructions. `Renamed` relates a list of
instructions to its rewriting by the versions at its start and at its end; it survives every
search for a version, since a name without a version at the end of a block does not occur in it.
-/

open List
open Function (update update_eq_self update_of_ne update_self)

namespace CoralReef.RepairSsa

variable {f : Function} {multi : SSAValue → Bool} {outDefs : Nat → List SSAValue}
  {exempt : Nat → Nat → Prop} {g g' : Ghost} {st st' : RepairState}

/-- The name `x` is read as `v`. -/
def UseOf (multi : SSAValue → Bool) (cur : SSAValue → Option SSAValue) (x v : SSAValue) : Prop :=
  if multi x then cur x = some v else v = x

/-- The name `x` is defined as `v`: a new value, with a number above `limit`, or itself. -/
def DefOf (limit : Nat) (multi : SSAValue → Bool) (x v : SSAValue) : Prop :=
  if multi x then limit < v.idx else v = x

/-- The versions once `names` have been defined as `versions`. -/
def enter (multi : SSAValue → Bool) : List SSAValue → List SSAValue →
    (SSAValue → Option SSAValue) → SSAValue → Option SSAValue
  | x :: names, v :: versions, cur =>
    enter multi names versions (if multi x then Function.update cur x (some v) else cur)
  | _, _, cur => cur

/-- At each name, `enter` either changes nothing or writes a version that does not depend on the
versions before. -/
theorem enter_cases {limit : Nat} {names versions : List SSAValue}
    (same : List.Forall₂ (DefOf limit multi) names versions) (y : SSAValue) :
    (multi y = true → y ∉ names) ∧ (∀ cur, enter multi names versions cur y = cur y) ∨
      multi y = true ∧ y ∈ names ∧
        ∃ v ∈ versions, ∀ cur, enter multi names versions cur y = some v := by
  induction same with
  | nil => exact Or.inl ⟨by simp, fun _ => rfl⟩
  | @cons x v names versions _ _ ih =>
    rcases ih with ⟨absent, same⟩ | ⟨isMulti, member, u, inVersions, same⟩
    · by_cases isX : y = x
      · subst isX
        cases isMulti : multi y with
        | true =>
          refine Or.inr ⟨rfl, mem_cons_self, v, mem_cons_self, ?_⟩
          intro cur
          rw [enter, same, isMulti, if_pos rfl, update_self]
        | false =>
          refine Or.inl ⟨by simp, ?_⟩
          intro cur
          rw [enter, same, isMulti]
          simp
      · refine Or.inl ⟨?_, ?_⟩
        · intro isMulti member
          rcases mem_cons.mp member with h | h
          · exact isX h
          · exact absent isMulti h
        · intro cur
          rw [enter, same]
          split
          · rw [update_of_ne isX]
          · rfl
    · refine Or.inr ⟨isMulti, mem_cons_of_mem x member, u, mem_cons_of_mem v inVersions,
        ?_⟩
      intro cur
      rw [enter, same]

/-- The instructions `out` are `src` with the versions `cur` at the start; those at the end are
the last argument. -/
inductive Renamed (limit : Nat) (multi : SSAValue → Bool) (cur : SSAValue → Option SSAValue) :
    List Instr → List Instr → (SSAValue → Option SSAValue) → Prop where
  | nil : Renamed limit multi cur [] [] cur
  | snoc {src out : List Instr} {mid : SSAValue → Option SSAValue} {instr instr' : Instr}
      (earlier : Renamed limit multi cur src out mid) (skeleton : instr'.skeleton = instr.skeleton)
      (uses : List.Forall₂ (UseOf multi mid) instr.ssaUses instr'.ssaUses)
      (defs : List.Forall₂ (DefOf limit multi) instr.ssaDefs instr'.ssaDefs) :
      Renamed limit multi cur (src ++ [instr]) (out ++ [instr'])
        (enter multi instr.ssaDefs instr'.ssaDefs mid)

/-- A name that is defined has a version at the end. -/
theorem Renamed.defined {limit : Nat} {cur cur' : SSAValue → Option SSAValue} {src out : List Instr}
    (renamed : Renamed limit multi cur src out cur') {x : SSAValue} (isMulti : multi x = true)
    (defined : x ∈ src.flatMap Instr.ssaDefs) : cur' x ≠ none := by
  induction renamed with
  | nil => simp at defined
  | @snoc src out mid instr instr' _ _ _ defs ih =>
    rcases enter_cases defs x with ⟨absent, same⟩ | ⟨-, -, v, -, same⟩
    · rw [same]
      rw [flatMap_append, mem_append] at defined
      rcases defined with earlier | here
      · exact ih earlier
      · exact absurd (by simpa using here) (absent isMulti)
    · rw [same]
      simp

/-- A version for a name that has none does not change the rewriting. -/
theorem Renamed.grow {limit : Nat} {cur cur' new new' : SSAValue → Option SSAValue}
    {src out : List Instr} (renamed : Renamed limit multi cur src out cur')
    (grown : ∀ y, new' y = cur' y ∧ new y = cur y ∨
      cur' y = none ∧ cur y = none ∧ ∃ v, new' y = some v ∧ new y = some v) :
    Renamed limit multi new src out new' := by
  induction renamed generalizing new' with
  | nil =>
    have same : new' = new := by
      funext y
      rcases grown y with ⟨h, h'⟩ | ⟨-, -, v, h, h'⟩
      · rw [h, h']
      · rw [h, h']
    rw [same]
    exact .nil
  | @snoc src out mid instr instr' _ skeleton uses defs ih =>
    let newMid := fun y =>
      if enter multi instr.ssaDefs instr'.ssaDefs mid y = none then new' y else mid y
    have unknown : ∀ y, enter multi instr.ssaDefs instr'.ssaDefs mid y = none → mid y = none := by
      intro y absent
      rcases enter_cases defs y with ⟨-, same⟩ | ⟨-, -, v, -, same⟩
      · rw [← same mid, absent]
      · rw [same] at absent
        cases absent
    have last : new' = enter multi instr.ssaDefs instr'.ssaDefs newMid := by
      funext y
      cases present : enter multi instr.ssaDefs instr'.ssaDefs mid y with
      | none =>
        rcases enter_cases defs y with ⟨-, same⟩ | ⟨-, -, v, -, same⟩
        · rw [same newMid]
          simp only [newMid, present, if_true]
        · rw [same] at present
          cases present
      | some v =>
        have old : new' y = some v := by
          rcases grown y with ⟨h, -⟩ | ⟨h, -⟩
          · rw [h, present]
          · rw [present] at h
            cases h
        rcases enter_cases defs y with ⟨-, same⟩ | ⟨-, -, u, -, same⟩
        · rw [same newMid, old, ← present, same mid]
          simp only [newMid, present, reduceCtorEq, if_false]
        · rw [old, ← present, same, same]
    rw [last]
    refine .snoc (ih ?_) skeleton (uses.imp ?_) defs
    · intro y
      rcases grown y with ⟨same, same'⟩ | ⟨absent, absent', v, present, present'⟩
      · refine Or.inl ⟨?_, same'⟩
        by_cases absent : enter multi instr.ssaDefs instr'.ssaDefs mid y = none
        · simp only [newMid, absent, if_true]
          rw [same, absent, unknown y absent]
        · simp only [newMid, absent, if_false]
      · refine Or.inr ⟨unknown y absent, absent', v, ?_, present'⟩
        simp only [newMid, absent, if_true, present]
    · intro x v use
      unfold UseOf at use ⊢
      split
      · rename_i isMulti
        rw [if_pos isMulti] at use
        have known : enter multi instr.ssaDefs instr'.ssaDefs mid x ≠ none := by
          intro absent
          rw [unknown x absent] at use
          cases use
        simp only [newMid, known, if_false, use]
      · rename_i single
        rwa [if_neg single] at use

/-- The values that instructions define, in order. -/
def defsOf (instrs : List Instr) : List SSAValue := instrs.flatMap Instr.ssaDefs

/-- What holds once `outs c` has been made of the instructions `src c` of each block `c`. -/
structure Progress (f : Function) (multi : SSAValue → Bool) (src outs : Nat → List Instr)
    (exempt : Nat → Nat → Prop) (g : Ghost) (st : RepairState) : Prop where
  book : Book f multi (fun c => defsOf (outs c)) exempt g st
  renamed : ∀ c, Renamed f.ssaAlloc.count multi (g.entry c) (src c) (outs c) (st.blockDefs c)
  old : ∀ c, (defsOf (outs c)).filter (fun v => decide (v.idx ≤ f.ssaAlloc.count)) =
    (defsOf (src c)).filter fun v => !multi v
  new : ∀ c, ((defsOf (outs c)).filter fun v => decide (f.ssaAlloc.count < v.idx)).Nodup

/-- The phi sources found so far come from earlier blocks. -/
def Early (st : RepairState) : Prop :=
  ∀ c, ∀ tracker ∈ st.phisOf c, ∀ p, tracker.srcs.lookup p ≠ none → p < c

theorem Progress.grow {src outs : Nat → List Instr} {x : SSAValue} {b : Nat}
    (progress : Progress f multi src outs exempt g st)
    (book : Book f multi (fun c => defsOf (outs c)) exempt g' st') (grows : Ext x b g st g' st') :
    Progress f multi src outs exempt g' st' where
  book := book
  renamed := by
    intro c
    apply (progress.renamed c).grow
    intro y
    rcases grows.change c y with same | ⟨rfl, -, absent, absent', rest⟩
    · exact Or.inl same
    · exact Or.inr ⟨absent, absent', rest⟩
  old := progress.old
  new := progress.new

theorem Early.grow {x : SSAValue} {b : Nat} (early : Early st) (grows : Ext x b g st g' st') :
    Early st' := by
  intro c tracker member
  obtain ⟨new, isNew, -, early'⟩ := grows.phis c
  rw [isNew, mem_append] at member
  rcases member with member | member
  · exact early c tracker member
  · exact early' tracker member

section Define

variable {b : Nat} {x : SSAValue}

/-- A definition of a single name is one more value that its block defines. -/
theorem Book.single (book : Book f multi outDefs exempt g st)
    (old : x.idx ≤ f.ssaAlloc.count) :
    Book f multi (update outDefs b (outDefs b ++ [x])) exempt g st := by
  refine { book with defs := ?_, out := ?_ }
  · intro c y v present
    obtain ⟨isMulti, orig, known, place⟩ := book.defs c y v present
    refine ⟨isMulti, orig, known, place.imp_right fun member => ?_⟩
    by_cases same : c = b
    · subst same
      rw [update_self]
      exact mem_append_left _ member
    · rwa [update_of_ne same]
  · intro c v member above
    by_cases same : c = b
    · subst same
      rw [update_self, mem_append, mem_singleton] at member
      rcases member with member | rfl
      · exact book.out c v member above
      · omega
    · rw [update_of_ne same] at member
      exact book.out c v member above

/-- A definition of a name with several gets a new version, here in the last block. -/
theorem Book.define (book : Book f multi outDefs exempt g st) (early : Early st)
    (last : st.blocks.length = b + 1) (isMulti : multi x = true) :
    Book f multi
      (update outDefs b (outDefs b ++ [⟨x.file, st.ssaAlloc.count + 1⟩])) exempt
      (g.define ⟨x.file, st.ssaAlloc.count + 1⟩ ⟨x, b, .instr⟩)
      ((st.allocSsa x.file).2.setDef b x ⟨x.file, st.ssaAlloc.count + 1⟩) := by
  have inside : b < (st.allocSsa x.file).2.blocks.length := by
    show b < st.blocks.length
    omega
  have defs : ((st.allocSsa x.file).2.setDef b x ⟨x.file, st.ssaAlloc.count + 1⟩).blockDefs =
      update st.blockDefs b
        (update (st.blockDefs b) x (some ⟨x.file, st.ssaAlloc.count + 1⟩)) :=
    RepairState.blockDefs_setDef inside x _
  have phis : ((st.allocSsa x.file).2.setDef b x ⟨x.file, st.ssaAlloc.count + 1⟩).phisOf =
      st.phisOf := RepairState.phisOf_setDef ..
  have info : ∀ u : SSAValue, u.idx ≤ st.ssaAlloc.count →
      (g.define ⟨x.file, st.ssaAlloc.count + 1⟩ ⟨x, b, .instr⟩).info u = g.info u :=
    fun u le => g.define_info _ (Nat.lt_succ_of_le le)
  have other : ∀ c, c ≠ b →
      ((st.allocSsa x.file).2.setDef b x ⟨x.file, st.ssaAlloc.count + 1⟩).blockDefs c =
        st.blockDefs c := by
    intro c differs
    rw [defs, update_of_ne differs]
  have earlier : ∀ c p, c < st.blocks.length → p < c →
      ((st.allocSsa x.file).2.setDef b x ⟨x.file, st.ssaAlloc.count + 1⟩).blockDefs p =
        st.blockDefs p := by
    intro c p isBlock isBefore
    exact other p (by omega)
  have stays : ∀ c y, st.blockDefs c y ≠ none →
      ((st.allocSsa x.file).2.setDef b x ⟨x.file, st.ssaAlloc.count + 1⟩).blockDefs c y ≠ none := by
    intro c y some
    rw [defs]
    by_cases same : c = b
    · subst same
      rw [update_self]
      by_cases isX : y = x
      · simp [isX]
      · rwa [update_of_ne isX]
    · rwa [update_of_ne same]
  refine ⟨?_, ?_, ?_, ?_, ?_, ?_, ?_, ?_, ?_, ?_, ?_, ?_, ?_, ?_, ?_, ?_⟩
  · intro c block here
    have same := RepairState.sameNeighbours_setDef (st.allocSsa x.file).2 b x
      ⟨x.file, st.ssaAlloc.count + 1⟩ c
    rw [here, Option.map_some] at same
    obtain ⟨old, oldHere, equal⟩ := Option.map_eq_some_iff.mp same.symm
    rw [Prod.mk.injEq] at equal
    rw [← equal.1, ← equal.2]
    exact book.shape c old oldHere
  · exact book.ssaCount.trans (Nat.le_succ _)
  · exact book.phiCount
  · intro c y v present
    obtain ⟨isMulti', live, orig, known, some, justified⟩ := book.entry c y v present
    refine ⟨isMulti', live, by rw [info v known.2, orig], known.mono (Nat.le_succ _),
      stays c y some, ?_⟩
    obtain ⟨u, present'⟩ := Option.ne_none_iff_exists'.mp some
    have isBlock := RepairState.blockDefs_inside present'
    cases justified with
    | phi tracker member orig dst => exact .phi tracker (by rwa [phis]) orig dst
    | preds present agree =>
      refine .preds present fun p member => ⟨(agree p member).1, ?_⟩
      rw [earlier c p isBlock (agree p member).1]
      exact (agree p member).2
    | undef absent member => exact .undef absent member
  · intro c y v present
    by_cases new : c = b ∧ y = x
    · obtain ⟨rfl, rfl⟩ := new
      rw [defs, update_self, update_self, Option.some.injEq] at present
      subst present
      refine ⟨isMulti, by simp [Ghost.define],
        ⟨Nat.lt_succ_of_le book.ssaCount, le_rfl⟩, Or.inr ?_⟩
      rw [update_self]
      simp
    · have same : ((st.allocSsa x.file).2.setDef b x
          ⟨x.file, st.ssaAlloc.count + 1⟩).blockDefs c y = st.blockDefs c y := by
        rw [defs]
        by_cases isB : c = b
        · subst isB
          rw [update_self, update_of_ne fun isX => new ⟨rfl, isX⟩]
        · rw [update_of_ne isB]
      rw [same] at present
      obtain ⟨isMulti', orig, known, place⟩ := book.defs c y v present
      refine ⟨isMulti', by rw [info v known.2, orig], known.mono (Nat.le_succ _),
        place.imp_right fun member => ?_⟩
      by_cases isB : c = b
      · subst isB
        rw [update_self]
        exact mem_append_left _ member
      · rwa [update_of_ne isB]
  · intro c v member above
    have split : v ∈ outDefs c ∨ c = b ∧ v = ⟨x.file, st.ssaAlloc.count + 1⟩ := by
      by_cases isB : c = b
      · subst isB
        rw [update_self, mem_append, mem_singleton] at member
        exact member.imp_right fun h => ⟨rfl, h⟩
      · rw [update_of_ne isB] at member
        exact Or.inl member
    rcases split with earlier | ⟨rfl, rfl⟩
    · obtain ⟨le, block, kind⟩ := book.out c v earlier above
      rw [info v le]
      exact ⟨le.trans (Nat.le_succ _), block, kind⟩
    · exact ⟨le_rfl, by simp [Ghost.define], by simp [Ghost.define]⟩
  · intro c tracker member
    rw [phis] at member
    obtain ⟨entry, block, kind, low, high⟩ := book.phi c tracker member
    have known := (book.entry c tracker.orig tracker.dst entry).2.2.2.1
    rw [info _ known.2]
    exact ⟨entry, block, kind, low, high⟩
  · rw [phis]
    exact book.phiPreds
  · rw [phis]
    exact book.phiUnique
  · rw [phis]
    exact book.phiNodup
  · intro c tracker member p v found
    rw [phis] at member
    obtain ⟨isPred, present⟩ := book.srcs c tracker member p v found
    have isBefore := early c tracker member p (by simp [found])
    have isBlock := RepairState.phisOf_inside member
    exact ⟨isPred, by rw [earlier c p isBlock isBefore, present]⟩
  · rw [phis]
    exact book.needs
  · exact book.needsInside
  · intro c v member
    obtain ⟨notEntry, noPreds, entry, block, kind⟩ := book.undefs c v member
    have known := (book.entry c _ v entry).2.2.2.1
    rw [info v known.2]
    exact ⟨notEntry, noPreds, entry, block, kind⟩
  · exact book.undefNodup
  · intro c isBlock y member isMulti'
    rw [RepairState.setDef_length] at isBlock
    exact stays c y (book.filled c isBlock y member isMulti')

/-- What the rewriting of the definitions `names` in block `b` has made of the state. -/
structure Defined (f : Function) (multi : SSAValue → Bool) (b : Nat) (g : Ghost)
    (st : RepairState) (names versions : List SSAValue) (g' : Ghost) (st' : RepairState) :
    Prop where
  same : List.Forall₂ (DefOf f.ssaAlloc.count multi) names versions
  here : st'.blockDefs b = enter multi names versions (st.blockDefs b)
  other : ∀ c, c ≠ b → st'.blockDefs c = st.blockDefs c
  old : versions.filter (fun v => decide (v.idx ≤ f.ssaAlloc.count)) =
    names.filter fun x => !multi x
  new : (versions.filter fun v => decide (f.ssaAlloc.count < v.idx)).Nodup
  fresh : ∀ v ∈ versions, f.ssaAlloc.count < v.idx → st.ssaAlloc.count < v.idx
  phis : st'.phisOf = st.phisOf
  entry : g'.entry = g.entry
  length : st'.blocks.length = st.blocks.length

theorem renameDefs_ok (b : Nat) : ∀ (names : List SSAValue) (outDefs : Nat → List SSAValue)
    (g : Ghost) (st : RepairState), Book f multi outDefs exempt g st → Early st →
      st.blocks.length = b + 1 → (∀ x ∈ names, x.idx ≤ f.ssaAlloc.count) →
      ∃ g', Book f multi
          (update outDefs b (outDefs b ++ (renameDefs multi b names st).1)) exempt g'
          (renameDefs multi b names st).2 ∧
        Defined f multi b g st names (renameDefs multi b names st).1 g'
          (renameDefs multi b names st).2 := by
  intro names
  induction names with
  | nil =>
    intro outDefs g st book _ _ _
    refine ⟨g, ?_, .nil, rfl, fun _ _ => rfl, rfl, nodup_nil, by simp [renameDefs], rfl, rfl,
      rfl⟩
    simpa [renameDefs] using book
  | cons x names ih =>
    intro outDefs g st book early last small
    have isOld := small x mem_cons_self
    have rest : ∀ y ∈ names, y.idx ≤ f.ssaAlloc.count := fun y member =>
      small y (mem_cons_of_mem x member)
    cases isMulti : multi x with
    | true =>
      have opened := book.define early last isMulti
      obtain ⟨g', book', defined⟩ := ih _ _ _ opened
        (by
          intro c tracker member
          rw [RepairState.phisOf_setDef] at member
          exact early c tracker member)
        (by rw [RepairState.setDef_length]; exact last) rest
      have inside : b < (st.allocSsa x.file).2.blocks.length := by
        show b < st.blocks.length
        omega
      have defs := RepairState.blockDefs_setDef inside x ⟨x.file, st.ssaAlloc.count + 1⟩
      have above : f.ssaAlloc.count < st.ssaAlloc.count + 1 := Nat.lt_succ_of_le book.ssaCount
      have first : (renameDefs multi b (x :: names) st).1 = ⟨x.file, st.ssaAlloc.count + 1⟩ ::
          (renameDefs multi b names ((st.allocSsa x.file).2.setDef b x
            ⟨x.file, st.ssaAlloc.count + 1⟩)).1 := by
        rw [renameDefs, isMulti]
        rfl
      have second : (renameDefs multi b (x :: names) st).2 =
          (renameDefs multi b names ((st.allocSsa x.file).2.setDef b x
            ⟨x.file, st.ssaAlloc.count + 1⟩)).2 := by
        rw [renameDefs, isMulti]
        rfl
      rw [first, second]
      refine ⟨g', ?_, ?_⟩
      · simpa using book'
      · refine ⟨.cons (by simp [DefOf, isMulti, above]) defined.same, ?_, ?_, ?_, ?_, ?_, ?_, defined.entry, ?_⟩
        · rw [defined.here, enter, isMulti, if_pos rfl, defs, update_self]
          rfl
        · intro c differs
          rw [defined.other c differs, defs, update_of_ne differs]
          rfl
        · rw [filter_cons_of_neg (by simpa using above), defined.old,
            filter_cons_of_neg (by simp [isMulti])]
        · rw [filter_cons_of_pos (by simpa using above), nodup_cons]
          refine ⟨?_, defined.new⟩
          intro member
          have := defined.fresh _ (mem_of_mem_filter member) above
          exact absurd this (lt_irrefl _)
        · intro v member isNew
          rcases mem_cons.mp member with rfl | member
          · exact Nat.lt_succ_self _
          · exact (Nat.lt_succ_self _).trans (defined.fresh v member isNew)
        · rw [defined.phis, RepairState.phisOf_setDef]
          rfl
        · rw [defined.length, RepairState.setDef_length]
          rfl
    | false =>
      obtain ⟨g', book', defined⟩ := ih _ _ _ (book.single (b := b) isOld) early last rest
      have first : (renameDefs multi b (x :: names) st).1 =
          x :: (renameDefs multi b names st).1 := by
        rw [renameDefs, isMulti]
        rfl
      have second : (renameDefs multi b (x :: names) st).2 =
          (renameDefs multi b names st).2 := by
        rw [renameDefs, isMulti]
        rfl
      rw [first, second]
      refine ⟨g', ?_, ?_⟩
      · simpa using book'
      · refine ⟨.cons (by simp [DefOf, isMulti]) defined.same, ?_, defined.other, ?_, ?_, ?_, defined.phis,
          defined.entry, defined.length⟩
        · rw [defined.here, enter, isMulti]
          simp
        · rw [filter_cons_of_pos (by simpa using isOld), defined.old,
            filter_cons_of_pos (by simp [isMulti])]
        · rw [filter_cons_of_neg (by simpa using isOld)]
          exact defined.new
        · intro v member isNew
          rcases mem_cons.mp member with rfl | member
          · omega
          · exact defined.fresh v member isNew

end Define

/-- The uses of an instruction are rewritten to the versions that the block ends up with. -/
theorem renameUses_ok {src outs : Nat → List Instr} (edges : f.blocks.EdgesIn)
    (dead : ∀ x, ¬ f.LiveIn x 0) (b : Nat) : ∀ (uses : List SSAValue) (g : Ghost)
      (st : RepairState), Progress f multi src outs exempt g st → Early st →
      b < st.blocks.length →
      (∀ x ∈ uses, multi x = true → st.blockDefs b x = none → f.LiveIn x b) →
      ∃ versions g' st', renameUses multi b uses st = .ok (versions, st') ∧
        Progress f multi src outs exempt g' st' ∧ Early st' ∧
        st'.blocks.length = st.blocks.length ∧
        (∀ x v, st.blockDefs b x = some v → st'.blockDefs b x = some v) ∧
        List.Forall₂ (UseOf multi (st'.blockDefs b)) uses versions := by
  intro uses
  induction uses with
  | nil =>
    intro g st progress early _ _
    exact ⟨[], g, st, rfl, progress, early, rfl, fun _ _ h => h, .nil⟩
  | cons x uses ih =>
    intro g st progress early inside live
    have rest : ∀ y ∈ uses, multi y = true → st.blockDefs b y = none → f.LiveIn y b :=
      fun y member => live y (mem_cons_of_mem x member)
    cases isMulti : multi x with
    | true =>
      obtain ⟨v, g₁, st₁, found, book₁, grows, present⟩ := getSsaOrPhi_ok edges isMulti (dead x)
        progress.book inside (live x mem_cons_self isMulti)
      obtain ⟨versions, g', st', renamed, progress', early', length, stays, uses'⟩ :=
        ih g₁ st₁ (progress.grow book₁ grows) (early.grow grows) (by rwa [grows.length]) (by
          intro y member isMulti' absent
          refine rest y member isMulti' ?_
          by_contra some
          obtain ⟨u, present'⟩ := Option.ne_none_iff_exists'.mp some
          rw [grows.defs_some present'] at absent
          cases absent)
      refine ⟨v :: versions, g', st', ?_, progress', early', length.trans grows.length, ?_,
        .cons ?_ uses'⟩
      · rw [renameUses, renameUse, isMulti, if_pos rfl, found, ok_bind]
        dsimp only
        rw [renamed]
        rfl
      · intro y u present'
        exact stays y u (grows.defs_some present')
      · rw [UseOf, if_pos isMulti]
        exact stays x v present
    | false =>
      obtain ⟨versions, g', st', renamed, progress', early', length, stays, uses'⟩ :=
        ih g st progress early inside rest
      refine ⟨x :: versions, g', st', ?_, progress', early', length, stays, .cons ?_ uses'⟩
      · rw [renameUses, renameUse, isMulti]
        simp only [Bool.false_eq_true, if_false]
        show (renameUses multi b uses st >>= fun found => pure (x :: found.1, found.2)) = _
        rw [renamed]
        rfl
      · simp [UseOf, isMulti]

/-- Update of the instructions that a block has been given so far. -/
def snocAt (outs : Nat → List Instr) (b : Nat) (instr : Instr) : Nat → List Instr :=
  Function.update outs b (outs b ++ [instr])

theorem defsOf_snocAt (outs : Nat → List Instr) (b : Nat) (instr : Instr) :
    (fun c => defsOf (snocAt outs b instr c)) =
      update (fun c => defsOf (outs c)) b (defsOf (outs b) ++ instr.ssaDefs) := by
  funext c
  by_cases same : c = b
  · subst same
    simp [snocAt, defsOf]
  · simp [snocAt, same]

theorem renameInstr_ok {src outs : Nat → List Instr} (wf : f.WellFormed)
    (dead : ∀ x, ¬ f.LiveIn x 0) {b : Nat} {instr : Instr} {post : List Instr}
    (progress : Progress f multi src outs exempt g st) (early : Early st)
    (last : st.blocks.length = b + 1) (split : f.instrs b = src b ++ instr :: post) :
    ∃ instr' g' st', renameInstr multi b instr st = .ok (instr', st') ∧
      Progress f multi (snocAt src b instr) (snocAt outs b instr') exempt g' st' ∧ Early st' ∧
      st'.blocks.length = b + 1 := by
  have member : instr ∈ f.instrs b := by
    rw [split]
    simp
  obtain ⟨uses, g₁, st₁, found, progress₁, early₁, length₁, stays, isUse⟩ :=
    renameUses_ok wf.edges dead b instr.ssaUses g st progress early (by omega) (by
      intro x used isMulti absent
      refine .use split used fun defined => ?_
      exact (progress.renamed b).defined isMulti defined absent)
  obtain ⟨g₂, book₂, defined⟩ := renameDefs_ok b instr.ssaDefs _ g₁ st₁ progress₁.book early₁
    (by omega) fun x isDef => wf.ssas b instr member x (mem_append_right _ isDef)
  have usesLength : uses.length = instr.ssaUses.length := isUse.length_eq.symm
  have defsLength : (renameDefs multi b instr.ssaDefs st₁).1.length =
      (instr.setUses uses).ssaDefs.length := by
    rw [Instr.ssaDefs_setUses, defined.same.length_eq]
  let instr' := (instr.setUses uses).setDefs (renameDefs multi b instr.ssaDefs st₁).1
  have newUses : instr'.ssaUses = uses := by
    rw [Instr.ssaUses_setDefs, Instr.uses_rewriting.read_write _ _ usesLength]
  have newDefs : instr'.ssaDefs = (renameDefs multi b instr.ssaDefs st₁).1 :=
    Instr.defs_rewriting.read_write _ _ defsLength
  have newSkeleton : instr'.skeleton = instr.skeleton := by
    rw [Instr.skeleton_setDefs _ defsLength, Instr.skeleton_setUses _ usesLength]
  refine ⟨instr', g₂, (renameDefs multi b instr.ssaDefs st₁).2, ?_, ?_, ?_, ?_⟩
  · rw [renameInstr, found]
    rfl
  · refine ⟨?_, ?_, ?_, ?_⟩
    · rw [defsOf_snocAt, newDefs]
      exact book₂
    · intro c
      by_cases same : c = b
      · subst same
        simp only [snocAt, update_self]
        rw [defined.here, defined.entry, ← newDefs]
        refine .snoc (progress₁.renamed c) newSkeleton ?_ ?_
        · rw [newUses]
          exact isUse
        · rw [newDefs]
          exact defined.same
      · simp only [snocAt, update_of_ne same]
        rw [defined.other c same, defined.entry]
        exact progress₁.renamed c
    · intro c
      by_cases same : c = b
      · subst same
        simp only [snocAt, update_self]
        have old := progress₁.old c
        simp only [defsOf] at old ⊢
        rw [flatMap_append, flatMap_append, filter_append, filter_append, old]
        simp only [flatMap_cons, flatMap_nil, append_nil]
        rw [newDefs, defined.old]
      · simp only [snocAt, update_of_ne same]
        exact progress₁.old c
    · intro c
      by_cases same : c = b
      · subst same
        simp only [snocAt, update_self]
        have new := progress₁.new c
        simp only [defsOf] at new ⊢
        rw [flatMap_append, filter_append, nodup_append]
        simp only [flatMap_cons, flatMap_nil, append_nil]
        rw [newDefs]
        refine ⟨new, defined.new, ?_⟩
        intro v earlier u here equal
        subst equal
        rw [mem_filter, decide_eq_true_eq] at earlier here
        have below := (progress₁.book.out c v earlier.1 earlier.2).1
        have above := defined.fresh v here.1 here.2
        omega
      · simp only [snocAt, update_of_ne same]
        exact progress₁.new c
  · intro c tracker isPhi
    rw [defined.phis] at isPhi
    exact early₁ c tracker isPhi
  · rw [defined.length, length₁, last]

theorem renameInstrs_ok (wf : f.WellFormed) (dead : ∀ x, ¬ f.LiveIn x 0) {b : Nat} :
    ∀ (post : List Instr) (src outs : Nat → List Instr) (g : Ghost) (st : RepairState),
      Progress f multi src outs exempt g st → Early st → st.blocks.length = b + 1 →
      f.instrs b = src b ++ post →
      ∃ instrs g' st', renameInstrs multi b post st = .ok (instrs, st') ∧
        Progress f multi (update src b (f.instrs b))
          (update outs b (outs b ++ instrs)) exempt g' st' ∧
        Early st' ∧ st'.blocks.length = b + 1 := by
  intro post
  induction post with
  | nil =>
    intro src outs g st progress early last split
    refine ⟨[], g, st, rfl, ?_, early, last⟩
    rw [split, append_nil, append_nil, update_eq_self, update_eq_self]
    exact progress
  | cons instr post ih =>
    intro src outs g st progress early last split
    obtain ⟨instr', g₁, st₁, first, progress₁, early₁, last₁⟩ :=
      renameInstr_ok wf dead progress early last split
    obtain ⟨instrs, g', st', rest, progress', early', last'⟩ :=
      ih _ _ g₁ st₁ progress₁ early₁ last₁ (by simp [snocAt, split])
    refine ⟨instr' :: instrs, g', st', ?_, ?_, early', last'⟩
    · rw [renameInstrs, first, ok_bind]
      dsimp only
      rw [rest]
      rfl
    · simpa [snocAt] using progress'

/-- A block is entered in the tracker without versions and phis. -/
theorem enterBlock (st : RepairState) (block : DefTrackerBlock)
    (fresh : block.defs = fun _ => none) (empty : block.phis = []) :
    ({ st with blocks := st.blocks ++ [block] } : RepairState).blockDefs = st.blockDefs ∧
      ({ st with blocks := st.blocks ++ [block] } : RepairState).phisOf = st.phisOf := by
  have cases : ∀ c : Nat, (st.blocks ++ [block])[c]? = st.blocks[c]? ∨
      st.blocks[c]? = none ∧ (st.blocks ++ [block])[c]? = some block ∨
      st.blocks[c]? = none ∧ (st.blocks ++ [block])[c]? = none := by
    intro c
    rcases Nat.lt_trichotomy c st.blocks.length with less | rfl | more
    · exact Or.inl (getElem?_append_left less)
    · exact Or.inr (Or.inl ⟨by simp, by simp⟩)
    · refine Or.inr (Or.inr ⟨getElem?_eq_none (by omega), getElem?_eq_none ?_⟩)
      rw [length_append, length_singleton]
      omega
  constructor
  · funext c x
    rcases cases c with same | ⟨absent, new⟩ | ⟨absent, new⟩
    · simp only [RepairState.blockDefs, same]
    · simp [RepairState.blockDefs, absent, new, fresh]
    · simp only [RepairState.blockDefs, absent, new]
  · funext c
    rcases cases c with same | ⟨absent, new⟩ | ⟨absent, new⟩
    · simp only [RepairState.phisOf, same]
    · simp [RepairState.phisOf, absent, new, empty]
    · simp only [RepairState.phisOf, absent, new]

/-- The instructions of the blocks before `b`. -/
def before (f : Function) (b : Nat) : Nat → List Instr := fun c => if c < b then f.instrs c else []

/-- The instructions that the loop over the blocks has returned. -/
def returned (renamed : List (List Instr)) : Nat → List Instr := fun c => (renamed[c]?).getD []

/-- What holds after the loop over the blocks before `b`. -/
structure Entered (f : Function) (multi : SSAValue → Bool) (b : Nat)
    (state : List (List Instr) × RepairState) : Prop where
  progress : ∃ g, Progress f multi (before f b) (returned state.1) (fun _ _ => False) g state.2
  early : Early state.2
  length : state.2.blocks.length = b
  count : state.1.length = b

theorem renameBlock_ok (wf : f.WellFormed) (dead : ∀ x, ¬ f.LiveIn x 0) {b : Nat}
    (inside : b < f.blocks.len) {state : List (List Instr) × RepairState}
    (entered : Entered f multi b state) :
    ∃ next, renameBlock f.blocks multi state b = .ok next ∧ Entered f multi (b + 1) next := by
  obtain ⟨outs, st⟩ := state
  obtain ⟨⟨g, progress⟩, early, length, count⟩ := entered
  simp only at progress early length count
  obtain ⟨bb, here⟩ : ∃ bb, f.blocks.blocks[b]? = some bb := ⟨_, getElem?_eq_getElem inside⟩
  have instrs : f.instrs b = bb.instrs := by simp [Function.instrs, here]
  let block : DefTrackerBlock :=
    { pred := f.blocks.predecessors b, succ := f.blocks.successors b }
  obtain ⟨sameDefs, samePhis⟩ := enterBlock st block rfl rfl
  let opened : RepairState := { st with blocks := st.blocks ++ [block] }
  have progress₁ : Progress f multi (before f b) (returned outs) (fun _ _ => False) g opened := by
    refine ⟨?_, ?_, progress.old, progress.new⟩
    · have book := progress.book
      refine { book with
        shape := ?_, entry := ?_, defs := ?_, phi := ?_, phiPreds := ?_, phiUnique := ?_
        phiNodup := ?_, srcs := ?_, needs := ?_, filled := ?_ }
      · intro c block' at_
        rcases Nat.lt_trichotomy c st.blocks.length with less | rfl | more
        · rw [getElem?_append_left less] at at_
          exact book.shape c block' at_
        · rw [getElem?_append_right le_rfl, Nat.sub_self] at at_
          cases at_
          rw [length]
          exact ⟨rfl, rfl⟩
        · rw [getElem?_eq_none (by
            rw [length_append, length_singleton]; omega)] at at_
          cases at_
      · intro c x v present
        obtain ⟨isMulti, live, orig, known, some, justified⟩ := book.entry c x v present
        refine ⟨isMulti, live, orig, known, by rwa [sameDefs], ?_⟩
        cases justified with
        | phi tracker member orig dst => exact .phi tracker (by rwa [samePhis]) orig dst
        | preds present agree =>
          exact .preds present fun p member => by rw [sameDefs]; exact agree p member
        | undef absent member => exact .undef absent member
      · rw [sameDefs]
        exact book.defs
      · rw [samePhis]
        exact book.phi
      · rw [samePhis]
        exact book.phiPreds
      · rw [samePhis]
        exact book.phiUnique
      · rw [samePhis]
        exact book.phiNodup
      · rw [samePhis, sameDefs]
        exact book.srcs
      · rw [samePhis]
        exact book.needs
      · intro c isBlock x defined isMulti
        rw [sameDefs]
        have isBefore : c < b := by
          have isBlock' : c + 1 < (st.blocks ++ [block]).length := isBlock
          rw [length_append, length_singleton] at isBlock'
          omega
        apply (progress.renamed c).defined isMulti
        simp only [before, isBefore, if_true]
        exact defined
    · rw [sameDefs]
      exact progress.renamed
  have empty : before f b b = [] := by simp [before]
  have noOuts : returned outs b = [] := by simp [returned, ← count]
  obtain ⟨new, g', st', renamed, progress', early', last'⟩ :=
    renameInstrs_ok wf dead (f.instrs b) (before f b) (returned outs) g opened progress₁
      (by rwa [Early, samePhis])
      (by rw [length_append, length_singleton, length]) (by rw [empty, nil_append])
  refine ⟨(outs ++ [new], st'), ?_, ⟨g', ?_⟩, early', last', by simp [count]⟩
  · rw [renameBlock]
    simp only [here, expect_some, ok_bind]
    rw [← instrs, renamed]
    rfl
  · have sameSrc : update (before f b) b (f.instrs b) = before f (b + 1) := by
      funext c
      by_cases same : c = b
      · subst same
        simp [before]
      · rw [update_of_ne same]
        by_cases less : c < b
        · simp [before, less, Nat.lt_succ_of_lt less]
        · have notLess : ¬ c < b + 1 := by omega
          simp [before, less, notLess]
    have sameOuts : update (returned outs) b (returned outs b ++ new) =
        returned (outs ++ [new]) := by
      rw [noOuts, nil_append]
      funext c
      rcases Nat.lt_trichotomy c outs.length with less | rfl | more
      · rw [update_of_ne (by omega)]
        simp only [returned, getElem?_append_left less]
      · rw [count, update_self]
        simp [returned, ← count]
      · rw [update_of_ne (by omega)]
        simp only [returned]
        rw [getElem?_eq_none (by omega), getElem?_eq_none (by
          rw [length_append, length_singleton]; omega)]
    rw [← sameSrc, ← sameOuts]
    exact progress'

variable (multi) in
/-- The loop over the blocks. -/
theorem renameBlocks_ok (wf : f.WellFormed) (dead : ∀ x, ¬ f.LiveIn x 0) :
    ∃ state, (List.range f.blocks.len).foldlM (renameBlock f.blocks multi)
        ([], { ssaAlloc := f.ssaAlloc, phiAlloc := f.phiAlloc }) = .ok state ∧
      Entered f multi f.blocks.len state := by
  apply foldlM_range_ok (renameBlock f.blocks multi) (Entered f multi)
  · refine ⟨⟨⟨fun _ _ => none, fun v => ⟨v, 0, .instr⟩⟩, ?_, ?_, ?_, ?_⟩, ?_, rfl, rfl⟩
    · constructor <;> simp [RepairState.blockDefs, RepairState.phisOf, returned, defsOf]
    · intro c
      have noSrc : before f 0 c = [] := by simp [before]
      have noOuts : returned [] c = [] := by simp [returned]
      have noDefs : ({ ssaAlloc := f.ssaAlloc, phiAlloc := f.phiAlloc } : RepairState).blockDefs c =
          fun _ => none := by
        funext x
        simp [RepairState.blockDefs]
      rw [noSrc, noOuts, noDefs]
      exact .nil
    · intro c
      simp [returned, before, defsOf]
    · intro c
      simp [returned, defsOf]
    · intro c tracker member
      simp [RepairState.phisOf] at member
  · intro b state inside entered
    exact renameBlock_ok wf dead inside entered

end CoralReef.RepairSsa
