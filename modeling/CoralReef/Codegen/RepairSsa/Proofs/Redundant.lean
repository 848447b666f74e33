import CoralReef.Codegen.RepairSsa.Proofs.Fill
import CoralReef.Codegen.UnionFind.Proofs.Classes

/-!
# Removing redundant phis

A phi whose sources are all one version, or the phi itself, stands for that version. `Stage` is
what holds between two removals; it implies that along every path the version of a name has been
defined, so a phi always has a source other than itself.
-/

open List
open Function (update update_idem update_of_ne update_self)

namespace CoralReef.RepairSsa

variable {f : Function} {multi : SSAValue → Bool} {outs : Nat → List Instr} {g : Ghost}
  {st : RepairState} {phis : Nat → List PhiTracker} {rep : SSAValue → SSAValue}

/-- The bookkeeping once the phis are filled. -/
structure Filled (f : Function) (multi : SSAValue → Bool) (outs : Nat → List Instr) (g : Ghost)
    (st : RepairState) : Prop where
  progress : Progress f multi f.instrs outs (fun _ _ => False) g st
  settled : st.needsSrc = []
  length : st.blocks.length = f.blocks.len

/-- The phis `phis` are left, and `rep` says which version stands for another. -/
structure Stage (f : Function) (outs : Nat → List Instr) (g : Ghost) (st : RepairState)
    (phis : Nat → List PhiTracker) (rep : SSAValue → SSAValue) : Prop where
  phi : ∀ b, ∀ tracker ∈ phis b, ∃ old ∈ st.phisOf b, tracker.phi = old.phi ∧
    tracker.orig = old.orig ∧ tracker.dst = old.dst ∧
    ∀ p, (tracker.srcs.lookup p).map rep = (old.srcs.lookup p).map rep
  nodup : ∀ b, ((phis b).map PhiTracker.orig).Nodup
  edge : ∀ b x v p, g.entry b x = some v → p ∈ f.blocks.predecessors b →
    ∃ u, st.blockDefs p x = some u ∧
      (rep u = rep v ∨ ∃ tracker ∈ phis b, tracker.orig = x ∧ tracker.dst = v)
  orig : ∀ v, Known f st v → Known f st (rep v) ∧ (g.info (rep v)).orig = (g.info v).orig
  idem : ∀ v, rep (rep v) = rep v
  old : ∀ v, v.idx ≤ f.ssaAlloc.count → rep v = v
  dst : ∀ b, ∀ tracker ∈ phis b, rep tracker.dst = tracker.dst
  out : ∀ b, ∀ v ∈ defsOf (outs b), rep v = v
  undef : ∀ b v, (b, v) ∈ st.synthUndefs → rep v = v

/-- The versions defined at the start of a block. -/
def headDefs (st : RepairState) (phis : Nat → List PhiTracker) (b : Nat) (v : SSAValue) : Prop :=
  (∃ tracker ∈ phis b, tracker.dst = v) ∨ (b, v) ∈ st.synthUndefs

section Stage

variable (filled : Filled f multi outs g st)
variable {tracker : PhiTracker} {b : Nat}

include filled

theorem Filled.source (member : tracker ∈ st.phisOf b) {p : Nat}
    (isPred : p ∈ f.blocks.predecessors b) :
    ∃ u, tracker.srcs.lookup p = some u ∧ st.blockDefs p tracker.orig = some u := by
  have book := filled.progress.book
  have found : tracker.srcs.lookup p ≠ none := by
    rcases book.needs b tracker member p isPred (by simp) with found | ⟨-, needed⟩
    · exact found
    · rw [filled.settled] at needed
      simp at needed
  obtain ⟨u, present⟩ := Option.ne_none_iff_exists'.mp found
  exact ⟨u, present, (book.srcs b tracker member p u present).2⟩

/-- Before any removal. -/
theorem Filled.stage : Stage f outs g st st.phisOf id where
  phi := fun b tracker member => ⟨tracker, member, rfl, rfl, rfl, fun _ => rfl⟩
  nodup := filled.progress.book.phiNodup
  edge := by
    intro b x v p present isPred
    obtain ⟨-, -, -, -, -, justified⟩ := filled.progress.book.entry b x v present
    cases justified with
    | phi tracker member orig dst =>
      obtain ⟨u, -, atEnd⟩ := filled.source member isPred
      exact ⟨u, orig ▸ atEnd, Or.inr ⟨tracker, member, orig, dst⟩⟩
    | preds _ agree => exact ⟨v, (agree p isPred).2, Or.inl rfl⟩
    | undef absent _ =>
      rw [absent] at isPred
      simp at isPred
  orig := fun _ known => ⟨known, rfl⟩
  idem := fun _ => rfl
  old := fun _ _ => rfl
  dst := fun _ _ _ => rfl
  out := fun _ _ _ => rfl
  undef := fun _ _ _ => rfl

/-- Along a path from the entry, or from a block without predecessors, whatever version a block
starts with has been defined. -/
theorem Stage.defined (stage : Stage f outs g st phis rep) (dead : ∀ x, ¬ f.LiveIn x 0) {root : Nat}
    (isRoot : root = 0 ∨ f.blocks.predecessors root = []) {before : List Nat}
    (path : f.blocks.PathTo root before b) {x v : SSAValue} (present : g.entry b x = some v) :
    headDefs st phis b (rep v) ∨
      ∃ c ∈ before, headDefs st phis c (rep v) ∨ rep v ∈ defsOf (outs c) := by
  have book := filled.progress.book
  induction path generalizing x v with
  | root =>
    left
    obtain ⟨-, live, -, -, -, justified⟩ := book.entry _ x v present
    have absent : f.blocks.predecessors root = [] := by
      rcases isRoot with rfl | absent
      · exact absurd live (dead x)
      · exact absent
    cases justified with
    | phi tracker member orig dst => exact absurd absent (book.phiPreds _ tracker member)
    | preds nonempty _ => exact absurd absent nonempty
    | undef _ member =>
      right
      rw [stage.undef _ v member]
      exact member
  | @step before p b path edge ih =>
    obtain ⟨u, atEnd, same | ⟨tracker, member, -, rfl⟩⟩ :=
      stage.edge b x v p present (CFG.mem_predecessors.mpr edge)
    · right
      rw [← same]
      obtain ⟨-, -, -, entry | member⟩ := book.defs p x u atEnd
      · rcases ih entry with here | ⟨c, member, defined⟩
        · exact ⟨p, by simp, Or.inl here⟩
        · exact ⟨c, mem_append_left _ member, defined⟩
      · refine ⟨p, by simp, Or.inr ?_⟩
        rw [stage.out p u member]
        exact member
    · left
      left
      exact ⟨tracker, member, (stage.dst b tracker member).symm⟩

/-- Where a version defined at the start of a block is from. -/
theorem Stage.head_info (stage : Stage f outs g st phis rep) {v : SSAValue}
    (head : headDefs st phis b v) :
    (g.info v).block = b ∧ (g.info v).kind ≠ .instr ∧ f.ssaAlloc.count < v.idx := by
  have book := filled.progress.book
  rcases head with ⟨tracker, member, rfl⟩ | member
  · obtain ⟨old, inOld, -, -, dst, -⟩ := stage.phi b tracker member
    obtain ⟨entry, block, kind, -⟩ := book.phi b old inOld
    have known := (book.entry b old.orig old.dst entry).2.2.2.1
    rw [dst]
    exact ⟨block, by simp [kind], known.1⟩
  · obtain ⟨-, -, entry, block, kind⟩ := book.undefs b v member
    have known := (book.entry b _ v entry).2.2.2.1
    exact ⟨block, by simp [kind], known.1⟩

/-- A phi of a block that can be reached has a source that does not stand for the phi itself. -/
theorem Stage.not_circular (stage : Stage f outs g st phis rep) (dead : ∀ x, ¬ f.LiveIn x 0)
    {root : Nat} (isRoot : root = 0 ∨ f.blocks.predecessors root = []) {before : List Nat}
    (path : f.blocks.PathTo root before b) (member : tracker ∈ phis b) :
    ∃ p u, tracker.srcs.lookup p = some u ∧ rep u ≠ tracker.dst := by
  have book := filled.progress.book
  obtain ⟨old, inOld, -, orig, dst, srcs⟩ := stage.phi b tracker member
  have entry := (book.phi b old inOld).1
  have live := (book.entry b old.orig old.dst entry).2.1
  have notRoot : b ≠ root := by
    rintro rfl
    rcases isRoot with rfl | absent
    · exact dead _ live
    · exact book.phiPreds b old inOld absent
  obtain ⟨before, path, fresh⟩ := path.first
  cases path with
  | root => exact absurd rfl notRoot
  | @step before p _ path edge =>
    obtain ⟨u, found, atEnd⟩ := filled.source inOld (CFG.mem_predecessors.mpr edge)
    obtain ⟨u', found', same⟩ : ∃ u', tracker.srcs.lookup p = some u' ∧ rep u' = rep u := by
      have := srcs p
      rw [found, Option.map_some] at this
      exact Option.map_eq_some_iff.mp this
    refine ⟨p, u', found', ?_⟩
    rw [same]
    have isHere := stage.head_info filled (Or.inl ⟨tracker, member, rfl⟩)
    -- on a first arrival no block before `b` is `b`, so none of them defines the phi
    have notDefined : ∀ c ∈ before ++ [p], ¬ (headDefs st phis c tracker.dst ∨
        tracker.dst ∈ defsOf (outs c)) := by
      rintro c inPath (head | out)
      · have := (stage.head_info filled head).1
        rw [isHere.1] at this
        exact fresh (this ▸ inPath)
      · have := (book.out c _ out isHere.2.2).2.2
        exact isHere.2.1 this
    intro equal
    obtain ⟨-, -, -, atStart | out⟩ := book.defs p _ u atEnd
    · rcases stage.defined filled dead isRoot path atStart with head | ⟨c, inBefore, defined⟩
      · rw [equal] at head
        exact notDefined p (by simp) (Or.inl head)
      · rw [equal] at defined
        exact notDefined c (by simp [inBefore]) defined
    · apply notDefined p (by simp)
      right
      rw [← equal, stage.out p u out]
      exact out

/-- A phi whose sources all stand for `w` or for the phi goes, and `w` stands for it. -/
theorem Stage.remove (stage : Stage f outs g st phis rep) {kept rest : List PhiTracker}
    (here : phis b = kept ++ tracker :: rest) {w : SSAValue} {q : Nat} {u₀ : SSAValue}
    (found : tracker.srcs.lookup q = some u₀) (isW : rep u₀ = w) (notSelf : w ≠ tracker.dst)
    (same : ∀ p u, tracker.srcs.lookup p = some u → rep u = tracker.dst ∨ rep u = w) :
    Stage f outs g st (update phis b (kept ++ rest))
      (fun z => if rep z = tracker.dst then w else rep z) := by
  have book := filled.progress.book
  have member : tracker ∈ phis b := by
    rw [here]
    simp
  obtain ⟨old, inOld, -, orig, dst, srcs⟩ := stage.phi b tracker member
  obtain ⟨entry, atB, kind, -⟩ := book.phi b old inOld
  obtain ⟨-, -, infoOrig, known, -⟩ := book.entry b old.orig old.dst entry
  rw [← orig, ← dst] at entry
  rw [← dst] at atB kind known infoOrig
  have repDst := stage.dst b tracker member
  have subset : ∀ c, ∀ t ∈ update phis b (kept ++ rest) c, t ∈ phis c := by
    intro c t inNew
    by_cases isB : c = b
    · subst isB
      rw [update_self, mem_append] at inNew
      rw [here, mem_append]
      exact inNew.imp_right (mem_cons_of_mem tracker)
    · rwa [update_of_ne isB] at inNew
  have atEnd : ∀ p u, st.blockDefs p tracker.orig = some u → p ∈ f.blocks.predecessors b →
      rep u = tracker.dst ∨ rep u = w := by
    intro p u present isPred
    obtain ⟨u', found', present'⟩ := filled.source inOld isPred
    rw [← orig, present] at present'
    cases present'
    have := srcs p
    rw [found', Option.map_some] at this
    obtain ⟨u', inSrcs, equal⟩ := Option.map_eq_some_iff.mp this
    rw [← equal]
    exact same p u' inSrcs
  have repW : rep w = w := by rw [← isW, stage.idem]
  have knownW : Known f st w ∧ (g.info w).orig = tracker.orig := by
    have := srcs q
    rw [found, Option.map_some] at this
    obtain ⟨u, inOldSrcs, equal⟩ := Option.map_eq_some_iff.mp this.symm
    obtain ⟨-, present⟩ := book.srcs b old inOld q u inOldSrcs
    obtain ⟨-, origU, knownU, -⟩ := book.defs q old.orig u present
    obtain ⟨known', orig'⟩ := stage.orig u knownU
    rw [equal, isW] at known' orig'
    exact ⟨known', by rw [orig', origU, orig]⟩
  refine ⟨?_, ?_, ?_, ?_, ?_, ?_, ?_, ?_, ?_⟩
  · intro c t inNew
    obtain ⟨old', inOld', samePhi, sameOrig, sameDst, lookups⟩ := stage.phi c t (subset c t inNew)
    refine ⟨old', inOld', samePhi, sameOrig, sameDst, fun p => ?_⟩
    have := congrArg (Option.map fun y => if y = tracker.dst then w else y) (lookups p)
    rwa [Option.map_map, Option.map_map] at this
  · intro c
    by_cases isB : c = b
    · subst isB
      have nodup := stage.nodup c
      rw [here] at nodup
      rw [update_self]
      refine nodup.sublist (List.Sublist.map _ ?_)
      exact List.Sublist.append_left (sublist_cons_self tracker rest) kept
    · rw [update_of_ne isB]
      exact stage.nodup c
  · intro c x v p present isPred
    obtain ⟨u, atP, equal | ⟨t, inPhis, origT, dstT⟩⟩ := stage.edge c x v p present isPred
    · exact ⟨u, atP, Or.inl (by rw [equal])⟩
    · by_cases removed : c = b ∧ t = tracker
      · obtain ⟨rfl, rfl⟩ := removed
        refine ⟨u, atP, Or.inl ?_⟩
        rw [← origT] at atP
        have repU : (if rep u = t.dst then w else rep u) = w := by
          rcases atEnd p u atP isPred with equal | equal
          · rw [if_pos equal]
          · rw [equal, if_neg notSelf]
        rw [repU, ← dstT, if_pos repDst]
      · refine ⟨u, atP, Or.inr ⟨t, ?_, origT, dstT⟩⟩
        by_cases isB : c = b
        · subst isB
          rw [here] at inPhis
          rw [update_self, mem_append]
          rcases mem_append.mp inPhis with h | h
          · exact Or.inl h
          · rcases mem_cons.mp h with rfl | h
            · exact absurd ⟨rfl, rfl⟩ removed
            · exact Or.inr h
        · rwa [update_of_ne isB]
  · intro v knownV
    obtain ⟨known', orig'⟩ := stage.orig v knownV
    split
    · rename_i isDst
      rw [isDst] at orig'
      exact ⟨knownW.1, by rw [knownW.2, ← orig', infoOrig, orig]⟩
    · exact ⟨known', orig'⟩
  · intro v
    by_cases isDst : rep v = tracker.dst
    · rw [if_pos isDst, repW, if_neg notSelf]
    · rw [if_neg isDst, stage.idem, if_neg isDst]
  · intro v isOld
    have := known.1
    rw [stage.old v isOld, if_neg]
    rintro rfl
    omega
  · intro c t inNew
    rw [stage.dst c t (subset c t inNew), if_neg]
    intro equal
    obtain ⟨old', inOld', -, sameOrig, sameDst, -⟩ := stage.phi c t (subset c t inNew)
    obtain ⟨entry', atC, -⟩ := book.phi c old' inOld'
    have origT := (book.entry c _ _ entry').2.2.1
    rw [← sameDst, equal] at atC origT
    have isB : c = b := by rw [← atC, atB]
    subst isB
    rw [update_self, mem_append] at inNew
    have equalOrig : t.orig = tracker.orig := by rw [sameOrig, ← origT, infoOrig, orig]
    have nodup := stage.nodup c
    rw [here, map_append, map_cons, nodup_append, nodup_cons] at nodup
    rcases inNew with inKept | inRest
    · exact nodup.2.2 t.orig (mem_map_of_mem inKept) tracker.orig
        mem_cons_self equalOrig
    · exact nodup.2.1.1 (equalOrig ▸ mem_map_of_mem inRest)
  · intro c v member'
    rw [stage.out c v member', if_neg]
    rintro rfl
    have := (book.out c _ member' known.1).2.2
    rw [kind] at this
    cases this
  · intro c v member'
    rw [stage.undef c v member', if_neg]
    rintro rfl
    have := (book.undefs c _ member').2.2.2.2
    rw [kind] at this
    cases this

omit filled in
/-- A phi may have its sources remapped. -/
theorem Stage.replace (stage : Stage f outs g st phis rep) {kept rest : List PhiTracker}
    (here : phis b = kept ++ tracker :: rest) {srcs : List (Nat × SSAValue)}
    (same : ∀ p, (srcs.lookup p).map rep = (tracker.srcs.lookup p).map rep) :
    Stage f outs g st
      (update phis b (kept ++ { tracker with srcs := srcs } :: rest)) rep := by
  have back : ∀ c, ∀ t ∈ update phis b (kept ++ { tracker with srcs := srcs } :: rest) c,
      ∃ t' ∈ phis c, t.phi = t'.phi ∧ t.orig = t'.orig ∧ t.dst = t'.dst ∧
        ∀ p, (t.srcs.lookup p).map rep = (t'.srcs.lookup p).map rep := by
    intro c t inNew
    by_cases isB : c = b
    · subst isB
      rw [update_self, mem_append, mem_cons] at inNew
      rw [here]
      rcases inNew with h | rfl | h
      · exact ⟨t, by simp [h], rfl, rfl, rfl, fun _ => rfl⟩
      · exact ⟨tracker, by simp, rfl, rfl, rfl, same⟩
      · exact ⟨t, by simp [h], rfl, rfl, rfl, fun _ => rfl⟩
    · rw [update_of_ne isB] at inNew
      exact ⟨t, inNew, rfl, rfl, rfl, fun _ => rfl⟩
  have forth : ∀ c, ∀ t ∈ phis c,
      ∃ t' ∈ update phis b (kept ++ { tracker with srcs := srcs } :: rest) c,
        t'.orig = t.orig ∧ t'.dst = t.dst := by
    intro c t inPhis
    by_cases isB : c = b
    · subst isB
      rw [here, mem_append, mem_cons] at inPhis
      rw [update_self]
      rcases inPhis with h | rfl | h
      · exact ⟨t, by simp [h], rfl, rfl⟩
      · exact ⟨{ t with srcs := srcs }, by simp, rfl, rfl⟩
      · exact ⟨t, by simp [h], rfl, rfl⟩
    · rw [update_of_ne isB]
      exact ⟨t, inPhis, rfl, rfl⟩
  refine { stage with phi := ?_, nodup := ?_, edge := ?_, dst := ?_ }
  · intro c t inNew
    obtain ⟨t', inPhis, samePhi, sameOrig, sameDst, lookups⟩ := back c t inNew
    obtain ⟨old, inOld, samePhi', sameOrig', sameDst', lookups'⟩ := stage.phi c t' inPhis
    exact ⟨old, inOld, samePhi.trans samePhi', sameOrig.trans sameOrig', sameDst.trans sameDst',
      fun p => (lookups p).trans (lookups' p)⟩
  · intro c
    by_cases isB : c = b
    · subst isB
      have nodup := stage.nodup c
      rw [here] at nodup
      rw [update_self]
      simpa using nodup
    · rw [update_of_ne isB]
      exact stage.nodup c
  · intro c x v p present isPred
    obtain ⟨u, atP, equal | ⟨t, inPhis, origT, dstT⟩⟩ := stage.edge c x v p present isPred
    · exact ⟨u, atP, Or.inl equal⟩
    · obtain ⟨t', inNew, orig, dst⟩ := forth c t inPhis
      exact ⟨u, atP, Or.inr ⟨t', inNew, orig.trans origT, dst.trans dstT⟩⟩
  · intro c t inNew
    obtain ⟨t', inPhis, -, -, sameDst, -⟩ := back c t inNew
    rw [sameDst]
    exact stage.dst c t' inPhis

end Stage

/-- The scan over the sources of a phi remaps them, and returns the one version they stand for
unless there are several. -/
theorem scanSrcs_ok (dst : SSAValue) : ∀ (srcs : List (Nat × SSAValue)) (uf : UnionFind SSAValue)
    (seen : Option SSAValue), uf.Wf →
      ∃ srcs' uf' verdict, scanSrcs dst srcs uf seen = .ok (srcs', uf', verdict) ∧ uf'.Wf ∧
        uf'.rep = uf.rep ∧ (∀ p, (srcs'.lookup p).map uf.rep = (srcs.lookup p).map uf.rep) ∧
        ∀ s, verdict = some s → (seen ≠ none → s = seen) ∧
          ∀ entry ∈ srcs, uf.rep entry.2 = dst ∨ s = some (uf.rep entry.2) := by
  intro srcs
  induction srcs with
  | nil =>
    intro uf seen wf
    refine ⟨[], uf, some seen, rfl, wf, rfl, fun _ => rfl, ?_⟩
    intro s equal
    cases equal
    exact ⟨fun _ => rfl, by simp⟩
  | cons entry srcs ih =>
    intro uf seen wf
    obtain ⟨p, src⟩ := entry
    obtain ⟨uf₁, found, wf₁, rep₁⟩ := wf.find_ok src
    have remapped : ∀ rest' : List (Nat × SSAValue),
        (∀ q, (rest'.lookup q).map uf.rep = (srcs.lookup q).map uf.rep) →
        ∀ q, (((p, uf.rep src) :: rest').lookup q).map uf.rep =
          (((p, src) :: srcs).lookup q).map uf.rep := by
      intro rest' same q
      rw [lookup_cons, lookup_cons]
      split
      · rw [Option.map_some, Option.map_some, wf.rep_rep]
      · exact same q
    by_cases several : uf.rep src ≠ dst ∧ seen ≠ none ∧ seen ≠ some (uf.rep src)
    · refine ⟨(p, uf.rep src) :: srcs, uf₁, none, ?_, wf₁, rep₁, remapped srcs fun _ => rfl, ?_⟩
      · rw [scanSrcs, found, ok_bind]
        dsimp only
        rw [if_pos several]
        rfl
      · intro s absurd'
        cases absurd'
    · obtain ⟨srcs', uf', verdict, rest, wf', rep', same, only⟩ :=
        ih uf₁ (if uf.rep src = dst then seen else some (uf.rep src)) wf₁
      rw [rep₁] at rep' same only
      refine ⟨(p, uf.rep src) :: srcs', uf', verdict, ?_, wf', rep', remapped srcs' same, ?_⟩
      · rw [scanSrcs, found, ok_bind]
        dsimp only
        rw [if_neg several, rest]
        rfl
      · intro s equal
        obtain ⟨kept, all⟩ := only s equal
        by_cases self : uf.rep src = dst
        · rw [if_pos self] at kept
          refine ⟨kept, ?_⟩
          intro entry member
          rcases mem_cons.mp member with rfl | member
          · exact Or.inl self
          · exact all entry member
        · rw [if_neg self] at kept
          have isSrc := kept (by simp)
          refine ⟨?_, ?_⟩
          · intro some
            by_contra other
            rw [isSrc] at other
            exact several ⟨self, some, fun h => other h.symm⟩
          · intro entry member
            rcases mem_cons.mp member with rfl | member
            · exact Or.inr isSrc
            · exact all entry member

/-- Every block can be reached from the entry, or from a block without predecessors. -/
def Rooted (f : Function) : Prop :=
  ∀ b, b < f.blocks.len → ∃ root before, (root = 0 ∨ f.blocks.predecessors root = []) ∧
    f.blocks.PathTo root before b

section Loop

variable (filled : Filled f multi outs g st) (dead : ∀ x, ¬ f.LiveIn x 0) (rooted : Rooted f)
include filled dead rooted

theorem retainPhi_ok {uf : UnionFind SSAValue} (wf : uf.Wf) {b : Nat}
    {kept rest : List PhiTracker} {tracker : PhiTracker}
    (stage : Stage f outs g st (update phis b (kept ++ tracker :: rest)) uf.rep)
    (toDo : Bool) :
    ∃ kept' uf' toDo', retainPhi (kept, uf, toDo) tracker = .ok (kept', uf', toDo') ∧ uf'.Wf ∧
      Stage f outs g st (update phis b (kept' ++ rest)) uf'.rep ∧
      (toDo' = toDo ∧ kept'.length = kept.length + 1 ∨
        toDo' = true ∧ kept'.length = kept.length) := by
  have here : update phis b (kept ++ tracker :: rest) b = kept ++ tracker :: rest :=
    update_self ..
  obtain ⟨srcs, uf₁, verdict, scanned, wf₁, rep₁, same, only⟩ :=
    scanSrcs_ok tracker.dst tracker.srcs uf none wf
  cases verdict with
  | none =>
    have stage' := stage.replace here same
    rw [update_idem, ← rep₁] at stage'
    refine ⟨kept ++ [{ tracker with srcs }], uf₁, toDo, ?_, wf₁, ?_, Or.inl ⟨rfl, by simp⟩⟩
    · rw [retainPhi]
      dsimp only
      rw [scanned]
      rfl
    · simpa using stage'
  | some seen =>
    obtain ⟨-, all⟩ := only seen rfl
    have member : tracker ∈ update phis b (kept ++ tracker :: rest) b := by
      rw [here]
      simp
    have inside : b < f.blocks.len := by
      obtain ⟨old, inOld, -⟩ := stage.phi b tracker member
      rw [← filled.length]
      exact RepairState.phisOf_inside inOld
    obtain ⟨root, before, isRoot, path⟩ := rooted b inside
    obtain ⟨q, u₀, found, notSelf⟩ := stage.not_circular filled dead isRoot path member
    have inSrcs : ∀ p u, tracker.srcs.lookup p = some u → (p, u) ∈ tracker.srcs := by
      intro p u present
      obtain ⟨before, after, split, -⟩ := lookup_eq_some_iff.mp present
      rw [split]
      simp
    have isW : seen = some (uf.rep u₀) :=
      (all (q, u₀) (inSrcs q u₀ found)).resolve_left notSelf
    have stage' := stage.remove filled here found rfl notSelf (by
      intro p u present
      refine (all (p, u) (inSrcs p u present)).imp_right fun equal => ?_
      rw [isW, Option.some.injEq] at equal
      exact equal.symm)
    obtain ⟨uf₂, joined, wf₂, rep₂⟩ := wf₁.union_ok (uf.rep u₀) tracker.dst
    refine ⟨kept, uf₂, true, ?_, wf₂, ?_, Or.inr ⟨rfl, rfl⟩⟩
    · rw [retainPhi]
      dsimp only
      rw [scanned, ok_bind]
      dsimp only
      rw [isW, expect_some, ok_bind, joined]
      rfl
    · have sameRep : uf₂.rep =
          fun z => if uf.rep z = tracker.dst then uf.rep u₀ else uf.rep z := by
        funext z
        rw [rep₂, rep₁, stage.dst b tracker member, stage.idem]
      rw [sameRep]
      rwa [update_idem] at stage'

theorem retainPhis_ok {b : Nat} : ∀ (todo kept : List PhiTracker) (uf : UnionFind SSAValue)
    (toDo : Bool), uf.Wf → Stage f outs g st (update phis b (kept ++ todo)) uf.rep →
      ∃ kept' uf' toDo', todo.foldlM retainPhi (kept, uf, toDo) = .ok (kept', uf', toDo') ∧
        uf'.Wf ∧ Stage f outs g st (update phis b kept') uf'.rep ∧
        kept'.length ≤ kept.length + todo.length ∧
        (toDo' = true → toDo = true ∨ kept'.length < kept.length + todo.length) := by
  intro todo
  induction todo with
  | nil =>
    intro kept uf toDo wf stage
    refine ⟨kept, uf, toDo, rfl, wf, ?_, le_rfl, Or.inl⟩
    rwa [append_nil] at stage
  | cons tracker todo ih =>
    intro kept uf toDo wf stage
    obtain ⟨kept₁, uf₁, toDo₁, first, wf₁, stage₁, counted⟩ :=
      retainPhi_ok filled dead rooted wf stage toDo
    obtain ⟨kept', uf', toDo', rest, wf', stage', le, less⟩ := ih kept₁ uf₁ toDo₁ wf₁ stage₁
    refine ⟨kept', uf', toDo', ?_, wf', stage', ?_, ?_⟩
    · rw [foldlM_cons, first, ok_bind, rest]
    · rw [length_cons]
      omega
    · intro again
      rw [length_cons]
      rcases counted with ⟨rfl, length⟩ | ⟨-, length⟩
      · exact (less again).imp_right fun h => by omega
      · exact Or.inr (by omega)

/-- The phis of a list of blocks. -/
def phisIn (blocks : List DefTrackerBlock) (b : Nat) : List PhiTracker :=
  (blocks[b]?.map DefTrackerBlock.phis).getD []

omit filled dead rooted in
theorem phisIn_update (front : List DefTrackerBlock) (block : DefTrackerBlock)
    (rest : List DefTrackerBlock) (new : List PhiTracker) :
    update (phisIn (front ++ block :: rest)) front.length new =
      phisIn (front ++ { block with phis := new } :: rest) := by
  funext b
  rcases Nat.lt_trichotomy b front.length with less | rfl | more
  · rw [update_of_ne (by omega)]
    simp only [phisIn, getElem?_append_left less]
  · simp [phisIn]
  · rw [update_of_ne (by omega)]
    obtain ⟨k, rfl⟩ : ∃ k, b = front.length + (k + 1) := ⟨b - front.length - 1, by omega⟩
    simp only [phisIn, getElem?_append_right (Nat.le_add_right _ _), Nat.add_sub_cancel_left,
      getElem?_cons_succ]

/-- How many phis are left. -/
def phiCount (blocks : List DefTrackerBlock) : Nat := (blocks.map fun block => block.phis.length).sum

theorem removeRound_ok : ∀ (rest front : List DefTrackerBlock) (uf : UnionFind SSAValue)
    (toDo : Bool), uf.Wf → Stage f outs g st (phisIn (front ++ rest)) uf.rep →
      ∃ blocks uf' toDo', removeRound rest uf toDo = .ok (blocks, uf', toDo') ∧ uf'.Wf ∧
        Stage f outs g st (phisIn (front ++ blocks)) uf'.rep ∧ blocks.length = rest.length ∧
        phiCount blocks ≤ phiCount rest ∧
        (toDo' = true → toDo = true ∨ phiCount blocks < phiCount rest) := by
  intro rest
  induction rest with
  | nil => exact fun front uf toDo wf stage => ⟨[], uf, toDo, rfl, wf, stage, rfl, le_rfl, Or.inl⟩
  | cons block rest ih =>
    intro front uf toDo wf stage
    have whole : update (phisIn (front ++ block :: rest)) front.length
        ([] ++ block.phis) = phisIn (front ++ block :: rest) := by
      rw [phisIn_update]
      rfl
    rw [← whole] at stage
    obtain ⟨kept, uf₁, toDo₁, first, wf₁, stage₁, le, less⟩ :=
      retainPhis_ok filled dead rooted block.phis [] uf toDo wf stage
    rw [phisIn_update] at stage₁
    have stage₂ : Stage f outs g st (phisIn ((front ++ [{ block with phis := kept }]) ++ rest))
        uf₁.rep := by rwa [append_assoc]
    obtain ⟨blocks, uf', toDo', second, wf', stage', length, le', less'⟩ :=
      ih (front ++ [{ block with phis := kept }]) uf₁ toDo₁ wf₁ stage₂
    rw [length_nil, Nat.zero_add] at le less
    refine ⟨{ block with phis := kept } :: blocks, uf', toDo', ?_, wf', ?_, by simp [length], ?_, ?_⟩
    · rw [removeRound, first, ok_bind]
      dsimp only
      rw [second]
      rfl
    · rwa [append_assoc] at stage'
    · simp only [phiCount, map_cons, sum_cons] at le' ⊢
      omega
    · intro again
      simp only [phiCount, map_cons, sum_cons] at le' less' ⊢
      rcases less' again with earlier | fewer
      · rcases less earlier with already | fewer
        · exact Or.inl already
        · exact Or.inr (by omega)
      · exact Or.inr (by omega)

theorem removeLoop_ok : ∀ (fuel : Nat) (blocks : List DefTrackerBlock) (uf : UnionFind SSAValue),
    uf.Wf → Stage f outs g st (phisIn blocks) uf.rep → phiCount blocks < fuel →
      ∃ blocks' uf', removeLoop fuel blocks uf = .ok (blocks', uf') ∧ uf'.Wf ∧
        Stage f outs g st (phisIn blocks') uf'.rep ∧ blocks'.length = blocks.length := by
  intro fuel
  induction fuel with
  | zero =>
    intro blocks uf _ _ enough
    omega
  | succ fuel ih =>
    intro blocks uf wf stage enough
    obtain ⟨blocks₁, uf₁, toDo, round, wf₁, stage₁, length₁, le, less⟩ :=
      removeRound_ok filled dead rooted blocks [] uf false wf stage
    cases toDo with
    | false =>
      refine ⟨blocks₁, uf₁, ?_, wf₁, stage₁, length₁⟩
      rw [removeLoop, round]
      rfl
    | true =>
      have fewer : phiCount blocks₁ < phiCount blocks := (less rfl).resolve_left (by simp)
      obtain ⟨blocks', uf', again, wf', stage', length'⟩ :=
        ih blocks₁ uf₁ wf₁ stage₁ (by omega)
      refine ⟨blocks', uf', ?_, wf', stage', length'.trans length₁⟩
      rw [removeLoop, round, ok_bind]
      exact again

/-- The removal returns, so no phi is ever found circular. -/
theorem removePhis_ok (hasLoop : Bool) :
    ∃ blocks uf, removePhis hasLoop st.blocks = .ok (blocks, uf) ∧ uf.Wf ∧
      Stage f outs g st (phisIn blocks) uf.rep ∧ blocks.length = st.blocks.length := by
  have start : Stage f outs g st (phisIn st.blocks) ({} : UnionFind SSAValue).rep := by
    have same : ({} : UnionFind SSAValue).rep = id := funext fun v => UnionFind.rep_of_none rfl
    rw [same]
    exact filled.stage
  cases hasLoop with
  | false => exact ⟨st.blocks, {}, rfl, UnionFind.Wf.empty, start, rfl⟩
  | true =>
    exact removeLoop_ok filled dead rooted _ st.blocks {} UnionFind.Wf.empty start
      (by rw [phiCount]; omega)

end Loop

end CoralReef.RepairSsa
