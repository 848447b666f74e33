import CoralReef.Codegen.RepairSsa.Proofs.Simulate

/-!
# The repaired function reads the same values

Along every path from the entry the repaired function simulates the original, for every meaning
of the ops and every initial machine.
-/

open List

namespace CoralReef

/-- Along every path from the entry, the instructions of `f'` and the phi sources of `f` that it
has kept read what they read in `f`, in the same order. -/
def Function.ReadsAlike (f f' : Function) : Prop :=
  ∀ (V : Type) (interp : Interp V) (start : Machine V) (before : List Nat) (b : Nat),
    f.blocks.PathTo 0 before b →
      (interp.runPath f' (before ++ [b]) start).effects =
        (interp.runPath f (before ++ [b]) start).effects ∧
      observe (fun phi => decide (phi.idx < f.phiAlloc.count))
          (interp.runPath f' (before ++ [b]) start).trace =
        observe (fun phi => decide (phi.idx < f.phiAlloc.count))
          (interp.runPath f (before ++ [b]) start).trace

namespace RepairSsa

variable {V : Type} {f f' : Function} {multi : SSAValue → Bool} {outs : Nat → List Instr}
  {g : Ghost} {st : RepairState} {phis : Nat → List PhiTracker} {rep : SSAValue → SSAValue}

theorem givePhis_other {vals : SSAValue → V} {pairs : List (Phi × SSAValue)} {phi : Phi}
    (absent : phi ∉ pairs.map Prod.fst) (phis : Phi → V) : givePhis vals pairs phis phi = phis phi := by
  induction pairs generalizing phis with
  | nil => rfl
  | cons entry pairs ih =>
    rw [map_cons, mem_cons, not_or] at absent
    rw [givePhis, foldl_cons]
    exact (ih absent.2 _).trans (Function.update_of_ne absent.1 ..)

/-- A phi that is given one value only has it. -/
theorem givePhis_eq {vals : SSAValue → V} {pairs : List (Phi × SSAValue)} {phi : Phi}
    {v : SSAValue} (member : (phi, v) ∈ pairs) (unique : ∀ w, (phi, w) ∈ pairs → w = v) :
    ∀ phis : Phi → V, givePhis vals pairs phis phi = vals v := by
  induction pairs with
  | nil => simp at member
  | cons entry pairs ih =>
    intro phis
    by_cases later : phi ∈ pairs.map Prod.fst
    · obtain ⟨⟨phi', w⟩, inPairs, rfl⟩ := mem_map.mp later
      have isV := unique w (mem_cons_of_mem entry inPairs)
      subst isV
      exact ih inPairs (fun u inRest => unique u (mem_cons_of_mem entry inRest)) _
    · have isEntry : entry = (phi, v) := by
        rcases mem_cons.mp member with same | inRest
        · exact same.symm
        · exact absurd (mem_map_of_mem inRest) later
      rw [givePhis, foldl_cons, isEntry]
      exact (givePhis_other later _).trans (Function.update_self ..)

/-- The machine once the phis of a block have been written to their destinations. -/
def atHead (trackers : List PhiTracker) (machine : Machine V) : Machine V :=
  { machine with
    vals := assign machine.vals
      ((headPairs trackers).map fun entry => (entry.2, machine.phis entry.1)) }

theorem atHead_other {trackers : List PhiTracker} {machine : Machine V} {v : SSAValue}
    (absent : v ∉ trackers.map PhiTracker.dst) : (atHead trackers machine).vals v = machine.vals v := by
  apply assign_other
  rw [headPairs, map_map, map_map]
  exact absent

theorem atHead_dst {trackers : List PhiTracker} (nodup : (trackers.map PhiTracker.dst).Nodup)
    {machine : Machine V} {tracker : PhiTracker} (member : tracker ∈ trackers) :
    (atHead trackers machine).vals tracker.dst = machine.phis tracker.phi := by
  have writes : ∀ {trackers : List PhiTracker}, (trackers.map PhiTracker.dst).Nodup →
      tracker ∈ trackers → ∀ vals : SSAValue → V,
      assign vals (trackers.map fun tracker => (tracker.dst, machine.phis tracker.phi))
        tracker.dst = machine.phis tracker.phi := by
    intro trackers
    induction trackers with
    | nil => simp
    | cons head trackers ih =>
      intro nodup member vals
      rw [map_cons, nodup_cons] at nodup
      rw [map_cons, assign_cons]
      rcases mem_cons.mp member with rfl | member
      · rw [assign_other, Function.update_self]
        rw [map_map]
        exact nodup.1
      · exact ih nodup.2 member _
  have := writes nodup member machine.vals
  simpa [atHead, headPairs, map_map, Function.comp_def] using this

namespace Repaired

variable (repaired : Repaired f multi outs g st phis rep f')
include repaired

/-- No version that a block starts with stands for a value the block defines. -/
theorem apart {before : List Nat} {b : Nat} (path : f.blocks.PathTo 0 before b) {x v : SSAValue}
    (present : g.entry b x = some v) : rep v ∉ defsOf (outs b) := by
  intro member
  have book := repaired.filled.progress.book
  have known := (repaired.stage.orig v (book.entry b x v present).2.2.2.1).1
  obtain ⟨before, path, fresh⟩ := path.first
  rcases repaired.stage.defined repaired.filled repaired.dead (Or.inl rfl) path present with
    head | ⟨c, inBefore, head | out⟩
  · exact repaired.head_not_out head member
  · exact repaired.head_not_out head member
  · have here := (book.out b _ member known.1).2.1
    have there := (book.out c _ out known.1).2.1
    rw [here] at there
    exact fresh (there ▸ inBefore)

/-- What stands for the version of a name is one of the phis of the block, if there is one for
the name, and none of them otherwise. -/
theorem entry_cases {b : Nat} {x v : SSAValue} (present : g.entry b x = some v) :
    (∃ tracker ∈ phis b, tracker.orig = x ∧ tracker.dst = v ∧ rep v = v) ∨
      (∀ tracker ∈ phis b, tracker.orig ≠ x) ∧ rep v ∉ (phis b).map PhiTracker.dst := by
  have book := repaired.filled.progress.book
  have own : ∀ tracker ∈ phis b, g.entry b tracker.orig = some tracker.dst := by
    intro tracker member
    obtain ⟨old, inOld, -, orig, dst, -⟩ := repaired.stage.phi b tracker member
    rw [orig, dst]
    exact (book.phi b old inOld).1
  by_cases some : ∃ tracker ∈ phis b, tracker.orig = x
  · obtain ⟨tracker, member, rfl⟩ := some
    have same := own tracker member
    rw [present, Option.some.injEq] at same
    refine Or.inl ⟨tracker, member, rfl, same.symm, ?_⟩
    rw [same]
    exact repaired.stage.dst b tracker member
  · push Not at some
    refine Or.inr ⟨some, ?_⟩
    intro member
    obtain ⟨tracker, inPhis, same⟩ := mem_map.mp member
    obtain ⟨-, -, infoV, known, -⟩ := book.entry b x v present
    have orig := (repaired.stage.orig v known).2
    have infoDst := (book.entry b _ _ (own tracker inPhis)).2.2.1
    rw [← same, infoDst, infoV] at orig
    exact some tracker inPhis orig

/-- The phis of a block get the values of their sources in the predecessor. -/
theorem givePhis_tail {p b : Nat} {tracker : PhiTracker} (member : tracker ∈ phis b)
    (edge : (p, b) ∈ f.blocks.edges) {u : SSAValue}
    (present : st.blockDefs p tracker.orig = some u) (vals : SSAValue → V) (old : Phi → V) :
    givePhis vals (tailPairs rep phis p (f.blocks.successors p)) old tracker.phi = vals (rep u) := by
  have book := repaired.filled.progress.book
  obtain ⟨orgnl, inOld, samePhi, sameOrig, -, srcs⟩ := repaired.stage.phi b tracker member
  apply givePhis_eq
  · obtain ⟨u', found, present'⟩ :=
      repaired.filled.source inOld (CFG.mem_predecessors.mpr edge)
    rw [← sameOrig, present] at present'
    cases present'
    have same := srcs p
    rw [found, Option.map_some] at same
    obtain ⟨u', found', equal⟩ := Option.map_eq_some_iff.mp same
    refine mem_flatMap.mpr ⟨b, CFG.mem_successors.mpr edge, ?_⟩
    refine mem_filterMap.mpr ⟨tracker, member, ?_⟩
    rw [found', Option.map_some, equal]
  · intro w inPairs
    obtain ⟨s, other, inPhis, u', -, phi, present', rfl⟩ := repaired.mem_tailPairs inPairs
    obtain ⟨orgnl', inOld', samePhi', sameOrig', -, -⟩ := repaired.stage.phi s other inPhis
    have equal := book.phiUnique s b orgnl' orgnl inOld' inOld
      (by rw [← samePhi', ← samePhi]; exact phi)
    rw [sameOrig', equal.2, ← sameOrig, present] at present'
    cases present'
    rfl

theorem tail_hidden {b : Nat} : ∀ entry ∈ tailPairs rep phis b (f.blocks.successors b),
    knownPhi f entry.1 = false := by
  intro entry member
  obtain ⟨s, tracker, inPhis, -, -, same, -⟩ := repaired.mem_tailPairs member
  obtain ⟨old, inOld, samePhi, -⟩ := repaired.stage.phi s tracker inPhis
  have above := (repaired.filled.progress.book.phi s old inOld).2.2.2.1
  rw [← same, samePhi, knownPhi, decide_eq_false_iff_not]
  omega

theorem atHead_small {b : Nat} {machine : Machine V} {y : SSAValue}
    (small : y.idx ≤ f.ssaAlloc.count) : (atHead (phis b) machine).vals y = machine.vals y := by
  apply atHead_other
  intro member
  obtain ⟨tracker, inPhis, same⟩ := mem_map.mp member
  have above := (repaired.head_info (Or.inl ⟨tracker, inPhis, same⟩)).1
  omega

/-- A block does what the original does, and its phi sources are read after it. -/
theorem run_block (interp : Interp V) {before : List Nat} {b : Nat}
    (path : f.blocks.PathTo 0 before b) {machine machine' : Machine V}
    (sim : Sim f multi rep (g.entry b) machine (atHead (phis b) machine')) :
    Sim f multi rep (st.blockDefs b) (interp.run (f.instrs b) machine)
        (interp.run (f'.instrs b) machine') ∧
      ∃ old, (interp.run (f'.instrs b) machine').phis =
        givePhis (interp.run (f'.instrs b) machine').vals
          (tailPairs rep phis b (f.blocks.successors b)) old := by
  by_cases inside : b < f.blocks.len
  · obtain ⟨out, ⟨base, mid, remapped, headed, tailed⟩, isNew⟩ := repaired.block b inside
    rw [repaired.no_undefs path, map_nil, nil_append] at isNew
    have baseDefs : base.flatMap Instr.ssaDefs = defsOf (outs b) :=
      Remap.flatMap_ssaDefs remapped
    have runMid : interp.run mid machine' = interp.run base (atHead (phis b) machine') := by
      apply headed.run
      intro v isDst
      rw [baseDefs]
      rw [headPairs_snd] at isDst
      obtain ⟨tracker, member, rfl⟩ := mem_map.mp isDst
      exact repaired.head_not_out (Or.inl ⟨tracker, member, rfl⟩)
    have simBase := (repaired.filled.progress.renamed b).run interp repaired.stage.old
      (repaired.outs_nodup inside) (repaired.stage.out b)
      (fun y v present => repaired.apart path present)
      (fun instr member => repaired.tame member) remapped sim
    rw [← runMid] at simBase
    have same := tailed.run (knownPhi f) repaired.tail_hidden interp machine'
    rw [isNew]
    refine ⟨⟨?_, ?_, same.effects.trans simBase.effects, same.trace.trans simBase.trace⟩, ?_⟩
    · rw [same.vals]
      exact simBase.agree
    · intro phi isKnown
      rw [same.phis, givePhis_other, simBase.phis phi isKnown]
      intro member
      obtain ⟨entry, inPairs, rfl⟩ := mem_map.mp member
      rw [repaired.tail_hidden entry inPairs] at isKnown
      cases isKnown
    · exact ⟨_, by rw [same.vals]; exact same.phis⟩
  · have outside : f.blocks.len ≤ b := by omega
    rw [Function.instrs_eq_nil outside, Function.instrs_eq_nil (repaired.len ▸ outside)]
    have noSuccs : f.blocks.successors b = [] := by
      rw [eq_nil_iff_forall_not_mem]
      intro s isSucc
      exact inside (repaired.wf.edges _ (CFG.mem_successors.mp isSucc)).1
    refine ⟨⟨⟨?_, ?_⟩, sim.phis, sim.effects, sim.trace⟩, machine'.phis, ?_⟩
    · intro y v _ present
      have := RepairState.blockDefs_inside present
      rw [repaired.filled.length] at this
      omega
    · intro y isSingle small
      rw [Interp.run_nil, Interp.run_nil, ← sim.agree.single y isSingle small]
      exact (repaired.atHead_small small).symm
    · rw [noSuccs]
      rfl

/-- The simulation at the head of a block that is reached. -/
theorem sim_path (interp : Interp V) (start : Machine V) {before : List Nat} {b : Nat}
    (path : f.blocks.PathTo 0 before b) :
    Sim f multi rep (g.entry b) (interp.runPath f before start)
      (atHead (phis b) (interp.runPath f' before start)) := by
  have book := repaired.filled.progress.book
  induction path with
  | root =>
    have noEntry : ∀ x, g.entry 0 x = none := by
      intro x
      by_contra some
      obtain ⟨v, present⟩ := Option.ne_none_iff_exists'.mp some
      exact repaired.dead x (book.entry 0 x v present).2.1
    refine ⟨⟨?_, ?_⟩, fun _ _ => rfl, rfl, rfl⟩
    · intro y v _ present
      rw [noEntry] at present
      cases present
    · intro y _ small
      exact repaired.atHead_small small
  | @step before p b path edge ih =>
    obtain ⟨sim, old, isPhis⟩ := repaired.run_block interp path ih
    rw [Interp.runPath_snoc, Interp.runPath_snoc]
    refine ⟨⟨?_, ?_⟩, sim.phis, sim.effects, sim.trace⟩
    · intro y v isMulti present
      rcases repaired.entry_cases present with
        ⟨tracker, member, rfl, rfl, same⟩ | ⟨none, notDst⟩
      · obtain ⟨u, atEnd, -⟩ :=
          repaired.stage.edge b _ _ p present (CFG.mem_predecessors.mpr edge)
        rw [same, atHead_dst (repaired.dsts_nodup b) member, isPhis,
          repaired.givePhis_tail member edge atEnd]
        exact sim.agree.version _ u isMulti atEnd
      · obtain ⟨u, atEnd, same | ⟨tracker, member, orig, -⟩⟩ :=
          repaired.stage.edge b _ _ p present (CFG.mem_predecessors.mpr edge)
        · rw [atHead_other notDst, ← same]
          exact sim.agree.version y u isMulti atEnd
        · exact absurd orig (none tracker member)
    · intro y isSingle small
      rw [repaired.atHead_small small, sim.agree.single y isSingle small]

theorem readsAlike : f.ReadsAlike f' := by
  intro V interp start before b path
  have sim := (repaired.run_block interp path (repaired.sim_path interp start path)).1
  rw [Interp.runPath_snoc, Interp.runPath_snoc]
  exact ⟨sim.effects, sim.trace⟩

end Repaired

/-- The names with several definitions. -/
def multiOf (f : Function) (x : SSAValue) : Bool := decide (1 < f.allDefs.count x)

theorem multiOf_mem {f : Function} {x : SSAValue} (isMulti : multiOf f x = true) :
    x ∈ f.allDefs.dedup := by
  rw [mem_dedup]
  apply count_pos_iff.mp
  have : 1 < f.allDefs.count x := of_decide_eq_true isMulti
  omega

/-- The fuel of the loop that fills the phis is enough. -/
theorem work_le (names : List SSAValue) (st : RepairState) :
    work names st ≤ st.needsSrc.length + names.length * st.fuel := by
  unfold work
  apply Nat.add_le_add_left
  induction names with
  | nil => simp
  | cons x names ih =>
    have := RepairState.cost_le_fuel st x
    rw [map_cons, sum_cons, length_cons, Nat.succ_mul]
    omega

/-- Renaming keeps the instructions but for their names. -/
theorem Renamed.skeleton_mem {limit : Nat} {cur cur' : SSAValue → Option SSAValue}
    {src outs : List Instr} (renamed : Renamed limit multi cur src outs cur') {out : Instr}
    (member : out ∈ outs) : ∃ instr ∈ src, out.skeleton = instr.skeleton := by
  induction renamed with
  | nil => simp at member
  | @snoc src outs mid instr instr' _ skeleton _ _ ih =>
    rcases mem_append.mp member with earlier | last
    · obtain ⟨instr, inSrc, same⟩ := ih earlier
      exact ⟨instr, mem_append_left _ inSrc, same⟩
    · rw [mem_singleton] at last
      exact ⟨instr, by simp, last ▸ skeleton⟩

/-- Renaming adds no guard. -/
theorem Renamed.unguarded {limit b : Nat} {cur cur' : SSAValue → Option SSAValue}
    {outs : List Instr} (renamed : Renamed limit multi cur (f.instrs b) outs cur')
    (wf : f.WellFormed) {out : Instr} (member : out ∈ outs) (head : out.isHead = true) :
    out.pred.iterSsa = [] := by
  obtain ⟨instr, inBlock, same⟩ := renamed.skeleton_mem member
  have isHead : instr.isHead = true := by
    rw [← Instr.skeleton_isHead, ← same, Instr.skeleton_isHead, head]
  have pred := Instr.skeleton_pred out
  rw [same, Instr.skeleton_pred, wf.unguarded b instr inBlock isHead] at pred
  exact map_eq_nil_iff.mp pred.symm

/-- The repaired function is clean where the function is. -/
theorem Repaired.clean (repaired : Repaired f multi outs g st phis rep f') (clean : f.Clean) :
    f'.Clean := by
  intro b instr member
  by_cases inside : b < f.blocks.len
  · obtain ⟨out, ⟨base, mid, remapped, headed, tailed⟩, instrs⟩ := repaired.block b inside
    rw [instrs] at member
    rcases mem_append.mp member with undef | placed
    · obtain ⟨v, -, rfl⟩ := mem_map.mp undef
      rfl
    · refine tailed.clean (headed.clean ?_) instr placed
      intro other inBase
      obtain ⟨renamed, inOuts, remap⟩ := Remap.of_mem remapped inBase
      obtain ⟨source, inBlock, same⟩ := (repaired.filled.progress.renamed b).skeleton_mem inOuts
      rw [remap.isClean, ← Instr.skeleton_isClean, same, Instr.skeleton_isClean]
      exact clean b source inBlock
  · rw [Function.instrs_eq_nil (by rw [repaired.len]; omega)] at member
    cases member

/-- The pass returns the function put together from its parts. -/
theorem repaired_ok (wf : f.WellFormed) (reached : f.ReachedByDef) (rooted : Rooted f)
    {found : Bool} (loops : f.blocks.hasLoop = .ok found)
    (several : f.allDefs.any (multiOf f) = true) :
    ∃ f', f.repairSsa = .ok f' ∧ ∃ outs g st phis rep,
      Repaired f (multiOf f) outs g st phis rep f' := by
  have dead := fun x => reached.not_liveIn x
  obtain ⟨⟨renamed, st₀⟩, renamedOk, ⟨⟨g₀, progress₀⟩, -, length₀, count₀⟩⟩ :=
    renameBlocks_ok (multiOf f) wf dead
  simp only at progress₀ length₀ count₀
  have srcs : before f f.blocks.len = f.instrs := by
    funext b
    unfold before
    split
    · rfl
    · rw [Function.instrs_eq_nil (by omega)]
  rw [srcs] at progress₀
  have enough : work f.allDefs.dedup st₀ <
      st₀.needsSrc.length + f.allDefs.length * st₀.fuel + 1 := by
    have bound := work_le f.allDefs.dedup st₀
    have shorter := Nat.mul_le_mul_right st₀.fuel (dedup_sublist f.allDefs).length_le
    omega
  obtain ⟨g, st, fillOk, progress, settled, length⟩ := fillLoop_ok wf dead
    (nodup_dedup f.allDefs) (fun _ isMulti => multiOf_mem isMulti) _ _ st₀
    ⟨⟨g₀, progress₀⟩, length₀, le_rfl⟩ enough
  have filled : Filled f (multiOf f) (returned renamed) g st := ⟨progress, settled, length⟩
  obtain ⟨blocks, uf, removeOk, ufWf, stage, blocksLength⟩ :=
    removePhis_ok filled dead rooted found
  let bbs := (f.blocks.blocks.zip renamed).map fun entry => { entry.1 with instrs := entry.2 }
  have bbsLength : bbs.length = f.blocks.len := by
    simp only [bbs, length_map, length_zip, count₀]
    exact Nat.min_self _
  have bbsAt : ∀ b, b < f.blocks.len → ∃ bb, bbs[b]? = some bb ∧ bb.instrs = returned renamed b := by
    intro b inside
    have inRenamed : b < renamed.length := by omega
    have inBlocks : b < f.blocks.blocks.length := inside
    refine ⟨{ f.blocks.blocks.get ⟨b, inBlocks⟩ with instrs := renamed.get ⟨b, inRenamed⟩ }, ?_, ?_⟩
    · simp [bbs, inRenamed, inBlocks]
    · simp [returned, inRenamed]
  obtain ⟨out, uf', placeOk, outLength, placed⟩ := placeBlocks_ok f.blocks blocks bbs
    ⟨ufWf, rfl⟩ (by omega)
    (fun b s isSucc => by
      rw [blocksLength, length]
      exact (wf.edges _ (CFG.mem_successors.mp isSucc)).2)
    (by
      intro bb member instr inBlock head
      obtain ⟨b, inside, at_⟩ := getElem_of_mem member
      obtain ⟨bb', at_', instrs⟩ := bbsAt b (by omega)
      rw [List.getElem?_eq_getElem inside, at_, Option.some.injEq] at at_'
      subst at_'
      rw [instrs] at inBlock
      exact (progress.renamed b).unguarded wf inBlock head)
  obtain ⟨undefLength, undefs⟩ := placeUndefs_ok st.synthUndefs out
  let cfg : CFG BasicBlock := { f.blocks with blocks := st.synthUndefs.foldl placeUndef out }
  refine ⟨⟨st.ssaAlloc, st.phiAlloc, cfg⟩, ?_, returned renamed, g, st, phisIn blocks, uf.rep,
    ⟨wf, reached, ?_, filled, stage, rfl, ?_, ?_⟩⟩
  · unfold Function.repairSsa
    show (if ¬ f.allDefs.any (multiOf f) then _ else _) = _
    rw [if_neg (by simpa using several)]
    show ((List.range f.blocks.len).foldlM (renameBlock f.blocks (multiOf f)) _ >>= _) = _
    rw [renamedOk, ok_bind]
    dsimp only
    show (fillLoop (st₀.needsSrc.length + f.allDefs.length * st₀.fuel + 1) st₀ >>= _) = _
    rw [fillOk, ok_bind, loops, ok_bind, removeOk, ok_bind]
    dsimp only
    rw [placeOk]
    rfl
  · intro x isSingle
    have : ¬ 1 < f.allDefs.count x := of_decide_eq_false isSingle
    omega
  · show (st.synthUndefs.foldl placeUndef out).length = f.blocks.len
    omega
  · intro b inside
    obtain ⟨bb, at_, instrs⟩ := bbsAt b inside
    obtain ⟨bb', at_', isPlaced⟩ := placed b bb at_
    obtain ⟨bb'', at_'', instrs''⟩ := undefs b bb' at_'
    refine ⟨bb'.instrs, instrs ▸ isPlaced, ?_⟩
    rw [undefsOf, ← instrs'']
    simp [Function.instrs, cfg, at_'']

/-- A function without names that have several definitions is left alone. -/
theorem repairSsa_single (single : f.allDefs.any (multiOf f) = false) : f.repairSsa = .ok f := by
  unfold Function.repairSsa
  show (if ¬ f.allDefs.any (multiOf f) then _ else _) = _
  rw [if_pos (by simpa using single)]
  rfl

/-- Where no name has several definitions, the function is in SSA form already. -/
theorem strictSsa_of_single (reached : f.ReachedByDef)
    (single : f.allDefs.any (multiOf f) = false) : f.StrictSsa := by
  refine ⟨?_, reached⟩
  rw [nodup_iff_count_le_one]
  intro x
  by_contra more
  have isMulti : multiOf f x = true := decide_eq_true (by omega)
  have : f.allDefs.any (multiOf f) = true :=
    any_eq_true.mpr ⟨x, mem_dedup.mp (multiOf_mem isMulti), isMulti⟩
  rw [single] at this
  cases this

/-- What repairing a function gives, the loops being found where they are looked for. -/
theorem repairSsa_ok (wf : f.WellFormed) (reached : f.ReachedByDef) (rooted : Rooted f)
    (loops : f.allDefs.any (multiOf f) = true → ∃ found, f.blocks.hasLoop = .ok found) :
    ∃ f', f.repairSsa = .ok f' ∧ f'.StrictSsa ∧ f'.blocks.edges = f.blocks.edges ∧
      f'.blocks.len = f.blocks.len ∧ f.ReadsAlike f' ∧ (f.Clean → f'.Clean) := by
  cases several : f.allDefs.any (multiOf f) with
  | false =>
    exact ⟨f, repairSsa_single several, strictSsa_of_single reached several, rfl, rfl,
      fun _ _ _ _ _ _ => ⟨rfl, rfl⟩, id⟩
  | true =>
    obtain ⟨found, loops⟩ := loops several
    obtain ⟨f', returned, outs, g, st, phis, rep, repaired⟩ :=
      repaired_ok wf reached rooted loops several
    exact ⟨f', returned, ⟨repaired.unique, repaired.reachedByDef⟩, repaired.edges, repaired.len,
      repaired.readsAlike, repaired.clean⟩

/-- Repairing a function gives one in SSA form that reads the same values, where every block can
be reached from the entry or from a block without predecessors. A guarded definition counts as
one, as it does for `SimpleLiveness`. -/
theorem repairSsa_correct (wf : f.WellFormed) (reached : f.ReachedByDef) (rooted : Rooted f)
    (loops : ∃ found, f.blocks.hasLoop = .ok found) :
    ∃ f', f.repairSsa = .ok f' ∧ f'.StrictSsa ∧ f'.blocks.edges = f.blocks.edges ∧
      f.ReadsAlike f' := by
  obtain ⟨f', returned, strict, edges, -, alike, -⟩ :=
    repairSsa_ok wf reached rooted fun _ => loops
  exact ⟨f', returned, strict, edges, alike⟩

/-- A counter set in the entry and incremented around a loop. -/
def counter : Function :=
  let x : SSAValue := ⟨.gpr, 1⟩
  let set : Instr := .new (.copy (.ofSsa x) { reference := .zero })
  let increment : Instr := .new (.other ⟨"iadd", true⟩ [.ofSsa x] [.ofSsa x])
  { ssaAlloc := ⟨1⟩
    blocks :=
      { blocks := [⟨⟨0⟩, false, [set]⟩, ⟨⟨1⟩, false, [increment]⟩]
        edges := [(0, 1), (1, 1)] } }

theorem repairSsa_correct_counter :
    ∃ f', counter.repairSsa = .ok f' ∧ f'.StrictSsa ∧ f'.blocks.edges = counter.blocks.edges ∧
      counter.ReadsAlike f' := by
  apply repairSsa_correct
  · exact Function.wellFormed_of_noPhis (by decide) (by decide) (by decide)
  · exact Function.reachedByDef_of_entry (by decide) (by decide)
  · intro b inside
    refine ⟨0, ?_⟩
    match b, inside with
    | 0, _ => exact ⟨[], .inl rfl, .root⟩
    | 1, _ => exact ⟨[0], .inl rfl, .step .root (by decide)⟩
  · exact ⟨true, by decide⟩

/-- A function whose blocks 2 and 3 are not reachable: an empty loop, and a use behind it. -/
def cutOff : Function :=
  let x : SSAValue := ⟨.gpr, 1⟩
  let set : Instr := .new (.copy (.ofSsa x) { reference := .zero })
  let use : Instr := .new (.regOut [.ofSsa x])
  { ssaAlloc := ⟨1⟩
    blocks :=
      { blocks := [⟨⟨0⟩, false, [set, set]⟩, ⟨⟨1⟩, false, [use]⟩, ⟨⟨2⟩, false, []⟩,
          ⟨⟨3⟩, false, [use]⟩]
        edges := [(0, 1), (1, 1), (2, 2), (2, 3)] } }

/-- The phi of the empty loop is its own only source, which is taken for a circular definition. -/
theorem repairSsa_cutOff_panics :
    cutOff.WellFormed ∧ cutOff.ReachedByDef ∧ (∃ found, cutOff.blocks.hasLoop = .ok found) ∧
      cutOff.repairSsa = .error (.panic "Circular SSA def") := by
  refine ⟨?_, ?_, ⟨true, by decide⟩, by decide⟩
  · exact Function.wellFormed_of_noPhis (by decide) (by decide) (by decide)
  · exact Function.reachedByDef_of_entry (by decide) (by decide)

end RepairSsa

end CoralReef
