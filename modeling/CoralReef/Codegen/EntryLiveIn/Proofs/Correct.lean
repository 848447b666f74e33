import CoralReef.Codegen.EntryLiveIn.Proofs.Carried
import CoralReef.Codegen.EntryLiveIn.Proofs.Reach
import CoralReef.Codegen.Liveness.Proofs.Fixpoint
import CoralReef.Codegen.OptDce.Proofs.Sweep
import CoralReef.Codegen.RepairSsa.Proofs.Correct

/-!
# When the entry is fixed

A function that defines some SSA value comes out in strict SSA form. What its instructions read at
settled uses is kept where no value is carried around through the entry. A function that defines
none comes out as it is.
-/

open List

namespace CoralReef

variable {f f' : Function}

/-- What fixing the entry is for. -/
structure EntryFixed (f f' : Function) : Prop where
  strict : f'.StrictSsa
  notLiveIn : ∀ x, ¬ f'.LiveIn x 0
  disconnected : ∀ b s, (b, s) ∈ f'.blocks.edges → f'.blocks.Reaches s → f'.blocks.Reaches b
  reads : f.KeepsReads f'

namespace EntryLiveIn

open RepairSsa

/-- The function with undefs for `names` in its entry and without its unreachable blocks. -/
structure Prepared (f : Function) (names : List SSAValue) (f₁ : Function) : Prop where
  ssaAlloc : f₁.ssaAlloc = f.ssaAlloc
  phiAlloc : f₁.phiAlloc = f.phiAlloc
  len : f₁.blocks.len = f.blocks.len
  edges : ∀ b s, (b, s) ∈ f₁.blocks.edges ↔
    (b, s) ∈ f.blocks.edges ∧ f.blocks.Reaches b ∧ f.blocks.Reaches s
  entry : f₁.instrs 0 = names.map undefInstr ++ f.instrs 0
  block : ∀ b, b ≠ 0 → f.blocks.Reaches b → f₁.instrs b = f.instrs b
  cut : ∀ b, ¬ f.blocks.Reaches b → f₁.instrs b = []
  nodup : names.Nodup
  named : ∀ x, x ∈ names ↔ x ∈ f.allDefs ∨ x ∈ f.allUses

theorem mem_allUses {x : SSAValue} :
    x ∈ f.allUses ↔ ∃ b, ∃ instr ∈ f.instrs b, x ∈ instr.ssaUses := by
  simp only [Function.allUses, mem_flatMap]
  constructor
  · rintro ⟨bb, inBlocks, instr, member, used⟩
    obtain ⟨b, here⟩ := mem_iff_getElem?.mp inBlocks
    refine ⟨b, instr, ?_, used⟩
    rw [Function.instrs, here]
    exact member
  · rintro ⟨b, instr, member, used⟩
    obtain ⟨bb, inBlocks, inside⟩ := Function.mem_instrs member
    exact ⟨bb, inBlocks, instr, inside, used⟩

theorem mem_allDefs {x : SSAValue} : x ∈ f.allDefs ↔ ∃ b, x ∈ f.defs b := by
  simp only [Function.allDefs, Function.defs, mem_flatMap]
  constructor
  · rintro ⟨bb, inBlocks, instr, member, defined⟩
    obtain ⟨b, here⟩ := mem_iff_getElem?.mp inBlocks
    refine ⟨b, instr, ?_, defined⟩
    rw [Function.instrs, here]
    exact member
  · rintro ⟨b, instr, member, defined⟩
    obtain ⟨bb, inBlocks, inside⟩ := Function.mem_instrs member
    exact ⟨bb, inBlocks, instr, inside, defined⟩

theorem undefs_defs (names : List SSAValue) :
    (names.map undefInstr).flatMap Instr.ssaDefs = names := by
  induction names with
  | nil => rfl
  | cons x names ih =>
    rw [map_cons, flatMap_cons, ih]
    rfl

namespace Prepared

variable {names : List SSAValue} {f₁ : Function} (prepared : Prepared f names f₁)
variable {b : Nat}

include prepared

theorem mem_instrs {instr : Instr} (member : instr ∈ f₁.instrs b) :
    (∃ x ∈ names, instr = undefInstr x) ∨ instr ∈ f.instrs b := by
  by_cases reaches : f.blocks.Reaches b
  · by_cases isEntry : b = 0
    · subst isEntry
      rw [prepared.entry] at member
      rcases mem_append.mp member with undef | old
      · obtain ⟨x, named, rfl⟩ := mem_map.mp undef
        exact .inl ⟨x, named, rfl⟩
      · exact .inr old
    · rw [prepared.block b isEntry reaches] at member
      exact .inr member
  · rw [prepared.cut b reaches] at member
    cases member

theorem wellFormed (wf : f.WellFormed) : f₁.WellFormed where
  edges := by
    rintro ⟨b, s⟩ member
    rw [prepared.len]
    exact wf.edges _ ((prepared.edges b s).mp member).1
  ssas := by
    intro b instr member x named
    rw [prepared.ssaAlloc]
    rcases prepared.mem_instrs member with ⟨y, inNames, rfl⟩ | old
    · have same : x = y := mem_singleton.mp named
      subst same
      rcases (prepared.named x).mp inNames with defined | used
      · obtain ⟨c, inBlock⟩ := mem_allDefs.mp defined
        obtain ⟨instr, member, defined⟩ := mem_flatMap.mp inBlock
        exact wf.ssas c instr member x (mem_append_right _ defined)
      · obtain ⟨c, instr, member, used⟩ := mem_allUses.mp used
        exact wf.ssas c instr member x (mem_append_left _ used)
    · exact wf.ssas b instr old x named
  srcPhis := by
    intro b srcs instr member isPhi
    rw [prepared.phiAlloc]
    rcases prepared.mem_instrs member with ⟨y, -, rfl⟩ | old
    · cases isPhi
    · exact wf.srcPhis b srcs instr old isPhi
  dstPhis := by
    intro b dsts instr member isPhi
    rw [prepared.phiAlloc]
    rcases prepared.mem_instrs member with ⟨y, -, rfl⟩ | old
    · cases isPhi
    · exact wf.dstPhis b dsts instr old isPhi
  unguarded := by
    intro b instr member head
    rcases prepared.mem_instrs member with ⟨y, -, rfl⟩ | old
    · rfl
    · exact wf.unguarded b instr old head

theorem clean (clean : ∀ b, f.blocks.Reaches b → ∀ instr ∈ f.instrs b, instr.isClean = true) :
    f₁.Clean := by
  intro b instr member
  by_cases reaches : f.blocks.Reaches b
  · rcases prepared.mem_instrs member with ⟨y, -, rfl⟩ | old
    · rfl
    · exact clean b reaches instr old
  · rw [prepared.cut b reaches] at member
    cases member

/-- Every name is defined in the entry. -/
theorem entry_defs {x : SSAValue} (named : x ∈ names) : x ∈ f₁.defs 0 := by
  rw [Function.defs, prepared.entry, flatMap_append, undefs_defs]
  exact mem_append_left _ named

theorem uses_named {instr : Instr} (member : instr ∈ f.instrs b) {x : SSAValue}
    (used : x ∈ instr.ssaUses) : x ∈ names :=
  (prepared.named x).mpr (.inr (mem_allUses.mpr ⟨b, instr, member, used⟩))

theorem reachedByDef : f₁.ReachedByDef := by
  rw [Function.reachedByDef_iff]
  intro before b path
  have used : ∀ {b instr x}, instr ∈ f₁.instrs b → x ∈ instr.ssaUses → x ∈ names := by
    intro b instr x member used
    rcases prepared.mem_instrs member with ⟨y, -, rfl⟩ | old
    · cases used
    · exact prepared.uses_named old used
  rcases path.root_mem with rfl | passed
  · rw [prepared.entry, scoped_append]
    refine ⟨scoped_of_split ?_, scoped_of_split ?_⟩
    · intro pre instr post split x named
      have member : instr ∈ names.map undefInstr := by rw [split]; simp
      obtain ⟨y, -, rfl⟩ := mem_map.mp member
      cases named
    · intro pre instr post split x named
      refine .inl (.inr ?_)
      rw [undefs_defs]
      have member : instr ∈ f.instrs 0 := by rw [split]; simp
      exact prepared.uses_named member named
  · apply scoped_of_split
    intro pre instr post split x named
    have member : instr ∈ f₁.instrs b := by rw [split]; simp
    exact .inl (mem_flatMap.mpr ⟨0, passed, prepared.entry_defs (used member named)⟩)

theorem path {before : List Nat} (path : f.blocks.PathTo 0 before b) :
    f₁.blocks.PathTo 0 before b := by
  induction path with
  | root => exact .root
  | @step before p b path edge ih =>
    refine ih.step ((prepared.edges p b).mpr ⟨edge, ⟨before, path⟩, ?_⟩)
    exact ⟨before ++ [p], path.step edge⟩

theorem reaches_iff : f₁.blocks.Reaches b ↔ f.blocks.Reaches b := by
  constructor
  · rintro ⟨before, path⟩
    induction path with
    | root => exact ⟨[], .root⟩
    | @step before p b _ edge _ => exact ((prepared.edges p b).mp edge).2.2
  · rintro ⟨before, path⟩
    exact ⟨before, prepared.path path⟩

theorem rooted : Rooted f₁ := by
  intro b _
  by_cases reaches : f₁.blocks.Reaches b
  · obtain ⟨before, path⟩ := reaches
    exact ⟨0, before, .inl rfl, path⟩
  · refine ⟨b, [], .inr ?_, .root⟩
    rw [eq_nil_iff_forall_not_mem]
    intro p isPred
    have edge := (prepared.edges p b).mp (CFG.mem_predecessors.mp isPred)
    exact reaches (prepared.reaches_iff.mpr edge.2.2)

omit prepared in
/-- The undefs take the values of their names away, and do nothing else. -/
theorem run_undefs {V : Type} (interp : Interp V) (names : List SSAValue) (machine : Machine V) :
    interp.run (names.map undefInstr) machine =
      { machine with
        vals := fun x => if x ∈ names then interp.undef else machine.vals x } := by
  induction names generalizing machine with
  | nil => simp
  | cons x names ih =>
    have step : interp.step machine (undefInstr x) =
        { machine with
          vals := Function.update machine.vals x interp.undef
          trace := machine.trace ++ [] } := rfl
    rw [map_cons, Interp.run_cons, step, append_nil, ih]
    congr 1
    funext y
    by_cases same : y = x
    · subst same
      simp
    · simp [same]

/-- The prepared function takes the values of all names away whenever the entry is visited. -/
theorem runPath_eq {V : Type} (interp : Interp V) : ∀ (path : List Nat) (machine : Machine V),
    (∀ b ∈ path, f.blocks.Reaches b) → (∀ x, x ∉ names → machine.vals x = interp.undef) →
      interp.runPath f₁ path machine = interp.runEntering interp.reset f path machine := by
  intro path
  induction path with
  | nil => exact fun _ _ _ => rfl
  | cons b path ih =>
    intro machine reached unset
    rw [forall_mem_cons] at reached
    have visit : interp.run (f₁.instrs b) machine =
        interp.run (f.instrs b) (machine.entering interp.reset b) := by
      by_cases isEntry : b = 0
      · subst isEntry
        have taken : ∀ x, (if x ∈ names then interp.undef else machine.vals x) = interp.undef :=
          fun x => ite_eq_left_iff.mpr (unset x)
        rw [prepared.entry, Interp.run_append, run_undefs, Machine.entering, if_pos rfl]
        simp only [taken]
        rfl
      · rw [prepared.block b isEntry reached.1, Machine.entering, if_neg isEntry]
    show interp.runPath f₁ path (interp.run (f₁.instrs b) machine) = _
    rw [ih _ reached.2, visit]
    · rfl
    · intro x unnamed
      have undefined : x ∉ (f₁.instrs b).flatMap Instr.ssaDefs := by
        intro defined
        obtain ⟨instr, member, isDef⟩ := mem_flatMap.mp defined
        rcases prepared.mem_instrs member with ⟨y, named, rfl⟩ | old
        · exact unnamed (mem_singleton.mp isDef ▸ named)
        · exact unnamed ((prepared.named x).mpr (.inl (mem_allDefs.mpr
            ⟨b, mem_flatMap.mpr ⟨instr, old, isDef⟩⟩)))
      rw [interp.run_other undefined]
      exact unset x unnamed

/-- What the prepared function reads along a path. -/
theorem recorded {V : Type} (interp : Interp V) (phis : Phi → V) {before : List Nat}
    (path : f.blocks.PathTo 0 before b) :
    let sites := f.sites (before ++ [b])
    let after := interp.runPath f₁ (before ++ [b]) (interp.start phis)
    after.trace = sites.flatMap (interp.eventsAt interp.reset f (interp.start phis)) ∧
      after.effects = (sites.filter fun site => site.instr.isEffect).flatMap
        (interp.eventsAt interp.reset f (interp.start phis)) := by
  have reached : ∀ c ∈ before ++ [b], f.blocks.Reaches c := by
    intro c member
    rcases mem_append.mp member with earlier | last
    · obtain ⟨pre, post, split⟩ := append_of_mem earlier
      exact ⟨pre, path.cut split⟩
    · rw [mem_singleton] at last
      exact last ▸ ⟨before, path⟩
  have recorded := interp.runEntering_recorded interp.reset (f := f) (interp.start phis)
    (before ++ [b]) []
  rw [nil_append] at recorded
  dsimp only
  rw [prepared.runPath_eq interp _ _ reached fun _ _ => rfl]
  exact recorded

/-- Where no block on a path from the entry defines anything, nothing is defined twice. -/
theorem single (none : ∀ b, f.blocks.Reaches b → f.defs b = []) :
    f₁.allDefs.any (multiOf f₁) = false := by
  have others : ∀ b, b ≠ 0 → f₁.defs b = [] := by
    intro b notEntry
    rw [Function.defs]
    by_cases reaches : f.blocks.Reaches b
    · rw [prepared.block b notEntry reaches]
      exact none b reaches
    · rw [prepared.cut b reaches]
      rfl
  have entry : f₁.defs 0 = names := by
    have nothing : (f.instrs 0).flatMap Instr.ssaDefs = [] := none 0 ⟨[], .root⟩
    rw [Function.defs, prepared.entry, flatMap_append, undefs_defs, nothing, append_nil]
  have rest : ∀ blocks : List Nat, 0 ∉ blocks → blocks.flatMap f₁.defs = [] := by
    intro blocks absent
    rw [flatMap_eq_nil_iff]
    exact fun b member => others b fun isEntry => absent (isEntry ▸ member)
  have unique : f₁.allDefs.Nodup := by
    rw [Function.allDefs_eq]
    cases f₁.blocks.len with
    | zero => exact nodup_nil
    | succ n =>
      rw [range_succ_eq_map, flatMap_cons, entry, rest _ (by simp), append_nil]
      exact prepared.nodup
  rw [any_eq_false]
  intro x _ isMulti
  have := nodup_iff_count_le_one.mp unique x
  have : 1 < f₁.allDefs.count x := of_decide_eq_true isMulti
  omega

/-- A name that such a block defines is defined twice. -/
theorem several {x : SSAValue} (reaches : f.blocks.Reaches b) (defined : x ∈ f.defs b) :
    f₁.allDefs.any (multiOf f₁) = true := by
  have named : x ∈ names := (prepared.named x).mpr (.inl (mem_allDefs.mpr ⟨b, defined⟩))
  have inside : ∀ {c}, x ∈ f₁.defs c → c < f₁.blocks.len := by
    intro c member
    by_contra outside
    rw [Function.defs, Function.instrs_eq_nil (by omega)] at member
    cases member
  have inEntry := prepared.entry_defs named
  have twice : ¬ f₁.allDefs.Nodup := by
    intro unique
    rw [Function.allDefs_eq] at unique
    by_cases isEntry : b = 0
    · subst isEntry
      have here := (nodup_flatMap.mp unique).1 0 (mem_range.mpr (inside inEntry))
      rw [Function.defs, prepared.entry, flatMap_append, undefs_defs] at here
      exact disjoint_of_nodup_append here named defined
    · have there : x ∈ f₁.defs b := by
        rw [Function.defs, prepared.block b isEntry reaches]
        exact defined
      exact apart_of_nodup unique (mem_range.mpr (inside inEntry))
        (mem_range.mpr (inside there)) (Ne.symm isEntry) inEntry there
  rw [nodup_iff_count_le_one, not_forall] at twice
  obtain ⟨y, more⟩ := twice
  refine any_eq_true.mpr ⟨y, count_pos_iff.mp (by omega), ?_⟩
  exact decide_eq_true (by omega)

end Prepared

/-- What the pass works on, after the undefs. -/
theorem prepare_ok (order : HashOrder) (wf : f.WellFormed) (entry : 0 < f.blocks.len)
    {values : List SSAValue} (inSight : ∀ x, x ∈ values ↔ x ∈ f.allDefs ∨ x ∈ f.allUses) :
    ∃ cfg reached, f.cutUnreachable = .ok cfg ∧ CFG.CutTo reached f.blocks cfg ∧
      Prepared f (order.iter values)
        { f with blocks := Function.undefAtEntry cfg (order.iter values) } := by
  obtain ⟨cfg, reached, returned, cutTo, found, kept, cut⟩ :=
    Function.cutUnreachable_ok wf.edges entry
  have entryBlock : cfg.blocks[0]? = f.blocks.blocks[0]? := kept 0 ⟨[], .root⟩
  obtain ⟨bb, here⟩ : ∃ bb, f.blocks.blocks[0]? = some bb :=
    ⟨_, List.getElem?_eq_getElem entry⟩
  have others : ∀ b, b ≠ 0 →
      (Function.undefAtEntry cfg (order.iter values)).blocks[b]? = cfg.blocks[b]? :=
    fun b notEntry => List.getElem?_modify_ne _ _ (Ne.symm notEntry)
  refine ⟨cfg, reached, returned, cutTo, rfl, rfl, ?_, ?_, ?_, ?_, ?_, ?_, ?_⟩
  · rw [← cutTo.len]
    simp [Function.undefAtEntry, CFG.len]
  · intro b s
    show (b, s) ∈ cfg.edges ↔ _
    rw [cutTo.edges, mem_filter, decide_eq_true_eq, found, found]
  · simp only [Function.instrs, Function.undefAtEntry, List.getElem?_modify_eq, entryBlock, here]
    rfl
  · intro b notEntry reaches
    simp only [Function.instrs, others b notEntry, kept b reaches]
  · intro b unreached
    have notEntry : b ≠ 0 := by
      rintro rfl
      exact unreached ⟨[], .root⟩
    simp only [Function.instrs, others b notEntry]
    cases at_ : cfg.blocks[b]? with
    | none => rfl
    | some bb => exact cut b bb unreached at_
  · exact (order.perm values).nodup_iff.mpr (nodup_dedup values)
  · intro x
    rw [(order.perm values).mem_iff, mem_dedup, inSight]

/-- The values that are live into the entry are among those some instruction defines. -/
theorem liveInValues_ok (entry : 0 < f.blocks.len) : ∃ live entryLi,
    SimpleLiveness.forFunction f = .ok live ∧ live.liveInValues 0 = .ok entryLi ∧
      ∀ x ∈ entryLi, x ∈ f.allDefs := by
  obtain ⟨live, returned, sites, len⟩ := SimpleLiveness.forFunction_ok f
  have inside : 0 < live.blocks.length := len ▸ entry
  obtain ⟨bl, here⟩ : ∃ bl, live.blocks[0]? = some bl :=
    ⟨_, List.getElem?_eq_getElem inside⟩
  refine ⟨live, (live.ssaBlockIp.map Prod.fst).dedup.filter bl.isLiveIn, returned, ?_, ?_⟩
  · rw [SimpleLiveness.liveInValues, SimpleLiveness.blockLive, here]
    rfl
  · intro x member
    rw [mem_filter, mem_dedup, sites, SimpleLiveness.mem_defSites] at member
    exact member.1

/-- A function without definitions is returned as it is. -/
theorem fixEntryLiveIn_none (order : HashOrder) (annotate : Bool) (entry : 0 < f.blocks.len)
    (none : f.allDefs = []) : f.fixEntryLiveIn order annotate = .ok f := by
  obtain ⟨live, entryLi, returned, found, known⟩ := liveInValues_ok entry
  have empty : entryLi = [] := by
    rw [eq_nil_iff_forall_not_mem]
    intro x member
    have := known x member
    rw [none] at this
    cases this
  have noDefs : (f.blocks.blocks.flatMap fun bb => bb.instrs.flatMap Instr.ssaDefs) = [] := none
  rw [Function.fixEntryLiveIn, returned, ok_bind, found, ok_bind, noDefs, empty]
  rfl

/-- A function with definitions is prepared, repaired and swept. -/
theorem fixEntryLiveIn_some (order : HashOrder) (annotate : Bool) (wf : f.WellFormed)
    (entry : 0 < f.blocks.len) (some : f.allDefs ≠ []) : ∃ cfg reached names,
      CFG.CutTo reached f.blocks cfg ∧
      Prepared f names { f with blocks := Function.undefAtEntry cfg names } ∧
      f.fixEntryLiveIn order annotate =
        { f with blocks := Function.undefAtEntry cfg names }.repairSsa >>=
          fun f₂ => f₂.optDce annotate := by
  obtain ⟨live, entryLi, returned, found, known⟩ := liveInValues_ok entry
  let values := entryLi ++ f.allDefs ++ f.allUses
  have inSight : ∀ x, x ∈ values ↔ x ∈ f.allDefs ∨ x ∈ f.allUses := by
    intro x
    simp only [values, mem_append]
    constructor
    · rintro ((live | defined) | used)
      · exact .inl (known x live)
      · exact .inl defined
      · exact .inr used
    · rintro (defined | used)
      · exact .inl (.inr defined)
      · exact .inr used
  obtain ⟨cfg, reached, cut, cutTo, prepared⟩ := prepare_ok order wf entry inSight
  refine ⟨cfg, reached, order.iter values, cutTo, prepared, ?_⟩
  have more : entryLi ++ f.allDefs ≠ [] := by simp [some]
  rw [Function.fixEntryLiveIn, returned, ok_bind, found, ok_bind]
  show (if entryLi ++ f.allDefs = [] then _ else _) = _
  rw [if_neg more]
  show (f.cutUnreachable >>= _) = _
  rw [cut]
  rfl

/-- A function that has loops where they are looked for. -/
theorem hasLoop_of_repairSsa (returned : f.repairSsa = .ok f')
    (several : f.allDefs.any (multiOf f) = true) : ∃ found, f.blocks.hasLoop = .ok found := by
  unfold Function.repairSsa at returned
  change (if ¬ f.allDefs.any (multiOf f) then _ else _) = _ at returned
  rw [if_neg (by simpa using several)] at returned
  obtain ⟨⟨renamed, st₀⟩, -, rest⟩ := bind_eq_ok.mp returned
  obtain ⟨st, -, rest⟩ := bind_eq_ok.mp rest
  obtain ⟨found, loops, -⟩ := bind_eq_ok.mp rest
  exact ⟨found, loops⟩

theorem undefAtEntry_hasLoop (cfg : CFG BasicBlock) (names : List SSAValue) :
    (Function.undefAtEntry cfg names).hasLoop = cfg.hasLoop := by
  apply CFG.hasLoop_congr
  · simp [Function.undefAtEntry, CFG.len]
  · rfl

/-- What comes out of a prepared function, and what it reads. -/
theorem Prepared.passed {names : List SSAValue} {f₁ : Function} (prepared : Prepared f names f₁)
    (annotate : Bool) (wf : f.WellFormed)
    (clean : ∀ b, f.blocks.Reaches b → ∀ instr ∈ f.instrs b, instr.isClean = true)
    (loops : (∃ b, f.blocks.Reaches b ∧ f.defs b ≠ []) → ∃ found, f₁.blocks.hasLoop = .ok found) :
    ∃ f', (f₁.repairSsa >>= fun f₂ => f₂.optDce annotate) = .ok f' ∧ f'.StrictSsa ∧
      (∀ b s, (b, s) ∈ f'.blocks.edges → f'.blocks.Reaches s → f'.blocks.Reaches b) ∧
      ∀ (V : Type) (interp : Interp V) (phis : Phi → V) (before : List Nat) (b : Nat),
        f.blocks.PathTo 0 before b →
          let sites := f.sites (before ++ [b])
          let events := interp.eventsAt interp.reset f (interp.start phis)
          let after := interp.runPath f' (before ++ [b]) (interp.start phis)
          let known := fun phi : Phi => decide (phi.idx < f.phiAlloc.count)
          after.effects = (sites.filter fun site => site.instr.isEffect).flatMap events ∧
            (observe known after.trace).Sublist (observe known (sites.flatMap events)) := by
  have loops' : f₁.allDefs.any (multiOf f₁) = true → ∃ found, f₁.blocks.hasLoop = .ok found := by
    intro several
    apply loops
    by_contra none
    push Not at none
    rw [prepared.single none] at several
    cases several
  obtain ⟨f₂, repaired, strict, edges, -, alike, cleaned⟩ :=
    repairSsa_ok (prepared.wellFormed wf) prepared.reachedByDef prepared.rooted loops'
  obtain ⟨f', swept, strict', edges', kept⟩ :=
    f₂.optDce_correct annotate (cleaned (prepared.clean clean)) strict
  refine ⟨f', ?_, strict', ?_, ?_⟩
  · rw [repaired, ok_bind, swept]
  · have same : f'.blocks.edges = f₁.blocks.edges := edges'.trans edges
    intro b s edge _
    rw [same, prepared.edges] at edge
    obtain ⟨before, path⟩ := prepared.reaches_iff.mpr edge.2.1
    exact ⟨before, path.congr same.symm⟩
  · intro V interp phis before b path sites events after known
    have path₁ := prepared.path path
    have path₂ := path₁.congr edges.symm
    obtain ⟨trace₁, effects₁⟩ := prepared.recorded interp phis path
    obtain ⟨effects₂, trace₂⟩ := alike V interp (interp.start phis) before b path₁
    obtain ⟨effects₃, trace₃⟩ := kept V interp (interp.start phis) before b path₂
    refine ⟨effects₃.trans (effects₂.trans effects₁), ?_⟩
    rw [prepared.phiAlloc, trace₁] at trace₂
    rw [← trace₂]
    exact trace₃.filter _

end EntryLiveIn

/-- The functions whose entry is fixed. Those that define no SSA value come out as they are: no
block on a path from the entry may use one, and no edge may lead from an unreachable block to a
reachable one. In the others the blocks that can be reached are in order for dead-code elimination,
the loops are found within the limit on passes where they are looked for, and no instruction that
is to be kept reads what was carried around through the entry. -/
def Function.EntryFixable (f : Function) (keep : Instr → Bool) : Prop :=
  if f.allDefs = [] then
    (∀ b, f.blocks.Reaches b → ∀ instr ∈ f.instrs b, instr.ssaUses = []) ∧
      ∀ b s, (b, s) ∈ f.blocks.edges → f.blocks.Reaches s → f.blocks.Reaches b
  else
    (∀ b, f.blocks.Reaches b → ∀ instr ∈ f.instrs b, instr.isClean = true) ∧
      ((∃ b, f.blocks.Reaches b ∧ f.defs b ≠ []) → ∃ found, f.blocks.hasLoop = .ok found) ∧
        f.CarriesNothing keep

namespace EntryLiveIn

/-- A function without definitions is in order as it is, or never. -/
theorem fixed_none (none : f.allDefs = []) :
    EntryFixed f f ↔ (∀ b, f.blocks.Reaches b → ∀ instr ∈ f.instrs b, instr.ssaUses = []) ∧
      ∀ b s, (b, s) ∈ f.blocks.edges → f.blocks.Reaches s → f.blocks.Reaches b := by
  have noDefs : ∀ b, f.defs b = [] := by
    intro b
    rw [eq_nil_iff_forall_not_mem]
    intro x defined
    have := mem_allDefs.mpr ⟨b, defined⟩
    rw [none] at this
    cases this
  constructor
  · intro fixed
    refine ⟨?_, fixed.disconnected⟩
    rintro b ⟨before, path⟩ instr member
    rw [eq_nil_iff_forall_not_mem]
    intro x used
    obtain ⟨pre, post, split⟩ := append_of_mem member
    rcases fixed.strict.dominated before b pre instr post path split x used with passed | here
    · obtain ⟨c, -, defined⟩ := mem_flatMap.mp passed
      rw [noDefs c] at defined
      cases defined
    · have inBlock : x ∈ f.defs b := by
        rw [Function.defs, split, flatMap_append]
        exact mem_append_left _ here
      rw [noDefs b] at inBlock
      cases inBlock
  · rintro ⟨unused, disconnected⟩
    have reached : f.ReachedByDef := by
      intro before b pre instr post path split x used
      rw [unused b ⟨before, path⟩ instr (by rw [split]; simp)] at used
      cases used
    refine ⟨⟨?_, reached⟩, reached.not_liveIn, disconnected, ?_⟩
    · rw [none]
      exact nodup_nil
    · exact f.keepsReads_self

/-- A function that defines nothing comes out fixed if it is in order as it is. -/
theorem fixed_iff_none (order : HashOrder) (annotate : Bool) (entry : 0 < f.blocks.len)
    (none : f.allDefs = []) :
    (∃ f', f.fixEntryLiveIn order annotate = .ok f' ∧ EntryFixed f f') ↔ EntryFixed f f := by
  rw [fixEntryLiveIn_none order annotate entry none]
  constructor
  · rintro ⟨f', same, fixed⟩
    cases same
    exact fixed
  · exact fun fixed => ⟨f, rfl, fixed⟩

/-- The loops of the prepared function are found where those of the function are. -/
theorem loops_iff {cfg : CFG BasicBlock} {reached : List Nat} (cut : CFG.CutTo reached f.blocks cfg)
    (names : List SSAValue) : (∃ found, (Function.undefAtEntry cfg names).hasLoop = .ok found) ↔
      ∃ found, f.blocks.hasLoop = .ok found := by
  rw [undefAtEntry_hasLoop, cut.hasLoop_returns]

theorem fixed_of_fixable (order : HashOrder) (annotate : Bool) (wf : f.WellFormed)
    (entry : 0 < f.blocks.len) (fixable : f.EntryFixable fun _ => true) :
    ∃ f', f.fixEntryLiveIn order annotate = .ok f' ∧ EntryFixed f f' := by
  unfold Function.EntryFixable at fixable
  by_cases none : f.allDefs = []
  · rw [if_pos none] at fixable
    exact (fixed_iff_none order annotate entry none).mpr ((fixed_none none).mpr fixable)
  rw [if_neg none] at fixable
  obtain ⟨clean, found, nothing⟩ := fixable
  obtain ⟨cfg, reached, names, cut, prepared, runs⟩ :=
    fixEntryLiveIn_some order annotate wf entry none
  obtain ⟨f', returned, strict, disconnected, reads⟩ := prepared.passed annotate wf clean
    fun defines => (loops_iff cut names).mpr (found defines)
  refine ⟨f', runs.trans returned, strict, strict.dominated.not_liveIn, disconnected, ?_⟩
  intro V interp phis before b path
  obtain ⟨effects, trace⟩ := reads V interp phis before b path
  have ofEffects : f.CarriesNothing Instr.isEffect := fun before b path site member _ =>
    nothing before b path site member rfl
  have effectReads := ofEffects.reads interp phis path
  have allReads := nothing.reads interp phis path
  dsimp only at effects trace effectReads allReads ⊢
  rw [List.filter_true] at allReads
  rw [effects]
  exact ⟨effectReads, sublistForall₂_of_sublist (observe_related _ allReads) trace⟩

theorem fixable_of_fixed (order : HashOrder) (annotate : Bool) (wf : f.WellFormed)
    (entry : 0 < f.blocks.len)
    (clean : ∀ b, f.blocks.Reaches b → ∀ instr ∈ f.instrs b, instr.isClean = true)
    (fixed : ∃ f', f.fixEntryLiveIn order annotate = .ok f' ∧ EntryFixed f f') :
    f.EntryFixable Instr.isEffect := by
  unfold Function.EntryFixable
  by_cases none : f.allDefs = []
  · rw [if_pos none]
    exact (fixed_none none).mp ((fixed_iff_none order annotate entry none).mp fixed)
  rw [if_neg none]
  obtain ⟨f', returned, fixed⟩ := fixed
  obtain ⟨cfg, reached, names, cut, prepared, runs⟩ :=
    fixEntryLiveIn_some order annotate wf entry none
  rw [runs] at returned
  have found : (∃ b, f.blocks.Reaches b ∧ f.defs b ≠ []) →
      ∃ found, f.blocks.hasLoop = .ok found := by
    rintro ⟨b, reaches, defines⟩
    obtain ⟨x, defined⟩ := List.exists_mem_of_ne_nil _ defines
    obtain ⟨f₂, repaired, -⟩ := bind_eq_ok.mp returned
    exact (loops_iff cut names).mp
      (hasLoop_of_repairSsa repaired (prepared.several reaches defined))
  refine ⟨clean, found, Function.carriesNothing_of_reads wf.unguarded ?_⟩
  intro before b path
  obtain ⟨f'', returned', -, -, reads⟩ := prepared.passed annotate wf clean
    fun defines => (loops_iff cut names).mpr (found defines)
  rw [returned] at returned'
  cases returned'
  have kept := (fixed.reads Nat numbering (fun _ => 1) before b path).1
  rwa [(reads Nat numbering (fun _ => 1) before b path).1] at kept

end EntryLiveIn

open EntryLiveIn in
/-- The entry is fixed for these functions. Where the reachable blocks are in order for dead-code
elimination it is fixed for no others, but for some in which what was carried around is only read
by instructions without an effect. -/
theorem Function.fixEntryLiveIn_iff (order : HashOrder) (annotate : Bool) (wf : f.WellFormed)
    (entry : 0 < f.blocks.len) :
    let fixed := ∃ f', f.fixEntryLiveIn order annotate = .ok f' ∧ EntryFixed f f'
    (f.EntryFixable (fun _ => true) → fixed) ∧
      ((∀ b, f.blocks.Reaches b → ∀ instr ∈ f.instrs b, instr.isClean = true) → fixed →
        f.EntryFixable Instr.isEffect) :=
  ⟨fixed_of_fixable order annotate wf entry, fixable_of_fixed order annotate wf entry⟩

/-- A hash set that lists its values as they were first put in. -/
def HashOrder.asInserted : HashOrder := ⟨fun values => values.dedup, fun _ => .refl _⟩

/-- A value that is set on one of two ways to its use. Block 3 is not reachable. -/
def halfSet : Function :=
  let x : SSAValue := ⟨.gpr, 1⟩
  let set : Instr := .new (.copy (.ofSsa x) { reference := .zero })
  let use : Instr := .new (.regOut [.ofSsa x])
  { ssaAlloc := ⟨1⟩
    blocks :=
      { blocks := [⟨⟨0⟩, false, []⟩, ⟨⟨1⟩, false, [set]⟩, ⟨⟨2⟩, false, [use]⟩, ⟨⟨3⟩, false, [use]⟩]
        edges := [(0, 1), (0, 2), (1, 2), (3, 2)] } }

theorem Function.fixEntryLiveIn_iff_halfSet : ∃ f',
    halfSet.fixEntryLiveIn .asInserted false = .ok f' ∧ EntryFixed halfSet f' := by
  have wf : halfSet.WellFormed := Function.wellFormed_of_noPhis (by decide) (by decide) (by decide)
  refine (Function.fixEntryLiveIn_iff .asInserted false wf (by decide)).1 ⟨?_, ?_, ?_⟩
  · intro b _ instr member
    have all : ∀ bb ∈ halfSet.blocks.blocks, ∀ instr ∈ bb.instrs, instr.isClean = true := by decide
    obtain ⟨bb, inBlocks, inside⟩ := Function.mem_instrs member
    exact all bb inBlocks instr inside
  · exact fun _ => ⟨false, by decide⟩
  · have alone : ∀ edge ∈ halfSet.blocks.edges, edge.2 ≠ 0 := by decide
    exact Function.carriesNothing_of_entry (fun p edge => alone _ edge rfl) _

/-- A function that reads a value nobody defines. -/
def reader : Function :=
  let x : SSAValue := ⟨.gpr, 1⟩
  { ssaAlloc := ⟨1⟩
    blocks := { blocks := [⟨⟨0⟩, false, [.new (.regOut [.ofSsa x])]⟩], edges := [] } }

/-- The function comes out as it is, with the value live into its entry. -/
theorem Function.fixEntryLiveIn_reader :
    reader.fixEntryLiveIn .asInserted false = .ok reader ∧ reader.LiveIn ⟨.gpr, 1⟩ 0 ∧
      ¬ ∃ f', reader.fixEntryLiveIn .asInserted false = .ok f' ∧ EntryFixed reader f' := by
  have same := EntryLiveIn.fixEntryLiveIn_none (f := reader) .asInserted false (by decide) rfl
  have live : reader.LiveIn ⟨.gpr, 1⟩ 0 := 
    @Function.LiveIn.use reader _ 0 [] _ [] rfl (by decide) (by decide)
  refine ⟨same, live, ?_⟩
  rintro ⟨f', returned, fixed⟩
  rw [same] at returned
  cases returned
  exact fixed.notLiveIn _ live

/-- A loop through the entry: block 1 sets `y` to `z`, and the entry computes `z` from the `y` of
the last time. -/
def carrier : Function :=
  let y : SSAValue := ⟨.gpr, 1⟩
  let z : SSAValue := ⟨.gpr, 2⟩
  let next : Instr := .new (.other ⟨"IAdd3", true⟩ [.ofSsa z] [.ofSsa y])
  let set : Instr := .new (.copy (.ofSsa y) (.ofSsa z))
  { ssaAlloc := ⟨2⟩
    blocks :=
      { blocks := [⟨⟨0⟩, false, [next]⟩, ⟨⟨1⟩, false, [set, .new (.regOut [.ofSsa z])]⟩]
        edges := [(0, 1), (1, 0)] } }

/-- The entry takes `y` away whenever it is visited, so that the use of `z` in block 1 reads another
value, although the one definition of `z` is on every path to it. -/
theorem Function.fixEntryLiveIn_carrier :
    ¬ ∃ f', carrier.fixEntryLiveIn .asInserted false = .ok f' ∧ EntryFixed carrier f' := by
  intro fixed
  have wf : carrier.WellFormed := Function.wellFormed_of_noPhis (by decide) (by decide) (by decide)
  have clean : ∀ b, carrier.blocks.Reaches b → ∀ instr ∈ carrier.instrs b,
      instr.isClean = true := by
    intro b _ instr member
    have all : ∀ bb ∈ carrier.blocks.blocks, ∀ instr ∈ bb.instrs, instr.isClean = true := by decide
    obtain ⟨bb, inBlocks, inside⟩ := Function.mem_instrs member
    exact all bb inBlocks instr inside
  have fixable := EntryLiveIn.fixable_of_fixed .asInserted false wf (by decide) clean fixed
  rw [Function.EntryFixable, if_neg (by decide)] at fixable
  -- The second visit to block 1.
  have path : carrier.blocks.PathTo 0 [0, 1, 0] 1 :=
    ((CFG.PathTo.root.step (b := 1) (by decide)).step (b := 0) (by decide)).step (by decide)
  let use : Instr := .new (.regOut [.ofSsa ⟨.gpr, 2⟩])
  let site : Site := ⟨[0, 1, 0], 1, (carrier.instrs 1).take 1, use⟩
  have member : site ∈ carrier.sites ([0, 1, 0] ++ [1]) := mem_of_getElem? (i := 5) rfl
  have settled : carrier.Settled site.b site.pre ⟨.gpr, 2⟩ := by
    intro before path
    exact .inl (mem_flatMap.mpr ⟨0, path.root_mem.resolve_left (by decide), by decide⟩)
  exact fixable.2.2 [0, 1, 0] 1 path site member (by decide) ⟨.gpr, 2⟩ (by decide) settled
    (by decide)

/-- A value that is only defined under a guard that is always false, and used. -/
def neverSet : Function :=
  let x : SSAValue := ⟨.gpr, 1⟩
  { ssaAlloc := ⟨1⟩
    blocks :=
      { blocks := [⟨⟨0⟩, false,
          [⟨⟨.none, true⟩, .copy (.ofSsa x) { reference := .zero }⟩, .new (.regOut [.ofSsa x])]⟩]
        edges := [] } }

/-- Dead-code elimination takes the definition away and leaves the use. -/
theorem Function.fixEntryLiveIn_neverSet :
    ¬ ∃ f', neverSet.fixEntryLiveIn .asInserted false = .ok f' ∧ EntryFixed neverSet f' := by
  rintro ⟨f', returned, fixed⟩
  have block : f'.instrs 0 = [.new (.regOut [.ofSsa ⟨.gpr, 3⟩])] := by
    have swept : neverSet.fixEntryLiveIn .asInserted false = .ok { ssaAlloc := ⟨3⟩, blocks :=
      { blocks := [⟨⟨0⟩, false, [.new (.regOut [.ofSsa ⟨.gpr, 3⟩])]⟩], edges := [] } } := rfl
    rw [swept] at returned
    cases returned
    rfl
  have first : f'.instrs 0 = [] ++ [.new (.regOut [.ofSsa ⟨.gpr, 3⟩])] := block
  exact fixed.notLiveIn ⟨.gpr, 3⟩ (.use first (by decide) (by simp))

end CoralReef
