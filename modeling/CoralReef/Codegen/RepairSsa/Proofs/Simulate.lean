import CoralReef.Codegen.RepairSsa.Proofs.Place

/-!
# Running a renamed block

A renamed block does what the original does: wherever a name has a version, what stands for the
version holds the value of the name.
-/

open List
open Function (update update_of_ne update_self)

namespace CoralReef.RepairSsa

variable {V : Type} {f : Function} {multi : SSAValue → Bool} {rep : SSAValue → SSAValue}
  {limit : Nat} {cur cur' : SSAValue → Option SSAValue}

/-- What stands for the version of a name holds its value. -/
structure Agree (limit : Nat) (multi : SSAValue → Bool) (rep : SSAValue → SSAValue)
    (cur : SSAValue → Option SSAValue) (vals vals' : SSAValue → V) : Prop where
  version : ∀ y v, multi y = true → cur y = some v → vals' (rep v) = vals y
  single : ∀ y, multi y = false → y.idx ≤ limit → vals' y = vals y

/-- Writing the same values to names and to their new versions. -/
theorem Agree.assign {names versions : List SSAValue}
    (defs : List.Forall₂ (DefOf limit multi) names versions) :
    ∀ {values : List V} {cur : SSAValue → Option SSAValue} {vals vals' : SSAValue → V},
      values.length = names.length → versions.Nodup → (∀ v ∈ versions, rep v = v) →
      (∀ y v, cur y = some v → rep v ∉ versions) → Agree limit multi rep cur vals vals' →
      Agree limit multi rep (enter multi names versions cur)
        (CoralReef.assign vals (names.zip values))
        (CoralReef.assign vals' (versions.zip values)) := by
  induction defs with
  | nil => exact fun _ _ _ _ agree => agree
  | @cons x v names versions isDef _ ih =>
    intro values cur vals vals' length nodup fixed apart agree
    cases values with
    | nil => cases length
    | cons value values =>
      rw [nodup_cons] at nodup
      have fixedV : rep v = v := fixed v mem_cons_self
      rw [enter, zip_cons_cons, zip_cons_cons, assign_cons, assign_cons]
      have old : ∀ y, y ≠ x → ∀ w,
          (if multi x then update cur x (some v) else cur) y = some w →
          cur y = some w := by
        intro y other w present
        split at present
        · rwa [update_of_ne other] at present
        · exact present
      have new : multi x = true → ∀ w,
          (if multi x then update cur x (some v) else cur) x = some w → w = v := by
        intro isMulti w present
        rw [if_pos isMulti, update_self] at present
        cases present
        rfl
      apply ih (Nat.succ.inj length) nodup.2 fun u member => fixed u (mem_cons_of_mem v member)
      · intro y w present inVersions
        by_cases isX : y = x
        · subst isX
          cases isMulti : multi y with
          | true =>
            rw [new isMulti w present, fixedV] at inVersions
            exact nodup.1 inVersions
          | false =>
            rw [if_neg (by simp [isMulti])] at present
            exact apart y w present (mem_cons_of_mem v inVersions)
        · exact apart y w (old y isX w present) (mem_cons_of_mem v inVersions)
      · refine ⟨?_, ?_⟩
        · intro y w isMulti present
          by_cases isX : y = x
          · subst isX
            rw [new isMulti w present, fixedV, update_self, update_self]
          · have present' := old y isX w present
            have differs : rep w ≠ v := by
              intro same
              exact apart y w present' (same ▸ mem_cons_self)
            rw [update_of_ne differs, update_of_ne isX]
            exact agree.version y w isMulti present'
        · intro y isSingle small
          by_cases isX : y = x
          · subst isX
            rw [DefOf, isSingle] at isDef
            have same : v = y := by simpa using isDef
            rw [same, update_self, update_self]
          · have differs : y ≠ v := by
              rintro rfl
              rw [DefOf] at isDef
              split at isDef
              · omega
              · exact isX isDef
            rw [update_of_ne differs, update_of_ne isX]
            exact agree.single y isSingle small

/-- The phis of the function before the pass. -/
def knownPhi (f : Function) (phi : Phi) : Bool := decide (phi.idx < f.phiAlloc.count)

/-- The machines of the original and of the renamed function. -/
structure Sim (f : Function) (multi : SSAValue → Bool) (rep : SSAValue → SSAValue)
    (cur : SSAValue → Option SSAValue) (machine machine' : Machine V) : Prop where
  agree : Agree f.ssaAlloc.count multi rep cur machine.vals machine'.vals
  phis : ∀ phi, knownPhi f phi = true → machine'.phis phi = machine.phis phi
  effects : machine'.effects = machine.effects
  trace : observe (knownPhi f) machine'.trace = observe (knownPhi f) machine.trace

/-- Phis that agree still do after the same writes. -/
theorem foldl_update_agree {known : Phi → Prop} (reads : List (Phi × V)) :
    ∀ {phis phis' : Phi → V}, (∀ phi, known phi → phis' phi = phis phi) →
      ∀ phi, known phi →
        reads.foldl (fun phis entry => update phis entry.1 entry.2) phis' phi =
          reads.foldl (fun phis entry => update phis entry.1 entry.2) phis phi := by
  induction reads with
  | nil => exact fun same => same
  | cons entry reads ih =>
    intro phis phis' same
    rw [foldl_cons, foldl_cons]
    apply ih
    intro phi isKnown
    by_cases here : phi = entry.1
    · rw [here, update_self, update_self]
    · rw [update_of_ne here, update_of_ne here, same phi isKnown]

/-- The operands of the original are small, and its phi destinations are known. -/
structure Tame (f : Function) (instr : Instr) : Prop where
  uses : ∀ x ∈ instr.ssaUses, x.idx ≤ f.ssaAlloc.count
  phis : ∀ dsts, instr.op = .phiDsts dsts → ∀ entry ∈ dsts, knownPhi f entry.1 = true

theorem Sim.reads {machine machine' : Machine V} (sim : Sim f multi rep cur machine machine')
    (old : ∀ v, v.idx ≤ f.ssaAlloc.count → rep v = v) {uses versions : List SSAValue}
    (small : ∀ x ∈ uses, x.idx ≤ f.ssaAlloc.count)
    (isUse : List.Forall₂ (UseOf multi cur) uses versions) :
    (versions.map rep).map machine'.vals = uses.map machine.vals := by
  induction isUse with
  | nil => rfl
  | @cons x v uses versions use _ ih =>
    have isSmall := small x mem_cons_self
    rw [map_cons, map_cons, map_cons,
      ih fun y member => small y (mem_cons_of_mem x member)]
    congr 1
    rw [UseOf] at use
    split at use
    · rename_i isMulti
      exact sim.agree.version x v isMulti use
    · rename_i isSingle
      rw [use, old x isSmall]
      exact sim.agree.single x (by simpa using isSingle) isSmall

/-- One instruction, renamed and remapped, does what the original does. -/
theorem Sim.step (interp : Interp V) {machine machine' : Machine V} {instr instr' out : Instr}
    (sim : Sim f multi rep cur machine machine') (tame : Tame f instr)
    (old : ∀ v, v.idx ≤ f.ssaAlloc.count → rep v = v)
    (skeleton : instr'.skeleton = instr.skeleton)
    (uses : List.Forall₂ (UseOf multi cur) instr.ssaUses instr'.ssaUses)
    (defs : List.Forall₂ (DefOf f.ssaAlloc.count multi) instr.ssaDefs instr'.ssaDefs)
    (remap : Remap rep instr' out) (nodup : instr'.ssaDefs.Nodup)
    (fixed : ∀ v ∈ instr'.ssaDefs, rep v = v)
    (apart : ∀ y v, cur y = some v → rep v ∉ instr'.ssaDefs) :
    Sim f multi rep (enter multi instr.ssaDefs instr'.ssaDefs cur) (interp.step machine instr)
      (interp.step machine' out) := by
  have reads : out.ssaUses.map machine'.vals = instr.ssaUses.map machine.vals := by
    rw [remap.uses]
    exact sim.reads old tame.uses uses
  have same : out.skeleton = instr.skeleton := remap.skeleton.trans skeleton
  have results : interp.results machine' instr.skeleton (instr.ssaUses.map machine.vals) =
      interp.results machine instr.skeleton (instr.ssaUses.map machine.vals) := by
    apply interp.results_congr sim.effects
    intro dsts isPhi entry member
    obtain ⟨dsts', isOp, phis⟩ := Instr.phiDsts_of_skeleton isPhi
    have inPhis : entry.1 ∈ dsts'.map Prod.fst := phis ▸ mem_map_of_mem member
    obtain ⟨entry', member', equal⟩ := mem_map.mp inPhis
    rw [← equal]
    exact sim.phis _ (tame.phis dsts' isOp entry' member')
  rw [Interp.step_eq, Interp.step_eq, reads, same, results, remap.defs]
  refine ⟨?_, ?_, ?_, ?_⟩
  · apply Agree.assign defs ?_ nodup fixed apart sim.agree
    rw [interp.results_length, Instr.skeleton_ssaDefs, length_map]
  · exact foldl_update_agree _ sim.phis
  · simp only [sim.effects]
  · simp only
    rw [observe_append, observe_append, sim.trace]

/-- A version at the end of a list of instructions is from its start, or defined in it. -/
theorem Renamed.range {src outs : List Instr} (renamed : Renamed limit multi cur src outs cur')
    {y v : SSAValue} (present : cur' y = some v) : cur y = some v ∨ v ∈ defsOf outs := by
  induction renamed with
  | nil => exact Or.inl present
  | @snoc src outs mid instr instr' _ _ _ defs ih =>
    rw [defsOf, flatMap_append, mem_append]
    rcases enter_cases defs y with ⟨-, same⟩ | ⟨-, -, w, member, same⟩
    · rw [same] at present
      exact (ih present).imp_right Or.inl
    · rw [same] at present
      cases present
      exact Or.inr (Or.inr (by simpa using member))

/-- A list of instructions, renamed and remapped, does what the original does. -/
theorem Renamed.run (interp : Interp V) {src outs : List Instr}
    (renamed : Renamed f.ssaAlloc.count multi cur src outs cur')
    (old : ∀ v, v.idx ≤ f.ssaAlloc.count → rep v = v) (nodup : (defsOf outs).Nodup)
    (fixed : ∀ v ∈ defsOf outs, rep v = v) (apart : ∀ y v, cur y = some v → rep v ∉ defsOf outs)
    (tame : ∀ instr ∈ src, Tame f instr) :
    ∀ {base : List Instr} {machine machine' : Machine V}, List.Forall₂ (Remap rep) outs base →
      Sim f multi rep cur machine machine' →
      Sim f multi rep cur' (interp.run src machine) (interp.run base machine') := by
  induction renamed with
  | nil =>
    intro base machine machine' remapped sim
    cases remapped
    exact sim
  | @snoc src outs mid instr instr' earlier skeleton uses defs ih =>
    intro base machine machine' remapped sim
    obtain ⟨base, out, rest, rfl, remappedBase, remap, remappedRest⟩ := Remap.split remapped
    cases remappedRest
    have split : defsOf (outs ++ [instr']) = defsOf outs ++ instr'.ssaDefs := by simp [defsOf]
    rw [split] at nodup fixed apart
    rw [nodup_append] at nodup
    have sim' := ih nodup.1 (fun v member => fixed v (mem_append_left _ member))
      (fun y v present member => apart y v present (mem_append_left _ member))
      (fun other member => tame other (mem_append_left _ member)) remappedBase sim
    rw [Interp.run_append, Interp.run_append]
    refine sim'.step interp (tame instr (by simp)) old skeleton uses defs remap nodup.2.1
      (fun v member => fixed v (mem_append_right _ member)) ?_
    intro y v present member
    rcases earlier.range present with atStart | defined
    · exact apart y v atStart (mem_append_right _ member)
    · have same := fixed v (mem_append_left _ defined)
      rw [same] at member
      exact nodup.2.2 v defined v member rfl

/-- Single names keep their definitions. -/
theorem Renamed.keeps_single {src outs : List Instr}
    (renamed : Renamed limit multi cur src outs cur') {x : SSAValue} (isSingle : multi x = false)
    (defined : x ∈ defsOf src) : x ∈ defsOf outs := by
  induction renamed with
  | nil => exact defined
  | @snoc src outs mid instr instr' _ _ _ defs ih =>
    rw [defsOf, flatMap_append, mem_append] at defined ⊢
    rcases defined with earlier | here
    · exact Or.inl (ih earlier)
    · right
      have kept : ∀ {names versions : List SSAValue},
          List.Forall₂ (DefOf limit multi) names versions → x ∈ names → x ∈ versions := by
        intro names versions defs member
        induction defs with
        | nil => exact member
        | @cons y v _ _ isDef _ ih =>
          rcases mem_cons.mp member with rfl | member
          · rw [DefOf, isSingle] at isDef
            have same : v = x := by simpa using isDef
            rw [same]
            exact mem_cons_self
          · exact mem_cons_of_mem _ (ih member)
      simpa using kept defs (by simpa using here)

/-- The uses of a list of instructions, renamed and remapped, are in scope. -/
theorem Renamed.scoped {src outs : List Instr} {defined : SSAValue → Prop}
    (renamed : Renamed f.ssaAlloc.count multi cur src outs cur')
    (old : ∀ v, v.idx ≤ f.ssaAlloc.count → rep v = v) (fixed : ∀ v ∈ defsOf outs, rep v = v)
    (atStart : ∀ y v, cur y = some v → defined (rep v))
    (tame : ∀ instr ∈ src, Tame f instr)
    (single : ∀ pre instr post, src = pre ++ instr :: post → ∀ x ∈ instr.ssaUses,
      multi x = false → defined x ∨ x ∈ defsOf pre) :
    ∀ {base : List Instr}, List.Forall₂ (Remap rep) outs base → Scoped defined base := by
  induction renamed with
  | nil =>
    intro base remapped
    cases remapped
    trivial
  | @snoc src outs mid instr instr' earlier skeleton uses defs ih =>
    intro base remapped
    obtain ⟨base, out, rest, rfl, remappedBase, remap, remappedRest⟩ := Remap.split remapped
    cases remappedRest
    have split : defsOf (outs ++ [instr']) = defsOf outs ++ instr'.ssaDefs := by simp [defsOf]
    rw [split] at fixed
    rw [scoped_append]
    refine ⟨?_, ?_, trivial⟩
    · apply ih (fun v member => fixed v (mem_append_left _ member))
        (fun other member => tame other (mem_append_left _ member)) ?_ remappedBase
      intro pre other post isSplit x used isSingle
      exact single pre other (post ++ [instr]) (by rw [isSplit]; simp) x used isSingle
    · intro u used
      rw [Remap.flatMap_ssaDefs remappedBase]
      rw [remap.uses, mem_map] at used
      obtain ⟨v, member, rfl⟩ := used
      obtain ⟨x, isUse, use⟩ : ∃ x ∈ instr.ssaUses, UseOf multi mid x v := by
        obtain ⟨i, inside, at_⟩ := getElem_of_mem member
        have inside' : i < instr.ssaUses.length := by rwa [uses.length_eq]
        refine ⟨instr.ssaUses.get ⟨i, inside'⟩, get_mem .., ?_⟩
        rw [← at_]
        exact uses.get inside' inside
      rw [UseOf] at use
      split at use
      · rcases earlier.range use with present | inOuts
        · exact Or.inl (atStart x v present)
        · right
          rwa [fixed v (mem_append_left _ inOuts)]
      · rename_i isSingle
        have isSingle' : multi x = false := by simpa using isSingle
        have small := (tame instr (by simp)).uses x isUse
        rw [use, old x small]
        rcases single src instr [] rfl x isUse isSingle' with present | inSrc
        · exact Or.inl present
        · exact Or.inr (earlier.keeps_single isSingle' inSrc)

/-!
## The repaired function is in SSA form

Every value of the repaired function has one definition, and the definitions of what its
instructions and phi sources use lie on every path to them.
-/

variable {f f' : Function} {multi : SSAValue → Bool} {outs : Nat → List Instr} {g : Ghost}
  {st : RepairState} {phis : Nat → List PhiTracker} {rep : SSAValue → SSAValue}

/-- The undefs put in front of a block. -/
def undefsOf (st : RepairState) (b : Nat) : List SSAValue :=
  undefsIn st.synthUndefs b

/-- The repaired function, put together from what the parts of the pass leave. -/
structure Repaired (f : Function) (multi : SSAValue → Bool) (outs : Nat → List Instr) (g : Ghost)
    (st : RepairState) (phis : Nat → List PhiTracker) (rep : SSAValue → SSAValue)
    (f' : Function) : Prop where
  wf : f.WellFormed
  reached : f.ReachedByDef
  counted : ∀ x, multi x = false → f.allDefs.count x ≤ 1
  filled : Filled f multi outs g st
  stage : Stage f outs g st phis rep
  edges : f'.blocks.edges = f.blocks.edges
  len : f'.blocks.len = f.blocks.len
  block : ∀ b, b < f.blocks.len → ∃ out, Placed rep phis f.blocks b (outs b) out ∧
    f'.instrs b = (undefsOf st b).map undefInstr ++ out

theorem headPairs_snd (trackers : List PhiTracker) :
    (headPairs trackers).map Prod.snd = trackers.map PhiTracker.dst := by
  rw [headPairs, map_map]
  rfl

theorem undefs_defs (st : RepairState) (b : Nat) :
    ((undefsOf st b).map undefInstr).flatMap Instr.ssaDefs = undefsOf st b := by
  induction undefsOf st b with
  | nil => rfl
  | cons v rest ih =>
    rw [map_cons, flatMap_cons, ih]
    rfl

theorem mem_undefsOf {b : Nat} {v : SSAValue} : v ∈ undefsOf st b ↔ (b, v) ∈ st.synthUndefs := by
  simp [undefsOf, undefsIn]

namespace Repaired

variable (repaired : Repaired f multi outs g st phis rep f')
variable {b : Nat} {v : SSAValue}

include repaired

theorem dead (x : SSAValue) : ¬ f.LiveIn x 0 := repaired.reached.not_liveIn x

theorem tame {instr : Instr} (member : instr ∈ f.instrs b) : Tame f instr where
  uses := fun x used => repaired.wf.ssas b instr member x (mem_append_left _ used)
  phis := by
    intro dsts isPhi entry inDsts
    exact decide_eq_true (repaired.wf.dstPhis b dsts instr member isPhi entry inDsts)

/-- The single names that each block defines. -/
theorem singles :
    (∀ b < f.blocks.len, ((f.defs b).filter fun x => !multi x).Nodup) ∧
      ∀ b < f.blocks.len, ∀ c < f.blocks.len, b ≠ c → ∀ x, multi x = false → x ∈ f.defs b →
        x ∉ f.defs c := by
  have nodup : (f.allDefs.filter fun x => !multi x).Nodup := by
    rw [nodup_iff_count_le_one]
    intro x
    by_cases isSingle : multi x = false
    · exact (filter_sublist.count_le x).trans (repaired.counted x isSingle)
    · rw [count_eq_zero_of_not_mem]
      · omega
      · rw [mem_filter]
        simp [isSingle]
  rw [Function.allDefs_eq, filter_flatMap] at nodup
  refine ⟨fun b inside => (nodup_flatMap.mp nodup).1 b (mem_range.mpr inside), ?_⟩
  intro b insideB c insideC differs x isSingle inB inC
  exact apart_of_nodup nodup (mem_range.mpr insideB) (mem_range.mpr insideC) differs
    (mem_filter.mpr ⟨inB, by simp [isSingle]⟩)
    (mem_filter.mpr ⟨inC, by simp [isSingle]⟩)

theorem outs_nodup (inside : b < f.blocks.len) : (defsOf (outs b)).Nodup := by
  have old := repaired.filled.progress.old b
  have new := repaired.filled.progress.new b
  have singles := repaired.singles.1 b inside
  rw [nodup_iff_count_le_one] at new ⊢
  have oldCount := nodup_iff_count_le_one.mp (show ((defsOf (outs b)).filter
    fun v => decide (v.idx ≤ f.ssaAlloc.count)).Nodup from old ▸ singles)
  intro v
  by_cases isOld : v.idx ≤ f.ssaAlloc.count
  · rw [← count_filter (p := fun v : SSAValue => decide (v.idx ≤ f.ssaAlloc.count))
      (by simpa using isOld)]
    exact oldCount v
  · rw [← count_filter (p := fun v : SSAValue => decide (f.ssaAlloc.count < v.idx))
      (by simpa using isOld)]
    exact new v

/-- The old values among the definitions of a rewritten block are its single names. -/
theorem old_out (member : v ∈ defsOf (outs b)) (isOld : v.idx ≤ f.ssaAlloc.count) :
    multi v = false ∧ v ∈ f.defs b := by
  have inFilter : v ∈ (defsOf (outs b)).filter fun v => decide (v.idx ≤ f.ssaAlloc.count) :=
    mem_filter.mpr ⟨member, by simpa using isOld⟩
  rw [repaired.filled.progress.old b, mem_filter] at inFilter
  exact ⟨by simpa using inFilter.2, inFilter.1⟩

/-- A version defined at the start of a block is not defined in a block. -/
theorem head_not_out {b c : Nat} (head : headDefs st phis b v) :
    v ∉ defsOf (outs c) := by
  intro member
  obtain ⟨-, kind, above⟩ := repaired.stage.head_info repaired.filled head
  exact kind (repaired.filled.progress.book.out c v member above).2.2

theorem head_info (head : headDefs st phis b v) :
    f.ssaAlloc.count < v.idx ∧ (g.info v).block = b := by
  obtain ⟨block, -, above⟩ := repaired.stage.head_info repaired.filled head
  exact ⟨above, block⟩

theorem dsts_nodup (b : Nat) : ((phis b).map PhiTracker.dst).Nodup := by
  have plain : (phis b).Nodup := List.Nodup.of_map _ (repaired.stage.nodup b)
  have nodup := repaired.stage.nodup b
  rw [nodup_map_iff_inj_on plain] at nodup ⊢
  have origOf : ∀ tracker ∈ phis b, (g.info tracker.dst).orig = tracker.orig := by
    intro tracker member
    obtain ⟨old, inOld, -, orig, dst, -⟩ := repaired.stage.phi b tracker member
    have entry := (repaired.filled.progress.book.phi b old inOld).1
    rw [dst, orig]
    exact (repaired.filled.progress.book.entry b _ _ entry).2.2.1
  intro tracker member tracker' member' same
  apply nodup tracker member tracker' member'
  rw [← origOf tracker member, ← origOf tracker' member', same]

/-- The definitions of a block of the repaired function. -/
theorem defs_perm (inside : b < f.blocks.len) :
    (f'.defs b).Perm (undefsOf st b ++ ((phis b).map PhiTracker.dst ++ defsOf (outs b))) := by
  obtain ⟨out, ⟨base, mid, remapped, headed, tailed⟩, isNew⟩ := repaired.block b inside
  rw [Function.defs, isNew, flatMap_append, undefs_defs]
  refine List.Perm.append_left _ ?_
  rw [tailed.defs, ← headPairs_snd, defsOf, ← Remap.flatMap_ssaDefs remapped]
  exact headed.defs

theorem defs_cases (inside : b < f.blocks.len) (member : v ∈ f'.defs b) :
    headDefs st phis b v ∨ v ∈ defsOf (outs b) := by
  rw [(repaired.defs_perm inside).mem_iff, mem_append, mem_append, mem_undefsOf,
    mem_map] at member
  rcases member with undef | ⟨tracker, inPhis, rfl⟩ | out
  · exact Or.inl (Or.inr undef)
  · exact Or.inl (Or.inl ⟨tracker, inPhis, rfl⟩)
  · exact Or.inr out

theorem mem_defs (inside : b < f.blocks.len)
    (defined : headDefs st phis b v ∨ v ∈ defsOf (outs b)) : v ∈ f'.defs b := by
  rw [(repaired.defs_perm inside).mem_iff, mem_append, mem_append, mem_undefsOf,
    mem_map]
  rcases defined with (⟨tracker, inPhis, same⟩ | undef) | out
  · exact Or.inr (Or.inl ⟨tracker, inPhis, same⟩)
  · exact Or.inl undef
  · exact Or.inr (Or.inr out)

theorem block_nodup (inside : b < f.blocks.len) : (f'.defs b).Nodup := by
  have book := repaired.filled.progress.book
  rw [(repaired.defs_perm inside).nodup_iff, nodup_append, nodup_append]
  refine ⟨?_, ⟨repaired.dsts_nodup b, repaired.outs_nodup inside, ?_⟩, ?_⟩
  · rw [undefsOf, undefsIn, nodup_reverse]
    exact book.undefNodup.sublist (filter_sublist.map _)
  · intro v isDst w isOut same
    obtain ⟨tracker, inPhis, rfl⟩ := mem_map.mp isDst
    exact repaired.head_not_out (Or.inl ⟨tracker, inPhis, rfl⟩) (same ▸ isOut)
  · intro v isUndef w other same
    subst same
    rw [mem_undefsOf] at isUndef
    rcases mem_append.mp other with isDst | isOut
    · obtain ⟨tracker, inPhis, rfl⟩ := mem_map.mp isDst
      obtain ⟨old, inOld, -, -, dst, -⟩ := repaired.stage.phi b tracker inPhis
      have kind := (book.phi b old inOld).2.2.1
      rw [← dst, (book.undefs b _ isUndef).2.2.2.2] at kind
      cases kind
    · exact repaired.head_not_out (Or.inr isUndef) isOut

/-- Every value of the repaired function has one definition. -/
theorem unique : f'.allDefs.Nodup := by
  have book := repaired.filled.progress.book
  rw [Function.allDefs_eq, repaired.len, nodup_flatMap]
  refine ⟨fun b member => repaired.block_nodup (mem_range.mp member), ?_⟩
  have from_ : ∀ {b : Nat}, b < f.blocks.len → ∀ v ∈ f'.defs b,
      f.ssaAlloc.count < v.idx ∧ (g.info v).block = b ∨
        v.idx ≤ f.ssaAlloc.count ∧ multi v = false ∧ v ∈ f.defs b := by
    intro b inside v member
    rcases repaired.defs_cases inside member with head | out
    · exact Or.inl (repaired.head_info head)
    · by_cases isOld : v.idx ≤ f.ssaAlloc.count
      · exact Or.inr ⟨isOld, repaired.old_out out isOld⟩
      · exact Or.inl ⟨by omega, (book.out b v out (by omega)).2.1⟩
  refine List.Nodup.pairwise_of_forall_ne nodup_range ?_
  intro b insideB c insideC differs v inB inC
  rw [mem_range] at insideB insideC
  rcases from_ insideB v inB with ⟨above, block⟩ | ⟨small, isSingle, defined⟩ <;>
    rcases from_ insideC v inC with ⟨above', block'⟩ | ⟨small', isSingle', defined'⟩
  · exact differs (block.symm.trans block')
  · omega
  · omega
  · exact repaired.singles.2 b insideB c insideC differs v isSingle defined defined'

/-- On a path from the entry, what stands for the version that a block starts with is defined in
the blocks before, or by a phi of the block. -/
theorem atStart {before : List Nat} (path : f.blocks.PathTo 0 before b) {x v : SSAValue}
    (present : g.entry b x = some v) :
    rep v ∈ before.flatMap f'.defs ∨ rep v ∈ (headPairs (phis b)).map Prod.snd := by
  have book := repaired.filled.progress.book
  have live := (book.entry b x v present).2.1
  rcases repaired.stage.defined repaired.filled repaired.dead (Or.inl rfl) path present with
    (⟨tracker, member, same⟩ | undef) | ⟨c, member, defined⟩
  · right
    rw [headPairs_snd]
    exact mem_map.mpr ⟨tracker, member, same⟩
  · obtain ⟨notEntry, absent, -⟩ := book.undefs b _ undef
    cases path with
    | root => exact absurd rfl notEntry
    | step _ edge =>
      have isPred := CFG.mem_predecessors.mpr edge
      rw [absent] at isPred
      simp at isPred
  · left
    have inside : c < f.blocks.len := by
      obtain ⟨pre, post, split⟩ := append_of_mem member
      cases path with
      | root => simp at member
      | @step before p _ path edge =>
        rcases mem_append.mp member with earlier | last
        · obtain ⟨pre, post, split⟩ := append_of_mem earlier
          rcases CFG.PathTo.inside repaired.wf.edges (path.cut split) with rfl | inside
          · exact Nat.lt_of_le_of_lt (Nat.zero_le b) (repaired.wf.edges _ edge).2
          · exact inside
        · rw [mem_singleton] at last
          rw [last]
          exact (repaired.wf.edges _ edge).1
    exact mem_flatMap.mpr ⟨c, member, repaired.mem_defs inside defined⟩

/-- No undef is put in a block that can be reached from the entry. -/
theorem no_undefs {before : List Nat} (path : f.blocks.PathTo 0 before b) :
    undefsOf st b = [] := by
  rw [eq_nil_iff_forall_not_mem]
  intro v member
  obtain ⟨notEntry, absent, -⟩ :=
    repaired.filled.progress.book.undefs b v (mem_undefsOf.mp member)
  cases path with
  | root => exact notEntry rfl
  | step _ edge =>
    have isPred := CFG.mem_predecessors.mpr edge
    rw [absent] at isPred
    simp at isPred

/-- What a block contributes to a phi of a successor: the source stands for the version that the
name of the phi has at the end of the block. -/
theorem mem_tailPairs {entry : Phi × SSAValue}
    (member : entry ∈ tailPairs rep phis b (f.blocks.successors b)) :
    ∃ s, ∃ tracker ∈ phis s, ∃ u, (b, s) ∈ f.blocks.edges ∧ tracker.phi = entry.1 ∧
      st.blockDefs b tracker.orig = some u ∧ rep u = entry.2 := by
  obtain ⟨s, isSucc, inPairs⟩ := mem_flatMap.mp member
  obtain ⟨tracker, inPhis, isEntry⟩ := mem_filterMap.mp inPairs
  obtain ⟨u, found, rfl⟩ := Option.map_eq_some_iff.mp isEntry
  obtain ⟨old, inOld, -, orig, -, srcs⟩ := repaired.stage.phi s tracker inPhis
  have same := srcs b
  rw [found, Option.map_some] at same
  obtain ⟨u₀, found₀, equal⟩ := Option.map_eq_some_iff.mp same.symm
  obtain ⟨-, present⟩ := repaired.filled.progress.book.srcs s old inOld b u₀ found₀
  exact ⟨s, tracker, inPhis, u₀, CFG.mem_successors.mp isSucc, rfl, orig ▸ present, equal⟩

/-- Every use of the repaired function is reached by its definition. -/
theorem reachedByDef : f'.ReachedByDef := by
  intro before b pre instr post path' split x used
  have path := CFG.PathTo.congr repaired.edges path'
  have inside : b < f.blocks.len := by
    by_contra outside
    rw [Function.instrs_eq_nil (by rw [repaired.len]; omega)] at split
    simp at split
  have book := repaired.filled.progress.book
  obtain ⟨out, ⟨base, mid, remapped, headed, tailed⟩, isNew⟩ := repaired.block b inside
  rw [repaired.no_undefs path, map_nil, nil_append] at isNew
  have baseDefs : base.flatMap Instr.ssaDefs = defsOf (outs b) := Remap.flatMap_ssaDefs remapped
  have renamed := repaired.filled.progress.renamed b
  have baseHolds : Scoped (fun v => v ∈ before.flatMap f'.defs ∨
      v ∈ (headPairs (phis b)).map Prod.snd) base := by
    apply renamed.scoped repaired.stage.old (repaired.stage.out b) ?_
      (fun other member => repaired.tame member) ?_ remapped
    · exact fun y v present => repaired.atStart path present
    · intro pre' other post' isSplit y isUse isSingle
      rcases repaired.reached before b pre' other post' path isSplit y isUse with earlier | here
      · left
        left
        obtain ⟨c, member, defined⟩ := mem_flatMap.mp earlier
        have insideC : c < f.blocks.len := by
          by_contra outside
          rw [Function.defs, Function.instrs_eq_nil (by omega)] at defined
          simp at defined
        refine mem_flatMap.mpr ⟨c, member, repaired.mem_defs insideC (Or.inr ?_)⟩
        exact (repaired.filled.progress.renamed c).keeps_single isSingle defined
      · exact Or.inr here
  have holds : Scoped (fun v => v ∈ before.flatMap f'.defs) (f'.instrs b) := by
    rw [isNew]
    apply tailed.holds _ (headed.holds _ baseHolds)
    intro v member
    obtain ⟨entry, inPairs, rfl⟩ := mem_map.mp member
    obtain ⟨s, tracker, -, u, -, -, present, same⟩ := repaired.mem_tailPairs inPairs
    rw [← same]
    have inMid : ∀ w, w ∈ (headPairs (phis b)).map Prod.snd ∨ w ∈ defsOf (outs b) →
        w ∈ mid.flatMap Instr.ssaDefs := by
      intro w defined
      rw [headed.defs.mem_iff, mem_append, baseDefs]
      exact defined
    obtain ⟨-, -, -, atStart | out⟩ := book.defs b _ u present
    · exact (repaired.atStart path atStart).imp_right fun h => inMid _ (Or.inl h)
    · right
      rw [repaired.stage.out b u out]
      exact inMid _ (Or.inr out)
  exact holds.split split used

end Repaired

end CoralReef.RepairSsa
