import CoralReef.Codegen.Ir.Proofs.Step
import CoralReef.Codegen.Liveness.Proofs.Fixpoint
import CoralReef.Stubs.BitSet.Proofs.Members
import CoralReef.Stubs.Dataflow.Least
import Mathlib.Data.Set.Finite.List

/-!
# Liveness is exact

A bit set is below another when it is a subset with no more words. The loop climbs in this order, so
it ends, and on the blocks that can be reached its sets hold the values that some path uses before
it defines them.
-/

namespace CoralReef

namespace BitSet

instance : PartialOrder BitSet where
  le s t := (∀ i, s.contains i = true → t.contains i = true) ∧
    s.words.length ≤ t.words.length ∧ s.capacity ≤ t.capacity
  le_refl s := ⟨fun _ member => member, le_rfl, le_rfl⟩
  le_trans _ _ _ first second := ⟨fun i member => second.1 i (first.1 i member),
    first.2.1.trans second.2.1, first.2.2.trans second.2.2⟩
  le_antisymm s t first second := eq_iff.mpr
    ⟨members_ext fun i => by rw [mem_members]; exact ⟨first.1 i, second.1 i⟩,
      first.2.1.antisymm second.2.1, first.2.2.antisymm second.2.2⟩

instance : OrderBot BitSet where
  bot := .new 0
  bot_le _ := ⟨fun _ member => (nomatch member), Nat.zero_le _, Nat.zero_le _⟩

theorem length_union (s t : BitSet) :
    (s.union t).words.length = max s.words.length t.words.length := by
  unfold union
  dsimp only
  rw [length_zipWords, resize_of_length, length_resize]
  omega

theorem union_mono {s t s' t' : BitSet} (first : s ≤ s') (second : t ≤ t') :
    s.union t ≤ s'.union t' := by
  refine ⟨?_, ?_, first.2.2⟩
  · intro i
    rw [contains_union, contains_union, Bool.or_eq_true, Bool.or_eq_true]
    exact Or.imp (first.1 i) (second.1 i)
  · rw [length_union, length_union]
    exact max_le_max first.2.1 second.2.1

/-- Bit sets of a limited size do not climb for ever: there are finitely many. -/
theorem wellFoundedGT {Q : BitSet → Prop} (n : Nat)
    (bounded : ∀ s, Q s → s.words.length ≤ n ∧ s.capacity ≤ n) : WellFoundedGT {s // Q s} := by
  have : Finite (BitVec 64) := .of_injective BitVec.toFin fun _ _ => BitVec.toFin_inj.mp
  have : Finite {s // Q s} := by
    refine ((((List.finite_length_le (BitVec 64) n).prod (Set.finite_Iic n)).preimage
      (f := fun s : BitSet => (s.words, s.capacity)) ?_).subset bounded).to_subtype
    rintro ⟨_, _⟩ - ⟨_, _⟩ - ⟨⟩
    rfl
  infer_instance

end BitSet

open BitSet CFG Dataflow

theorem CFG.Reached.path {α : Type} {cfg : CFG α} {b : Nat} (reached : cfg.Reached b) :
    ∃ before, cfg.PathTo 0 before b := by
  obtain ⟨nodes, trail⟩ := reached
  induction trail with
  | start => exact ⟨[], .root⟩
  | step _ next ih =>
    obtain ⟨before, path⟩ := ih
    exact ⟨_, path.step next.1⟩

namespace Function

variable {f : Function} {b : Nat} {x y : SSAValue}

/-- The value occurs in the function. -/
def HasValue (f : Function) (x : SSAValue) : Prop :=
  ∃ b, ∃ instr ∈ f.instrs b, x ∈ instr.ssaUses ++ instr.ssaDefs

/-- Each number names one value. -/
def Numbered (f : Function) : Prop := ∀ x y, f.HasValue x → f.HasValue y → x.idx = y.idx → x = y

/-- Some use of `x` can be reached from the end of block `b` before any definition of it. -/
def LiveOut (f : Function) (x : SSAValue) (b : Nat) : Prop :=
  ∃ s, (b, s) ∈ f.blocks.edges ∧ f.LiveIn x s

theorem hasValue_of_defs (isDef : x ∈ f.defs b) : f.HasValue x := by
  obtain ⟨instr, member, isDef⟩ := List.mem_flatMap.mp isDef
  exact ⟨b, instr, member, List.mem_append_right _ isDef⟩

theorem LiveIn.hasValue (live : f.LiveIn x b) : f.HasValue x := by
  induction live with
  | @use b _ instr _ split used _ =>
    exact ⟨b, instr, by simp [split], List.mem_append_left _ used⟩
  | through _ _ _ ih => exact ih

/-- The instruction at a place of a function defines the value. -/
def DefinedAt (f : Function) (x : SSAValue) (s : Nat × Nat) : Prop :=
  ∃ instr, (f.instrs s.1)[s.2]? = some instr ∧ x ∈ instr.ssaDefs

theorem DefinedAt.hasValue {s : Nat × Nat} : f.DefinedAt x s → f.HasValue x
  | ⟨instr, found, isDef⟩ => ⟨_, instr, List.mem_of_getElem? found, List.mem_append_right _ isDef⟩

theorem mem_defSites {s : Nat × Nat} :
    (x, s) ∈ SimpleLiveness.defSites f ↔ f.DefinedAt x s := by
  obtain ⟨b, ip⟩ := s
  simp only [SimpleLiveness.defSites_eq, List.mem_reverse, List.mem_flatMap, List.mem_map,
    Prod.exists, Prod.mk.injEq, List.mem_zipIdx_iff_getElem?, DefinedAt, instrs]
  cases here : f.blocks.blocks[b]? <;> grind

/-- A value has one place. -/
theorem StrictSsa.lookup_defSites (strict : f.StrictSsa) {s : Nat × Nat}
    (defined : f.DefinedAt x s) : (SimpleLiveness.defSites f).lookup x = some s := by
  have nodup : ((SimpleLiveness.defSites f).map Prod.fst).Nodup := by
    rw [SimpleLiveness.map_fst_defSites, List.nodup_reverse]
    exact strict.unique
  cases found : (SimpleLiveness.defSites f).lookup x with
  | none => simpa using List.lookup_eq_none_iff.mp found _ (mem_defSites.mpr defined)
  | some t =>
    obtain ⟨before, after, split, -⟩ := List.lookup_eq_some_iff.mp found
    have member : (x, t) ∈ SimpleLiveness.defSites f := by simp [split]
    rw [(Prod.mk.inj (List.inj_on_of_nodup_map nodup member (mem_defSites.mpr defined) rfl)).2]

def UsedAt (f : Function) (x : SSAValue) (s : Nat × Nat) : Prop :=
  ∃ instr, (f.instrs s.1)[s.2]? = some instr ∧ x ∈ instr.ssaUses

/-- Some use of `x` can be reached from behind a place before any definition of it. -/
def LiveAfter (f : Function) (x : SSAValue) (s : Nat × Nat) : Prop :=
  (∃ j > s.2, f.UsedAt x (s.1, j) ∧ ∀ k > s.2, k < j → ¬ f.DefinedAt x (s.1, k)) ∨
  (∀ k > s.2, ¬ f.DefinedAt x (s.1, k)) ∧ f.LiveOut x s.1

/-- Places in the order of the blocks and of their instructions. -/
def Earlier (s t : Nat × Nat) : Prop := s.1 < t.1 ∨ s.1 = t.1 ∧ s.2 < t.2

theorem StrictSsa.liveAfter_iff (strict : f.StrictSsa) {s t : Nat × Nat}
    (defined : f.DefinedAt x s) (earlier : Earlier s t) :
    f.LiveAfter x t ↔ f.LiveOut x t.1 ∨ ∃ j > t.2, f.UsedAt x (t.1, j) := by
  have undefined : ∀ k > t.2, ¬ f.DefinedAt x (t.1, k) := by
    intro k behind again
    have same := (strict.lookup_defSites defined).symm.trans (strict.lookup_defSites again)
    grind [Earlier]
  grind [LiveAfter]

theorem inside {ip : Nat} {instr : Instr} (found : (f.instrs b)[ip]? = some instr) :
    b < f.blocks.len := by
  by_contra outside
  simp [instrs_eq_nil (Nat.le_of_not_lt outside)] at found

theorem mem_ssaDefs {instrs : List Instr} : x ∈ instrs.flatMap Instr.ssaDefs ↔
    ∃ k : Nat, ∃ instr : Instr, instrs[k]? = some instr ∧ x ∈ instr.ssaDefs := by
  rw [List.mem_flatMap]
  grind [List.mem_iff_getElem?]

theorem StrictSsa.block_unique (strict : f.StrictSsa) {b' : Nat} (here : x ∈ f.defs b)
    (there : x ∈ f.defs b') : b = b' := by
  obtain ⟨ip, here⟩ := mem_ssaDefs.mp here
  obtain ⟨ip', there⟩ := mem_ssaDefs.mp there
  cases (strict.lookup_defSites (s := (b, ip)) here).symm.trans
    (strict.lookup_defSites (s := (b', ip')) there)
  rfl

/-- What is live into a block that can be reached is not defined there. -/
theorem StrictSsa.liveIn_undefined (strict : f.StrictSsa) (reached : f.blocks.Reached b)
    (live : f.LiveIn x b) : x ∉ f.defs b := by
  obtain ⟨before, path⟩ := reached.path
  obtain ⟨before', path', fresh⟩ := path.first
  obtain ⟨p, passed, isDef⟩ := List.mem_flatMap.mp (live.defined strict.dominated path')
  intro here
  rw [strict.block_unique here isDef] at fresh
  exact fresh passed

end Function

namespace SimpleBlockLiveness

theorem lookup_addUse (x : SSAValue) (ip : Nat) : ∀ (names : List SSAValue)
    (bl : SimpleBlockLiveness), (names.foldl (addUse ip) bl).lastUse.lookup x =
      if x ∈ names then some ip else bl.lastUse.lookup x := by
  intro names
  induction names with
  | nil => simp
  | cons y names ih =>
    intro bl
    rw [List.foldl_cons, ih]
    grind [addUse]

theorem lastUse_foldl_addDef : ∀ (names : List SSAValue) (bl : SimpleBlockLiveness),
    (names.foldl addDef bl).lastUse = bl.lastUse
  | [], _ => rfl
  | x :: names, bl => lastUse_foldl_addDef names (addDef bl x)

/-- The last use lies behind an instruction if one behind it uses the value. -/
theorem ofInstrs_lastUse (x : SSAValue) (ip : Nat) (instrs : List Instr) :
    (∃ last, (ofInstrs instrs).lastUse.lookup x = some last ∧ ip < last) ↔
      ∃ j > ip, ∃ instr, instrs[j]? = some instr ∧ x ∈ instr.ssaUses := by
  induction instrs using List.reverseRecOn with
  | nil => simp [ofInstrs]
  | append_singleton instrs instr ih =>
    have pushed : (ofInstrs (instrs ++ [instr])).lastUse.lookup x =
        if x ∈ instr.ssaUses then some instrs.length else (ofInstrs instrs).lastUse.lookup x := by
      simp [ofInstrs, List.zipIdx_append, lastUse_foldl_addDef, lookup_addUse]
    have last : (instrs ++ [instr])[instrs.length]? = some instr := List.getElem?_concat_length
    have kept : ∀ (j : Nat) other, instrs[j]? = some other →
        (instrs ++ [instr])[j]? = some other := by
      grind
    rw [pushed]
    by_cases used : x ∈ instr.ssaUses <;> grind

end SimpleBlockLiveness

namespace SimpleLiveness

variable {f : Function} {b : Nat}

theorem contains_new (i : Nat) : (BitSet.new 0).contains i = false := by
  simp [BitSet.new, contains, wordBit]

theorem contains_foldl_insert (names : List SSAValue) (i : Nat) :
    (names.foldl (fun s ssa => (s.insert ssa.idx).1) (BitSet.new 0)).contains i = true ↔
      ∃ x ∈ names, x.idx = i := by
  induction names using List.reverseRecOn with
  | nil => simp [contains_new]
  | append_singleton names x ih =>
    rw [List.foldl_append, List.foldl_cons, List.foldl_nil, contains_insert, Bool.or_eq_true, ih]
    grind

/-- The numbers in the bit sets of a block. -/
theorem contains_blockSets (bb : BasicBlock) (i : Nat) :
    ((blockSets bb).1.contains i = true ↔ ∃ x ∈ bb.instrs.flatMap Instr.ssaUses, x.idx = i) ∧
      ((blockSets bb).2.contains i = true ↔ ∃ x ∈ bb.instrs.flatMap Instr.ssaDefs, x.idx = i) := by
  let insertAll : BitSet → List SSAValue → BitSet := List.foldl fun s ssa => (s.insert ssa.idx).1
  have uses : (blockSets bb).1 =
      bb.instrs.foldl (fun s instr => insertAll s instr.ssaUses) (.new 0) :=
    (List.foldl_hom Prod.fst fun _ _ => rfl).symm
  have defs : (blockSets bb).2 =
      bb.instrs.foldl (fun s instr => insertAll s instr.ssaDefs) (.new 0) :=
    (List.foldl_hom Prod.snd fun _ _ => rfl).symm
  rw [uses, defs, ← contains_foldl_insert, ← contains_foldl_insert, List.foldl_flatMap,
    List.foldl_flatMap]
  exact ⟨Iff.rfl, Iff.rfl⟩

theorem contains_moveSets (bb : BasicBlock) (liveOut : BitSet) (i : Nat) :
    (moveSets bb liveOut).contains i = true ↔
      (liveOut.contains i = true ∨ ∃ x ∈ bb.instrs.flatMap Instr.ssaUses, x.idx = i) ∧
        ¬ ∃ x ∈ bb.instrs.flatMap Instr.ssaDefs, x.idx = i := by
  obtain ⟨uses, defs⟩ := contains_blockSets bb i
  rw [moveSets, contains_sub, contains_bitor, Bool.and_eq_true, Bool.or_eq_true, Bool.not_eq_true',
    ← Bool.not_eq_true, uses, defs]

theorem moveSets_mono (bb : BasicBlock) : Monotone (moveSets bb) := by
  intro s t less
  refine ⟨?_, ?_, ?_⟩
  · intro i
    rw [contains_moveSets, contains_moveSets]
    exact And.imp_left (Or.imp_left (less.1 i))
  · simp only [moveSets, BitSet.sub, bitor, combine, List.length_map, List.length_range]
    exact max_le_max_right _ (max_le_max_right _ less.2.1)
  · simp only [moveSets, BitSet.sub, bitor, combine]
    exact max_le_max_right _ (max_le_max_right _ less.2.2)

/-- A block, and an empty one past the last. -/
def blockAt (f : Function) (b : Nat) : BasicBlock := f.blocks.blocks.getD b ⟨⟨0⟩, false, []⟩

theorem instrs_blockAt (f : Function) (b : Nat) : (blockAt f b).instrs = f.instrs b := by
  rw [blockAt, Function.instrs, List.getD_eq_getElem?_getD]
  cases f.blocks.blocks[b]? <;> rfl

theorem lawful (f : Function) : Lawful f.blocks BitSet.union
    (fun _ bb liveIn liveOut => (moveSets bb liveOut, decide (liveIn ≠ moveSets bb liveOut)))
    fun b => moveSets (blockAt f b) where
  joinMono := union_mono
  movesMono b := moveSets_mono (blockAt f b)
  writes b bb liveIn liveOut isBlock _ := by
    have same : blockAt f b = bb := by rw [blockAt, List.getD_eq_getElem?_getD, isBlock]; rfl
    rw [same]
    exact ⟨rfl, decide_eq_true_iff⟩

/-- The union of the sets of some blocks. -/
theorem contains_joinOf (states : Nat → BitSet) (nodes : List Nat) (i : Nat) :
    (joinOf BitSet.union (.new 0) nodes states).contains i = true ↔
      ∃ s ∈ nodes, (states s).contains i = true := by
  unfold joinOf
  induction nodes using List.reverseRecOn with
  | nil => simp [contains_new]
  | append_singleton nodes s ih =>
    rw [List.foldl_append, List.foldl_cons, List.foldl_nil, contains_union, Bool.or_eq_true, ih]
    simp [or_and_right, exists_or]

theorem joinOf_small (states : Nat → BitSet) {n : Nat} (bounded : ∀ b, (states b).words.length ≤ n)
    (nodes : List Nat) : (joinOf BitSet.union (.new 0) nodes states).words.length ≤ n ∧
      (joinOf BitSet.union (.new 0) nodes states).capacity = 0 := by
  refine List.foldlRecOn (motive := fun s : BitSet => s.words.length ≤ n ∧ s.capacity = 0) nodes _
    ⟨Nat.zero_le n, rfl⟩ fun s small node _ => ⟨?_, small.2⟩
  rw [length_union]
  exact max_le small.1 (bounded node)

/-- Every number in a set is that of a value which is live there. -/
def Sound (f : Function) (b : Nat) (s : BitSet) : Prop :=
  ∀ i, s.contains i = true → ∃ x, x.idx = i ∧ f.LiveIn x b

theorem sound_equation (states : Nat → BitSet) (sound : ∀ b, Sound f b (states b)) (b : Nat) :
    Sound f b (equation f.blocks.successors (.new 0) BitSet.union (fun b => moveSets (blockAt f b))
      states b) := by
  intro i member
  rw [equation, contains_moveSets, contains_joinOf, instrs_blockAt] at member
  obtain ⟨⟨s, edge, inSet⟩ | ⟨x, used, rfl⟩, undefined⟩ := member
  · obtain ⟨x, rfl, isLive⟩ := sound s i inSet
    exact ⟨x, rfl,
      .through (fun isDef => undefined ⟨x, isDef, rfl⟩) (mem_successors.mp edge) isLive⟩
  · obtain ⟨instr, inBlock, used⟩ := List.mem_flatMap.mp used
    obtain ⟨pre, post, split⟩ := List.append_of_mem inBlock
    refine ⟨x, rfl, .use split used ?_⟩
    intro isDef
    refine undefined ⟨x, ?_, rfl⟩
    rw [split, List.flatMap_append]
    exact List.mem_append_left _ isDef

/-- Sets that solve the equations have every value that is live into a block that can be reached. -/
theorem complete {states : Nat → BitSet} (solved : ∀ b < f.blocks.len, f.blocks.Reached b →
      equation f.blocks.successors (.new 0) BitSet.union (fun b => moveSets (blockAt f b)) states
        b = states b)
    (strict : f.StrictSsa) (numbered : f.Numbered) (edges : f.blocks.EdgesIn) {x : SSAValue}
    (isLive : f.LiveIn x b) (inside : b < f.blocks.len) (reached : f.blocks.Reached b) :
    (states b).contains x.idx = true := by
  have undefined : ∀ {b}, f.LiveIn x b → f.blocks.Reached b → ¬ ∃ y ∈ f.defs b, y.idx = x.idx := by
    intro b isLive reached ⟨y, isDef, same⟩
    have := numbered _ _ (f.hasValue_of_defs isDef) isLive.hasValue same
    exact strict.liveIn_undefined reached isLive (this ▸ isDef)
  induction isLive with
  | @use b pre instr post split used unseen =>
    rw [← solved b inside reached, equation, contains_moveSets, instrs_blockAt]
    refine ⟨.inr ⟨x, ?_, rfl⟩, undefined (.use split used unseen) reached⟩
    exact List.mem_flatMap.mpr ⟨instr, by simp [split], used⟩
  | @through b s unseen edge isLive ih =>
    rw [← solved b inside reached, equation, contains_moveSets, instrs_blockAt, contains_joinOf]
    obtain ⟨nodes, trail⟩ := reached
    have next : f.blocks.Edge b s := ⟨edge, edges _ edge⟩
    exact ⟨.inl ⟨s, mem_successors.mpr edge, ih next.2.2 ⟨_, trail.step next⟩⟩,
      undefined (.through unseen edge isLive) ⟨nodes, trail⟩⟩

/-- A number that depends on a block is bounded. -/
theorem exists_bound (f : Function) (g : BasicBlock → Nat) : ∃ n, ∀ b, g (blockAt f b) ≤ n := by
  refine ⟨((⟨⟨0⟩, false, []⟩ :: f.blocks.blocks).map g).sum, fun b => ?_⟩
  refine List.single_le_sum (fun _ _ => Nat.zero_le _) _ (List.mem_map_of_mem ?_)
  rw [blockAt, List.getD_eq_getElem?_getD]
  cases here : f.blocks.blocks[b]? with
  | none => exact List.mem_cons_self
  | some bb => exact List.mem_cons_of_mem _ (List.mem_of_getElem? here)

/-- What is known of the sets of a block. -/
structure ExactAt (f : Function) (b : Nat) (liveIn liveOut : BitSet) : Prop where
  reached : f.blocks.Reached b → ∀ x, f.HasValue x →
    (liveIn.contains x.idx = true ↔ f.LiveIn x b) ∧ (liveOut.contains x.idx = true ↔ f.LiveOut x b)
  unreached : ¬ f.blocks.Reached b → ∀ i, liveIn.contains i = false ∧ liveOut.contains i = false

/-- The liveness of a function with these sets of its blocks. -/
def ofSets (f : Function) (liveIn liveOut : List BitSet) : SimpleLiveness where
  ssaBlockIp := defSites f
  blocks := f.blocks.blocks.zipWith (fun bb sets =>
    { SimpleBlockLiveness.ofInstrs bb.instrs with
      liveIn := sets.1.members, liveOut := sets.2.members }) (liveIn.zip liveOut)

/-- `SimpleLiveness::for_function`, with its bit sets. -/
def forFunctionSets (f : Function) (fuel : Nat) : Except Fault SimpleLiveness := do
  let (liveIn, liveOut) ← liveSets f fuel
  return ofSets f liveIn liveOut

/-- The loop ends with the least solution, and with what every transfer keeps. -/
theorem liveSets_ends (f : Function) (edges : f.blocks.EdgesIn) {R : Nat → BitSet → Prop}
    (kept : ∀ states : Nat → BitSet, (∀ b, R b (states b)) → ∀ b, R b (equation
      f.blocks.successors (.new 0) BitSet.union (fun b => moveSets (blockAt f b)) states b))
    (bottom : ∀ b, R b (.new 0)) : ∃ run : Dataflow.Run BitSet BitSet,
      (∃ enough, ∀ fuel ≥ enough, liveSets f fuel = .ok (run.moved, run.joined)) ∧
      (∀ b, R b (stateAt run.moved b)) ∧
      (∀ b < f.blocks.len, f.blocks.Reached b →
        equation f.blocks.successors (.new 0) BitSet.union (fun b => moveSets (blockAt f b))
          (stateAt run.moved) b = stateAt run.moved b) ∧
      (∀ b, ¬ f.blocks.Reached b → stateAt run.moved b = .new 0) ∧
      ∀ b < f.blocks.len, ∃ liveOut,
        (run.moved.zip run.joined)[b]? = some (stateAt run.moved b, liveOut) ∧
        (f.blocks.Reached b → liveOut = joinOf BitSet.union (.new 0) (f.blocks.successors b)
          (stateAt run.moved)) ∧
        (¬ f.blocks.Reached b → liveOut = .new 0) := by
  obtain ⟨n, bounds⟩ := exists_bound f fun bb => (blockSets bb).1.words.length +
    (blockSets bb).2.words.length + (blockSets bb).1.capacity + (blockSets bb).2.capacity
  let Q (b : Nat) (s : BitSet) : Prop := (s.words.length ≤ n ∧ s.capacity ≤ n) ∧ R b s
  have climbs : ∀ b, WellFoundedGT {s // Q b s} := fun b =>
    BitSet.wellFoundedGT n fun _ holds => holds.1
  have closed : ∀ states : Nat → BitSet, (∀ b, Q b (states b)) → ∀ b, Q b
      (equation f.blocks.successors (.new 0) BitSet.union (fun b => moveSets (blockAt f b)) states
        b) := by
    intro states holds b
    obtain ⟨length, zero⟩ := joinOf_small states (fun b => (holds b).1.1) (f.blocks.successors b)
    have := bounds b
    refine ⟨?_, kept states (fun b => (holds b).2) b⟩
    simp only [equation, moveSets, BitSet.sub, bitor, combine, zero, List.length_map,
      List.length_range]
    omega
  have order := (enumerates_reversePostOrder f.blocks).reverse
  let empties := List.replicate f.blocks.len (BitSet.new 0)
  have empty : ∀ b, stateAt empties b = .new 0 := stateAt_replicate f.blocks.len
  have sized : Sized f.blocks ⟨empties, empties, false⟩ :=
    ⟨List.length_replicate, List.length_replicate⟩
  obtain ⟨run, ⟨enough, returns⟩, holds, ends⟩ := sweeps_ends (Q := Q) closed (lawful f)
    (fun b s member => (edges _ (mem_successors.mp member)).2)
    (fun b member => ((order b).mp member).1) sized
    (fun b => by
      rw [empty]
      exact ⟨⟨Nat.zero_le n, Nat.zero_le n⟩, bottom b⟩)
    (fun b => (empty b).trans_le bot_le)
  refine ⟨run, ⟨enough, fun fuel large => ?_⟩, fun b => (holds b).2,
    fun b inside reached => ends.moved b ((order b).mpr ⟨inside, reached⟩), ?_, ?_⟩
  · unfold liveSets
    dsimp only
    rw [returns fuel large]
    rfl
  · intro b unreached
    rw [ends.kept b fun member => unreached ((order b).mp member).2, empty]
  · intro b inside
    have here : b < run.moved.length := ends.sized.moved ▸ inside
    have isMoved : run.moved[b]? = some (stateAt run.moved b) := by
      rw [stateAt, List.getD_eq_getElem _ _ here, List.getElem?_eq_getElem here]
    have isJoined := ends.joined b
    by_cases reached : f.blocks.Reached b
    · rw [if_pos ((order b).mpr ⟨inside, reached⟩)] at isJoined
      exact ⟨_, List.getElem?_zip_eq_some.mpr ⟨isMoved, isJoined⟩, fun _ => rfl,
        fun unreached => absurd reached unreached⟩
    · rw [if_neg fun member => reached ((order b).mp member).2, List.getElem?_replicate,
        if_pos inside] at isJoined
      exact ⟨_, List.getElem?_zip_eq_some.mpr ⟨isMoved, isJoined⟩,
        fun isReached => absurd isReached reached, fun _ => rfl⟩

/-- The numbers in the set of an equation are those of the equation between the sets of numbers. -/
theorem members_equation (f : Function) (states : Nat → BitSet) (b : Nat) :
    (equation f.blocks.successors (.new 0) BitSet.union (fun b => moveSets (blockAt f b)) states
      b).members = transfer f.blocks (blocksOf f) (fun b => (states b).members) b := by
  ext i
  rw [mem_members, equation, contains_moveSets, contains_joinOf, instrs_blockAt, transfer,
    Finset.mem_sdiff, Finset.mem_union, mem_outSet, blocksOf_eq, SimpleBlockLiveness.ofInstrs_uses,
    SimpleBlockLiveness.ofInstrs_defs]
  simp only [List.mem_toFinset, List.mem_map, mem_members]

/-- The words and the sets of numbers are two models of one function. -/
theorem forFunctionSets_eq (f : Function) (edges : f.blocks.EdgesIn) :
    ∃ enough, ∀ fuel ≥ enough, forFunctionSets f fuel = forFunction f := by
  obtain ⟨sets, found, solved⟩ := forFunction_solved f
  have order := (enumerates_reversePostOrder f.blocks).reverse
  have visited {b : Nat} (inside : b < f.blocks.len) (reached : f.blocks.Reached b) :=
    (order b).mpr ⟨inside, reached⟩
  -- what the words have lies below the solution of the sets
  obtain ⟨run, ⟨enough, returns⟩, below, isSolved, unreached, zipped⟩ := liveSets_ends f edges
    (R := fun b s => b < f.blocks.len → f.blocks.Reached b → s.members ⊆ sets.liveIn b)
    (by
      intro states holds b inside ⟨nodes, trail⟩
      rw [members_equation, ← solved.liveIn b (visited inside ⟨nodes, trail⟩)]
      refine transfer_mono_at fun s isSucc => ?_
      have edge := mem_successors.mp isSucc
      exact holds s (edges _ edge).2 ⟨_, trail.step ⟨edge, edges _ edge⟩⟩)
    (by
      intro b _ _ i member
      rw [mem_members, contains_new] at member
      exact nomatch member)
  -- and is a solution itself
  have above : sets.liveIn ≤ fun b => (stateAt run.moved b).members := by
    refine solved.least _ ?_ fun b i member => nomatch member
    intro b member
    obtain ⟨inside, reached⟩ := (order b).mp member
    rw [← members_equation, isSolved b inside reached]
  have same : ∀ b < f.blocks.len, f.blocks.Reached b →
      (stateAt run.moved b).members = sets.liveIn b := fun b inside reached =>
    (below b inside reached).antisymm (above b)
  have none : (BitSet.new 0).members = ∅ := by
    ext i
    rw [mem_members, contains_new]
    simp
  refine ⟨enough, fun fuel large => ?_⟩
  rw [found, forFunctionSets, returns fuel large, ok_bind]
  refine congrArg Except.ok (congrArg (SimpleLiveness.mk (defSites f))
    (List.ext_getElem? fun b => ?_))
  rw [List.getElem?_zipWith, List.getElem?_map, List.getElem?_zipIdx, List.getElem?_map]
  rcases Nat.lt_or_ge b f.blocks.len with inside | outside
  · obtain ⟨liveOut, isPair, joined, empty⟩ := zipped b inside
    have here : f.blocks.blocks[b]? = some f.blocks.blocks[b] := List.getElem?_eq_getElem inside
    have isIn : (stateAt run.moved b).members = sets.liveIn b := by
      by_cases reached : f.blocks.Reached b
      · exact same b inside reached
      · rw [unreached b reached, none, solved.kept b fun member => reached ((order b).mp member).2]
    have isOut : liveOut.members = sets.liveOut b := by
      rw [solved.liveOut b]
      by_cases reached : f.blocks.Reached b
      · rw [if_pos (visited inside reached), joined reached]
        obtain ⟨nodes, trail⟩ := reached
        ext i
        rw [mem_members, contains_joinOf, mem_outSet]
        refine exists_congr fun s => and_congr_right fun isSucc => ?_
        have edge := mem_successors.mp isSucc
        rw [← mem_members, same s (edges _ edge).2 ⟨_, trail.step ⟨edge, edges _ edge⟩⟩]
      · rw [if_neg fun member => reached ((order b).mp member).2, empty reached, none]
    rw [here, isPair]
    simp only [Option.map_some, Nat.zero_add, isIn, isOut]
  · rw [List.getElem?_eq_none outside]
    rfl

section

variable (f : Function) (strict : f.StrictSsa) (numbered : f.Numbered) (edges : f.blocks.EdgesIn)
include strict numbered edges

theorem liveSets_zip : ∃ liveIn liveOut,
    (∃ enough, ∀ fuel ≥ enough, liveSets f fuel = .ok (liveIn, liveOut)) ∧
      ∀ b < f.blocks.len, ∃ sets, (liveIn.zip liveOut)[b]? = some sets ∧
        ExactAt f b sets.1 sets.2 := by
  obtain ⟨run, ends, sound, solved, unreached, zipped⟩ := liveSets_ends f edges
    (sound_equation (f := f)) fun b i member => by simp [contains_new] at member
  have exact : ∀ b < f.blocks.len, f.blocks.Reached b → ∀ x, f.HasValue x →
      ((stateAt run.moved b).contains x.idx = true ↔ f.LiveIn x b) := by
    intro b inside reached x isValue
    constructor
    · intro member
      obtain ⟨y, same, isLive⟩ := sound b _ member
      rwa [numbered x y isValue isLive.hasValue same.symm]
    · exact fun isLive => complete solved strict numbered edges isLive inside reached
  refine ⟨run.moved, run.joined, ends, fun b inside => ?_⟩
  obtain ⟨liveOut, found, joined, none⟩ := zipped b inside
  refine ⟨_, found, fun reached x isValue => ⟨exact b inside reached x isValue, ?_⟩, ?_⟩
  · rw [joined reached, contains_joinOf]
    obtain ⟨nodes, trail⟩ := reached
    have next : ∀ {s}, (b, s) ∈ f.blocks.edges →
        ((stateAt run.moved s).contains x.idx = true ↔ f.LiveIn x s) := fun edge =>
      exact _ (edges _ edge).2 ⟨_, trail.step ⟨edge, edges _ edge⟩⟩ x isValue
    constructor
    · rintro ⟨s, isSucc, member⟩
      have edge := mem_successors.mp isSucc
      exact ⟨s, edge, (next edge).mp member⟩
    · rintro ⟨s, edge, isLive⟩
      exact ⟨s, mem_successors.mpr edge, (next edge).mpr isLive⟩
  · intro isUnreached i
    rw [unreached b isUnreached, none isUnreached]
    exact ⟨contains_new i, contains_new i⟩

/-- The loop ends, and its sets hold what is live on the blocks that can be reached. -/
theorem liveSets_exact : ∃ liveIn liveOut,
    (∃ enough, ∀ fuel ≥ enough, liveSets f fuel = .ok (liveIn, liveOut)) ∧
      ∀ b < f.blocks.len, ∃ ins outs, liveIn[b]? = some ins ∧ liveOut[b]? = some outs ∧
        ExactAt f b ins outs := by
  obtain ⟨liveIn, liveOut, ends, exact⟩ := liveSets_zip f strict numbered edges
  refine ⟨liveIn, liveOut, ends, fun b inside => ?_⟩
  obtain ⟨sets, found, exact⟩ := exact b inside
  obtain ⟨isIn, isOut⟩ := List.getElem?_zip_eq_some.mp found
  exact ⟨_, _, isIn, isOut, exact⟩

/-- What the sets of a block that can be reached say of the values. -/
structure Knows (f : Function) (b : Nat) (bl : SimpleBlockLiveness) : Prop where
  liveIn : ∀ x, f.HasValue x → (bl.isLiveIn x = true ↔ f.LiveIn x b)
  liveAfter : ∀ x ip, f.HasValue x →
    (bl.isLiveAfterIp x ip = true ↔ f.LiveOut x b ∨ ∃ j > ip, f.UsedAt x (b, j))

theorem forFunctionSets_exact : ∃ live : SimpleLiveness, live.ssaBlockIp = defSites f ∧
    (∃ enough, ∀ fuel ≥ enough, forFunctionSets f fuel = .ok live) ∧
      ∀ b < f.blocks.len, ∃ bl, live.blockLive b = .ok bl ∧ (f.blocks.Reached b → Knows f b bl) := by
  obtain ⟨liveIn, liveOut, ⟨enough, returns⟩, exact⟩ := liveSets_zip f strict numbered edges
  refine ⟨ofSets f liveIn liveOut, rfl, ⟨enough, fun fuel large => ?_⟩, fun b inside => ?_⟩
  · rw [forFunctionSets, returns fuel large]
    rfl
  obtain ⟨sets, known, exact⟩ := exact b inside
  have here : f.blocks.blocks[b]? = some f.blocks.blocks[b] := List.getElem?_eq_getElem inside
  have inBlock : f.instrs b = f.blocks.blocks[b].instrs := by
    rw [Function.instrs, here]
    rfl
  refine ⟨_, by rw [blockLive, ofSets, List.getElem?_zipWith, here, known]; rfl,
    fun reached => ⟨fun x isValue => ?_, fun x ip isValue => ?_⟩⟩
  · rw [← (exact.reached reached x isValue).1, ← BitSet.mem_members]
    exact decide_eq_true_iff
  · rw [← (exact.reached reached x isValue).2, ← BitSet.mem_members]
    simp only [Function.UsedAt, inBlock, ← SimpleBlockLiveness.ofInstrs_lastUse]
    grind [SimpleBlockLiveness.isLiveAfterIp]

open CoralReef.Function (Earlier)

/-- Two values interfere if one instruction defines both or the one that is defined first is live
behind the other. -/
theorem interferes_exact : ∃ live,
    (∃ enough, ∀ fuel ≥ enough, forFunctionSets f fuel = .ok live) ∧
      ∀ x y s t, f.DefinedAt x s → f.DefinedAt y t → f.blocks.Reached s.1 → f.blocks.Reached t.1 →
        ∃ answer, live.interferes x y = .ok answer ∧ (answer = true ↔
          s = t ∨ Earlier s t ∧ f.LiveAfter x t ∨ Earlier t s ∧ f.LiveAfter y s) := by
  obtain ⟨live, sites, ends, exact⟩ := forFunctionSets_exact f strict numbered edges
  refine ⟨live, ends, ?_⟩
  intro x y s t isX isY reachedX reachedY
  -- what is asked where a value is defined about one that is defined before
  have asked {z w p q} (isZ : f.DefinedAt z p) (isW : f.DefinedAt w q) (earlier : Earlier p q)
      (reached : f.blocks.Reached q.1) : ∃ answer, (do
        return (← live.blockLive q.1).isLiveAfterIp z q.2) = Except.ok answer ∧
          (answer = true ↔ f.LiveAfter z q) := by
    obtain ⟨instr, found, -⟩ := isW
    obtain ⟨bl, isBlock, knows⟩ := exact q.1 (Function.inside found)
    exact ⟨_, by rw [isBlock]; rfl, by
      rw [strict.liveAfter_iff isZ earlier, (knows reached).liveAfter z q.2 isZ.hasValue]⟩
  obtain ⟨ab, ai⟩ := s
  obtain ⟨bb, bi⟩ := t
  simp only [interferes, defBlockIp, sites, strict.lookup_defSites isX, strict.lookup_defSites isY,
    expect_some, ok_bind]
  by_cases same : ab = bb ∧ ai = bi
  · exact ⟨true, if_pos same, by simp [same]⟩
  rw [if_neg same]
  by_cases earlier : Earlier (ab, ai) (bb, bi)
  · obtain ⟨answer, returned, iff⟩ := asked isX isY earlier reachedY
    exact ⟨answer, (if_pos earlier).trans returned, by grind [Earlier]⟩
  · have later : Earlier (bb, bi) (ab, ai) := by grind [Earlier]
    obtain ⟨answer, returned, iff⟩ := asked isY isX later reachedX
    exact ⟨answer, (if_neg earlier).trans returned, by grind⟩

end

/-- A loop over a use of a value, in which another is defined, and a use in block 2, which nothing
leads to. -/
def strandedUse : Function :=
  let use : Instr := .new (.regOut [.ofSsa ⟨.gpr, 1⟩])
  let define (idx : Nat) : Instr := .new (.copy (.ofSsa ⟨.gpr, idx⟩) { reference := .zero })
  { ssaAlloc := ⟨2⟩
    blocks :=
      { blocks := [⟨⟨0⟩, false, [define 1]⟩, ⟨⟨1⟩, false, [define 2, use]⟩, ⟨⟨2⟩, false, [use]⟩]
        edges := [(0, 1), (1, 1), (2, 1)] } }

theorem strandedUse_strict : strandedUse.StrictSsa where
  unique := by decide
  dominated := by
    intro before b pre instr post path split y used
    have inBlock : y ∈ (strandedUse.instrs b).flatMap Instr.ssaUses :=
      List.mem_flatMap.mpr ⟨instr, by simp [split], used⟩
    have reads : b ≠ 0 ∧ y = ⟨.gpr, 1⟩ := by
      match b with
      | 0 => cases inBlock
      | 1 | 2 => exact ⟨by omega, List.mem_singleton.mp inBlock⟩
      | _ + 3 => cases inBlock
    obtain ⟨notEntry, rfl⟩ := reads
    have passed := path.root_mem.resolve_left notEntry
    exact .inl (List.mem_flatMap.mpr ⟨0, passed, List.mem_singleton.mpr rfl⟩)

theorem strandedUse_numbered : strandedUse.Numbered := by
  rintro ⟨xFile, x⟩ ⟨yFile, y⟩ ⟨b, instr, member, isX⟩ ⟨c, instr', member', isY⟩ same
  have inGpr : ∀ b, ∀ instr ∈ strandedUse.instrs b, ∀ z ∈ instr.ssaUses ++ instr.ssaDefs,
      z.file = .gpr := by
    intro b
    match b with
    | 0 | 1 | 2 => decide
    | _ + 3 => exact fun _ member => nomatch member
  cases (inGpr b instr member _ isX).trans (inGpr c instr' member' _ isY).symm
  cases same
  rfl

theorem strandedUse_edges : strandedUse.blocks.EdgesIn := by unfold CFG.EdgesIn; decide

theorem strandedUse_live : strandedUse.LiveAfter ⟨.gpr, 1⟩ (1, 0) :=
  .inl ⟨1, Nat.one_pos, ⟨_, rfl, by decide⟩, fun k later before => by omega⟩

theorem liveSets_exact_strandedUse : ∃ liveIn liveOut,
    (∃ enough, ∀ fuel ≥ enough, liveSets strandedUse fuel = .ok (liveIn, liveOut)) ∧
      ∀ b < strandedUse.blocks.len, ∃ ins outs, liveIn[b]? = some ins ∧ liveOut[b]? = some outs ∧
        ExactAt strandedUse b ins outs :=
  liveSets_exact strandedUse strandedUse_strict strandedUse_numbered strandedUse_edges

theorem interferes_exact_strandedUse : ∃ live,
    (∃ enough, ∀ fuel ≥ enough, forFunctionSets strandedUse fuel = .ok live) ∧
      live.interferes ⟨.gpr, 1⟩ ⟨.gpr, 2⟩ = .ok true := by
  obtain ⟨live, ends, exact⟩ :=
    interferes_exact strandedUse strandedUse_strict strandedUse_numbered strandedUse_edges
  obtain ⟨answer, returned, interferes⟩ := exact ⟨.gpr, 1⟩ ⟨.gpr, 2⟩ (0, 0) (1, 0)
    ⟨_, rfl, by decide⟩ ⟨_, rfl, by decide⟩ ⟨_, .start⟩
    ⟨_, .step .start ⟨by decide, by decide⟩⟩
  exact ⟨live, ends, returned.trans
    (congrArg Except.ok (interferes.mpr (.inr (.inl ⟨.inl Nat.one_pos, strandedUse_live⟩))))⟩

end SimpleLiveness

end CoralReef
