import CoralReef.Codegen.Ir.Proofs.Step
import CoralReef.Codegen.EntryLiveIn

/-!
# Cutting off unreachable blocks

The loop over the queue finds the blocks on paths from the entry. The others lose their
instructions and their edges.
-/

open List

namespace CoralReef

namespace CFG

variable {α : Type} {cfg : CFG α}

/-- There is a path from the entry to the block. -/
def Reaches (cfg : CFG α) (b : Nat) : Prop := ∃ before, cfg.PathTo 0 before b

theorem Reaches.step {b s : Nat} (reaches : cfg.Reaches b) (edge : (b, s) ∈ cfg.edges) :
    cfg.Reaches s := by
  obtain ⟨before, path⟩ := reaches
  exact ⟨before ++ [b], path.step edge⟩

/-- The successors of a block that are new are reached and queued. -/
theorem enqueueAll_ok : ∀ (succs reached queue : List Nat), (∀ s ∈ succs, s < cfg.len) →
    reached.Nodup → ∃ new, succs.foldlM cfg.enqueue (reached, queue) =
        .ok (new.reverse ++ reached, queue ++ new) ∧
      (new.reverse ++ reached).Nodup ∧ (∀ s ∈ new, s ∈ succs) ∧
      ∀ s ∈ succs, s ∈ new.reverse ++ reached := by
  intro succs
  induction succs with
  | nil => exact fun reached queue _ nodup => ⟨[], by simp [pure, Except.pure], nodup, by simp, by simp⟩
  | cons s succs ih =>
    intro reached queue inside nodup
    have here := inside s mem_cons_self
    have later := fun t member => inside t (mem_cons_of_mem s member)
    rw [foldlM_cons, enqueue, decide_eq_true here, assertThat_true, ok_bind]
    by_cases known : s ∈ reached
    · rw [if_pos known]
      obtain ⟨new, returned, nodup', sound, complete⟩ := ih reached queue later nodup
      refine ⟨new, returned, nodup', fun t member => mem_cons_of_mem s (sound t member), ?_⟩
      intro t member
      rcases mem_cons.mp member with rfl | member
      · exact mem_append_right _ known
      · exact complete t member
    · rw [if_neg known]
      obtain ⟨new, returned, nodup', sound, complete⟩ :=
        ih (s :: reached) (queue ++ [s]) later (nodup_cons.mpr ⟨known, nodup⟩)
      have reached' : (s :: new).reverse ++ reached = new.reverse ++ s :: reached := by simp
      refine ⟨s :: new, ?_, reached' ▸ nodup', ?_, ?_⟩
      · rw [reached']
        show succs.foldlM cfg.enqueue (s :: reached, queue ++ [s]) = _
        rw [returned, append_assoc]
        rfl
      · intro t member
        rcases mem_cons.mp member with rfl | member
        · exact mem_cons_self
        · exact mem_cons_of_mem s (sound t member)
      · intro t member
        rw [reached']
        rcases mem_cons.mp member with rfl | member
        · simp
        · exact complete t member

/-- What holds between two rounds of the loop over the queue. -/
structure Reaching (cfg : CFG α) (reached queue : List Nat) : Prop where
  nodup : reached.Nodup
  inside : ∀ b ∈ reached, b < cfg.len
  sound : ∀ b ∈ reached, cfg.Reaches b
  start : 0 ∈ reached
  queued : ∀ b ∈ queue, b ∈ reached
  done : ∀ b ∈ reached, b ∉ queue → ∀ s ∈ cfg.successors b, s ∈ reached

theorem Reaching.length_le {reached queue : List Nat} (reaching : Reaching cfg reached queue) :
    reached.length ≤ cfg.len := by
  have := (subperm_of_subset reaching.nodup fun b member =>
    mem_range.mpr (reaching.inside b member)).length_le
  rwa [length_range] at this

theorem Reaching.pop {reached queue : List Nat} {b : Nat} (edges : cfg.EdgesIn)
    (reaching : Reaching cfg reached (b :: queue)) : ∃ new,
      (cfg.successors b).foldlM cfg.enqueue (reached, queue) =
        .ok (new.reverse ++ reached, queue ++ new) ∧
      Reaching cfg (new.reverse ++ reached) (queue ++ new) := by
  have isReached := reaching.queued b mem_cons_self
  have inside : ∀ s ∈ cfg.successors b, s < cfg.len :=
    fun s isSucc => (edges _ (mem_successors.mp isSucc)).2
  obtain ⟨new, returned, nodup, sound, complete⟩ :=
    enqueueAll_ok (cfg.successors b) reached queue inside reaching.nodup
  refine ⟨new, returned, nodup, ?_, ?_, mem_append_right _ reaching.start, ?_, ?_⟩
  · intro c member
    rcases mem_append.mp member with fresh | known
    · exact inside c (sound c (mem_reverse.mp fresh))
    · exact reaching.inside c known
  · intro c member
    rcases mem_append.mp member with fresh | known
    · exact (reaching.sound b isReached).step
        (mem_successors.mp (sound c (mem_reverse.mp fresh)))
    · exact reaching.sound c known
  · intro c member
    rcases mem_append.mp member with waiting | fresh
    · exact mem_append_right _ (reaching.queued c (mem_cons_of_mem b waiting))
    · exact mem_append_left _ (mem_reverse.mpr fresh)
  · intro c member idle s isSucc
    rw [mem_append, not_or] at idle
    rcases mem_append.mp member with fresh | known
    · exact absurd (mem_reverse.mp fresh) idle.2
    · by_cases same : c = b
      · subst same
        exact complete s isSucc
      · refine mem_append_right _ (reaching.done c known ?_ s isSucc)
        simp [same, idle.1]

theorem reachLoop_ok (edges : cfg.EdgesIn) : ∀ (fuel : Nat) (reached queue : List Nat),
    Reaching cfg reached queue → cfg.len + queue.length ≤ reached.length + fuel →
      ∃ result, cfg.reachLoop fuel (reached, queue) = .ok result ∧ Reaching cfg result [] := by
  intro fuel
  induction fuel with
  | zero =>
    intro reached queue reaching enough
    cases queue with
    | nil => exact ⟨reached, rfl, reaching⟩
    | cons b queue =>
      have := reaching.length_le
      rw [length_cons] at enough
      omega
  | succ fuel ih =>
    intro reached queue reaching enough
    cases queue with
    | nil => exact ⟨reached, rfl, reaching⟩
    | cons b queue =>
      obtain ⟨new, returned, reaching'⟩ := reaching.pop edges
      obtain ⟨result, rest, found⟩ := ih _ _ reaching' (by
        simp only [length_append, length_reverse, length_cons] at enough ⊢
        omega)
      refine ⟨result, ?_, found⟩
      rw [reachLoop, returned, ok_bind]
      exact rest

/-- The search finds the blocks on paths from the entry. -/
theorem reachable_ok (edges : cfg.EdgesIn) (entry : 0 < cfg.len) : ∃ reached,
    cfg.reachable = .ok reached ∧ ∀ b, b ∈ reached ↔ cfg.Reaches b := by
  have start : Reaching cfg [0] [0] := by
    refine ⟨nodup_singleton 0, ?_, ?_, mem_singleton_self 0, fun b member => member, ?_⟩
    · intro b member
      rw [mem_singleton] at member
      omega
    · intro b member
      rw [mem_singleton] at member
      subst member
      exact ⟨[], .root⟩
    · exact fun b member idle => absurd member idle
  obtain ⟨reached, returned, reaching⟩ := reachLoop_ok edges cfg.len [0] [0] start (Nat.add_comm _ _).le
  refine ⟨reached, ?_, fun b => ⟨reaching.sound b, ?_⟩⟩
  · rw [reachable, decide_eq_true entry, assertThat_true, ok_bind]
    exact returned
  · rintro ⟨before, path⟩
    induction path with
    | root => exact reaching.start
    | @step before p b _ edge ih =>
      exact reaching.done p ih (by simp) b (mem_successors.mpr edge)

section Cut

variable {β : Type} {cfg' : CFG β} {reached : List Nat}

/-- `cfg'` has the edges of `cfg` between the blocks reached, which are closed under successors. -/
structure CutTo (reached : List Nat) (cfg : CFG α) (cfg' : CFG β) : Prop where
  len : cfg'.len = cfg.len
  edges : cfg'.edges = cfg.edges.filter fun edge => decide (edge.1 ∈ reached ∧ edge.2 ∈ reached)
  start : 0 ∈ reached
  closed : ∀ b s, (b, s) ∈ cfg.edges → b ∈ reached → s ∈ reached

namespace CutTo

variable (cut : CutTo reached cfg cfg')
include cut

theorem successors_eq {b : Nat} (isReached : b ∈ reached) :
    cfg'.successors b = cfg.successors b := by
  rw [successors, successors, cut.edges, filterMap_filter]
  apply filterMap_congr
  rintro ⟨source, target⟩ member
  by_cases here : source = b
  · subst here
    simp [isReached, cut.closed source target member isReached]
  · simp [here]

theorem predecessors_eq {b : Nat} (isReached : b ∈ reached) :
    cfg'.predecessors b = (cfg.predecessors b).filter fun p => decide (p ∈ reached) := by
  rw [predecessors, predecessors, cut.edges, filterMap_filter, filter_filterMap]
  apply filterMap_congr
  rintro ⟨source, target⟩ member
  by_cases here : target = b
  · subst here
    by_cases source' : source ∈ reached
    · simp [isReached, source', Option.filter]
    · simp [source', Option.filter]
  · simp [here, Option.filter]

theorem rpoDfs_eq : ∀ (fuel : Nat) (state : List Nat × List Nat) (node : Nat), node ∈ reached →
    (∀ b ∈ state.2, b ∈ reached) →
      cfg'.rpoDfs fuel state node = cfg.rpoDfs fuel state node ∧
      ∀ b ∈ (cfg.rpoDfs fuel state node).2, b ∈ reached := by
  intro fuel
  induction fuel with
  | zero => exact fun _ _ _ inside => ⟨rfl, inside⟩
  | succ fuel ih =>
    rintro ⟨visited, order⟩ node isReached inside
    have children : ∀ (succs : List Nat) (state : List Nat × List Nat),
        (∀ s ∈ succs, s ∈ reached) → (∀ b ∈ state.2, b ∈ reached) →
          succs.foldl (cfg'.rpoDfs fuel) state = succs.foldl (cfg.rpoDfs fuel) state ∧
          ∀ b ∈ (succs.foldl (cfg.rpoDfs fuel) state).2, b ∈ reached := by
      intro succs
      induction succs with
      | nil => exact fun _ _ inside => ⟨rfl, inside⟩
      | cons s succs ihSuccs =>
        intro state known inside
        obtain ⟨same, inside'⟩ := ih state s (known s mem_cons_self) inside
        rw [foldl_cons, foldl_cons, same]
        exact ihSuccs _ (fun t member => known t (mem_cons_of_mem s member)) inside'
    rw [rpoDfs, rpoDfs, cut.len, cut.successors_eq isReached]
    by_cases old : node ≥ cfg.len ∨ node ∈ visited
    · rw [if_pos old, if_pos old]
      exact ⟨rfl, inside⟩
    · rw [if_neg old, if_neg old]
      obtain ⟨same, inside'⟩ := children (cfg.successors node) (node :: visited, order)
        (fun s isSucc => cut.closed node s (mem_successors.mp isSucc) isReached) inside
      rw [same]
      refine ⟨rfl, ?_⟩
      intro b member
      rcases mem_append.mp member with earlier | last
      · exact inside' b earlier
      · rw [mem_singleton] at last
        exact last ▸ isReached

theorem reversePostOrder_eq : cfg'.reversePostOrder = cfg.reversePostOrder ∧
    ∀ b ∈ cfg.reversePostOrder, b ∈ reached := by
  obtain ⟨same, inside⟩ := cut.rpoDfs_eq (cfg.len + 1) ([], []) 0 cut.start (by simp)
  rw [reversePostOrder, reversePostOrder, cut.len, same]
  refine ⟨rfl, ?_⟩
  intro b member
  split at member
  · cases member
  · exact inside b (mem_reverse.mp member)

/-- Predecessors that are not reached have no dominator and are passed over. -/
theorem newIdom_eq {doms : List (Option Nat)} {rpo : List Nat} {entry b : Nat}
    (unset : ∀ p, p ∉ reached → domParent doms p = none) (isReached : b ∈ reached) :
    cfg'.newIdom doms rpo entry b = cfg.newIdom doms rpo entry b := by
  have skip : ∀ (preds : List Nat) (step : Option Nat → Nat → Except Fault (Option Nat)),
      (∀ found p, p ∉ reached → step found p = .ok found) → ∀ found,
        (preds.filter fun p => decide (p ∈ reached)).foldlM step found = preds.foldlM step found := by
    intro preds step skips
    induction preds with
    | nil => exact fun _ => rfl
    | cons p preds ih =>
      intro found
      by_cases known : p ∈ reached
      · rw [filter_cons_of_pos (by simpa using known), foldlM_cons, foldlM_cons]
        exact congrArg _ (funext ih)
      · rw [filter_cons_of_neg (by simpa using known), foldlM_cons, skips found p known,
          ok_bind, ih]
  rw [newIdom, newIdom, cut.predecessors_eq isReached, cut.len, skip]
  intro found p absent
  rw [unset p absent]

/-- No block outside those reached is given a dominator. -/
theorem dominatorPass_eq {rpo : List Nat} {entry : Nat} (inside : ∀ b ∈ rpo, b ∈ reached)
    {doms : List (Option Nat)} (unset : ∀ p, p ∉ reached → domParent doms p = none) :
    cfg'.dominatorPass rpo entry doms = cfg.dominatorPass rpo entry doms ∧
      ∀ state, cfg.dominatorPass rpo entry doms = .ok state →
        ∀ p, p ∉ reached → domParent state.1 p = none := by
  refine foldlM_agree (rpo.drop 1)
    (I := fun state : List (Option Nat) × Bool => ∀ p, p ∉ reached → domParent state.1 p = none)
    ?_ (doms, false) unset
  rintro b member ⟨doms, changed⟩ unset
  have isReached := inside b (mem_of_mem_drop member)
  refine ⟨?_, ?_⟩
  · show (cfg'.newIdom doms rpo entry b >>= _) = (cfg.newIdom doms rpo entry b >>= _)
    rw [cut.newIdom_eq unset isReached]
  · intro state returned p absent
    obtain ⟨idom, -, rest⟩ := bind_eq_ok.mp returned
    have apart : b ≠ p := fun same => absent (same ▸ isReached)
    split at rest
    · cases rest
      rw [domParent, List.getElem?_set_ne apart]
      exact unset p absent
    · cases rest
      exact unset p absent

theorem dominatorLoop_eq {rpo : List Nat} {entry : Nat} (inside : ∀ b ∈ rpo, b ∈ reached) :
    ∀ (fuel : Nat) (doms : List (Option Nat)), (∀ p, p ∉ reached → domParent doms p = none) →
      cfg'.dominatorLoop rpo entry fuel doms = cfg.dominatorLoop rpo entry fuel doms := by
  intro fuel
  induction fuel with
  | zero => exact fun _ _ => rfl
  | succ fuel ih =>
    intro doms unset
    obtain ⟨same, unset'⟩ := cut.dominatorPass_eq inside unset
    rw [dominatorLoop, dominatorLoop, same]
    cases passed : cfg.dominatorPass rpo entry doms with
    | error fault => rfl
    | ok state =>
      obtain ⟨doms', changed⟩ := state
      rw [ok_bind, ok_bind]
      show (if changed then cfg'.dominatorLoop rpo entry fuel doms' else pure doms') = _
      rw [ih doms' (unset' (doms', changed) passed)]

theorem computeDominators_eq : cfg'.computeDominators = cfg.computeDominators := by
  obtain ⟨order, inside⟩ := cut.reversePostOrder_eq
  unfold computeDominators
  rw [order, cut.len]
  apply cut.dominatorLoop_eq inside
  intro p absent
  have entry : cfg.reversePostOrder.headD 0 ∈ reached := by
    cases rpo : cfg.reversePostOrder with
    | nil => exact cut.start
    | cons b rest => exact inside b (by rw [rpo]; simp)
  have apart : cfg.reversePostOrder.headD 0 ≠ p := fun same => absent (same ▸ entry)
  rw [domParent, List.getElem?_set_ne apart, List.getElem?_replicate]
  split <;> rfl

/-- Cutting blocks off does not change whether the search for loops returns. -/
theorem hasLoop_returns :
    (∃ found, cfg'.hasLoop = .ok found) ↔ ∃ found, cfg.hasLoop = .ok found := by
  have search : ∀ {γ : Type} (cfg : CFG γ), (∃ found, cfg.hasLoop = .ok found) ↔
      cfg.len = 0 ∨ ∃ doms, cfg.computeDominators = .ok doms := by
    intro γ cfg
    unfold hasLoop
    by_cases empty : cfg.len = 0
    · rw [if_pos empty]
      exact ⟨fun _ => .inl empty, fun _ => ⟨false, rfl⟩⟩
    · rw [if_neg empty]
      constructor
      · rintro ⟨found, returned⟩
        obtain ⟨doms, computed, -⟩ := bind_eq_ok.mp returned
        exact .inr ⟨doms, computed⟩
      · rintro (isEmpty | ⟨doms, computed⟩)
        · exact absurd isEmpty empty
        · exact ⟨cfg.detectBackEdges doms, by rw [computed]; rfl⟩
  rw [search, search, cut.len, cut.computeDominators_eq]

end CutTo

end Cut

end CFG

namespace Function

/-- A block as cutting the blocks of a list leaves it. -/
def cutInstrs (reached cut : List Nat) (b : Nat) (bb : BasicBlock) : BasicBlock :=
  if b ∈ cut ∧ b ∉ reached then { bb with instrs := [] } else bb

theorem cutBlocks_edges (reached : List Nat) : ∀ (cut : List Nat) (cfg : CFG BasicBlock),
    (cut.foldl (cutBlock reached) cfg).edges = cfg.edges.filter fun edge =>
      decide ((edge.1 ∈ cut → edge.1 ∈ reached) ∧ (edge.2 ∈ cut → edge.2 ∈ reached)) := by
  intro cut
  induction cut with
  | nil => simp
  | cons bi cut ih =>
    intro cfg
    rw [foldl_cons, ih, cutBlock]
    split
    next isReached =>
      have grows : ∀ b, (b ∈ bi :: cut → b ∈ reached) ↔ (b ∈ cut → b ∈ reached) := by
        intro b
        rw [mem_cons]
        constructor
        · exact fun known later => known (.inr later)
        · rintro known (rfl | later)
          · exact isReached
          · exact known later
      apply filter_congr
      intro edge _
      exact Bool.decide_congr (and_congr (grows edge.1).symm (grows edge.2).symm)
    next fresh =>
      simp only [CFG.disconnectBlock, filter_filter, ← Bool.decide_and]
      apply filter_congr
      rintro ⟨b, s⟩ _
      by_cases source : b = bi
      · subst source
        simp [fresh]
      · by_cases target : s = bi
        · subst target
          simp [fresh]
        · simp [source, target]

theorem cutBlocks_blocks (reached : List Nat) : ∀ (cut : List Nat) (cfg : CFG BasicBlock),
    (cut.foldl (cutBlock reached) cfg).len = cfg.len ∧
    ∀ b : Nat, (cut.foldl (cutBlock reached) cfg).blocks[b]? =
      cfg.blocks[b]?.map (cutInstrs reached cut b) := by
  intro cut
  induction cut with
  | nil =>
    intro cfg
    have same : ∀ b, cutInstrs reached [] b = id := fun b => by
      funext bb
      simp [cutInstrs]
    refine ⟨rfl, fun b => ?_⟩
    rw [same, Option.map_id]
    rfl
  | cons bi cut ih =>
    intro cfg
    obtain ⟨len, blocks⟩ := ih (cutBlock reached cfg bi)
    rw [foldl_cons, len]
    simp only [blocks]
    unfold cutBlock
    split
    next isReached =>
      refine ⟨rfl, fun b => ?_⟩
      congr 1
      funext bb
      by_cases here : b = bi
      · simp [cutInstrs, here, isReached]
      · simp [cutInstrs, here]
    next fresh =>
      refine ⟨by simp [CFG.len, CFG.disconnectBlock], fun b => ?_⟩
      simp only [CFG.disconnectBlock]
      by_cases here : bi = b
      · subst here
        rw [List.getElem?_modify_eq, Option.map_eq_map, Option.map_map]
        congr 1
        funext bb
        simp [cutInstrs, fresh]
      · rw [List.getElem?_modify_ne _ _ here]
        congr 1
        funext bb
        simp [cutInstrs, Ne.symm here]

/-- What is left once the unreachable blocks are cut off. -/
theorem cutUnreachable_ok {f : Function} (edges : f.blocks.EdgesIn) (entry : 0 < f.blocks.len) :
    ∃ cfg reached, f.cutUnreachable = .ok cfg ∧ CFG.CutTo reached f.blocks cfg ∧
      (∀ b, b ∈ reached ↔ f.blocks.Reaches b) ∧
      (∀ b, f.blocks.Reaches b → cfg.blocks[b]? = f.blocks.blocks[b]?) ∧
      ∀ b bb, ¬ f.blocks.Reaches b → cfg.blocks[b]? = some bb → bb.instrs = [] := by
  obtain ⟨reached, returned, found⟩ := CFG.reachable_ok edges entry
  obtain ⟨len, blocks⟩ := cutBlocks_blocks reached (List.range' 1 (f.blocks.len - 1)) f.blocks
  have start : 0 ∈ reached := (found 0).mpr ⟨[], .root⟩
  have isCut : ∀ b, b < f.blocks.len → b ∉ reached → b ∈ List.range' 1 (f.blocks.len - 1) := by
    intro b inside fresh
    have : b ≠ 0 := by
      rintro rfl
      exact fresh start
    rw [mem_range'_1]
    omega
  refine ⟨_, reached, ?_, ⟨len, ?_, start, ?_⟩, found, ?_, ?_⟩
  · rw [cutUnreachable, returned]
    rfl
  · rw [cutBlocks_edges]
    apply filter_congr
    intro edge member
    have inside := edges edge member
    apply Bool.decide_congr
    constructor
    · rintro ⟨source, target⟩
      refine ⟨?_, ?_⟩
      · by_contra fresh
        exact fresh (source (isCut _ inside.1 fresh))
      · by_contra fresh
        exact fresh (target (isCut _ inside.2 fresh))
    · exact fun known => ⟨fun _ => known.1, fun _ => known.2⟩
  · intro b s edge known
    exact (found s).mpr (((found b).mp known).step edge)
  · intro b reaches
    rw [blocks]
    have known : b ∈ reached := (found b).mpr reaches
    have same : cutInstrs reached (List.range' 1 (f.blocks.len - 1)) b = id := by
      funext bb
      simp [cutInstrs, known]
    rw [same, Option.map_id]
    rfl
  · intro b bb unreached here
    rw [blocks] at here
    obtain ⟨bb', here', rfl⟩ := Option.map_eq_some_iff.mp here
    have inside : b < f.blocks.len := (List.getElem?_eq_some_iff.mp here').1
    have fresh : b ∉ reached := fun known => unreached ((found b).mp known)
    rw [cutInstrs, if_pos ⟨isCut b inside fresh, fresh⟩]

end Function

end CoralReef
