import CoralReef.Codegen.OptInstrSched.Proofs.Slots
import CoralReef.Misc.ListSchedule

/-!
# The dependency graph after register allocation

The tracker holds, for every register, the next instruction that writes it and those that read it
before. An edge joins instructions that are linked, and linked instructions are joined by a path.
-/

open List
open Function (update update_eq_self update_idem update_of_ne update_self)

namespace CoralReef.Postpass

variable {sm : ShaderModel} {instrs : List Instr}

/-- `o` is the first number from `k` on with property `P`. -/
structure FirstFrom (k : Nat) (P : Nat → Prop) (o : Option Nat) : Prop where
  some : ∀ b, o = some b → k ≤ b ∧ P b ∧ ∀ i, k ≤ i → P i → b ≤ i
  none : o = none → ∀ i, k ≤ i → ¬ P i

namespace FirstFrom

variable {k : Nat} {P : Nat → Prop} {o : Option Nat}

theorem here (holds : P k) : FirstFrom k P (Option.some k) := by
  constructor
  · rintro b same
    cases same
    exact ⟨Nat.le_refl k, holds, fun i from_ _ => from_⟩
  · intro empty
    cases empty

theorem later (first : FirstFrom (k + 1) P o) (fails : ¬ P k) : FirstFrom k P o := by
  have skip : ∀ i, k ≤ i → P i → k + 1 ≤ i := by
    intro i from_ holds
    have : i ≠ k := by
      rintro rfl
      exact fails holds
    omega
  constructor
  · intro b same
    obtain ⟨from_, holds, least⟩ := first.some b same
    exact ⟨by omega, holds, fun i from_ holds => least i (skip i from_ holds) holds⟩
  · exact fun empty i from_ holds => first.none empty i (skip i from_ holds) holds

/-- A later number with the property is the first one or comes after it. -/
theorem exists_le (first : FirstFrom k P o) {i : Nat} (from_ : k ≤ i) (holds : P i) :
    ∃ b, o = Option.some b ∧ k ≤ b ∧ P b ∧ b ≤ i := by
  cases isFirst : o with
  | none => exact absurd holds (first.none isFirst i from_)
  | some b =>
    obtain ⟨fromB, holdsB, least⟩ := first.some b isFirst
    exact ⟨b, rfl, fromB, holdsB, least i from_ holds⟩

end FirstFrom

variable {instr : Instr} {state : GraphState}

/-- What the loop knows when the instructions from `k` on have been visited. -/
structure Behind (instrs : List Instr) (k : Nat) (state : GraphState) : Prop where
  write : ∀ slot, FirstFrom k (Has instrs fun instr => slot ∈ instr.writes)
    ((state.uses slot).write.map Prod.fst)
  reads : ∀ slot r, r ∈ (state.uses slot).reads.map Prod.fst ↔
    k ≤ r ∧ Has instrs (fun instr => slot ∈ instr.reads ∨ slot ∈ instr.guards) r ∧
      ∀ i, k ≤ i → Has instrs (fun instr => slot ∈ instr.writes) i → r ≤ i
  memory : FirstFrom k (Has instrs fun instr => sideEffectType instr.op = .memory)
    state.lastMemoryOp
  barrier : FirstFrom k (Has instrs fun instr => sideEffectType instr.op = .barrier)
    state.lastBarrierOp

/-- The numbers of the heads of an instruction's edges. -/
theorem mem_nodeEdges {ip estimate h : Nat} {dsts srcs : List (Nat × Slot)}
    (isWrites : dsts.map Prod.snd = instr.writes) (isReads : srcs.map Prod.snd = instr.reads) :
    h ∈ (nodeEdges sm instrs ip instr estimate dsts srcs state).map Edge.headIdx ↔
      state.lastBarrierOp = some h ∨
      (sideEffectType instr.op = .barrier ∧ ip < h ∧
        h < state.lastBarrierOp.getD instrs.length) ∨
      (sideEffectType instr.op = .memory ∧ state.lastMemoryOp = some h) ∨
      (∃ slot ∈ instr.writes, (state.uses slot).write.map Prod.fst = some h ∨
        h ∈ (state.uses slot).reads.map Prod.fst) ∨
      ∃ slot ∈ instr.reads, (state.uses slot).write.map Prod.fst = some h := by
  have order : h ∈ (orderEdges instrs ip instr state).map Edge.headIdx ↔
      state.lastBarrierOp = some h ∨
      (sideEffectType instr.op = .barrier ∧ ip < h ∧
        h < state.lastBarrierOp.getD instrs.length) ∨
      (sideEffectType instr.op = .memory ∧ state.lastMemoryOp = some h) := by
    unfold orderEdges
    rw [map_append, mem_append]
    apply or_congr
    · cases state.lastBarrierOp with
      | none => simp
      | some b => simp [eq_comm]
    · cases class_ : sideEffectType instr.op with
      | none => simp
      | barrier =>
        simp only [map_map, Function.comp_def, map_id', mem_range'_1, true_and,
          reduceCtorEq, false_and, or_false]
        omega
      | memory =>
        cases state.lastMemoryOp with
        | none => simp
        | some m => simp [eq_comm]
  have write : ∀ i slot, h ∈ (dstEdges sm instrs instr estimate state.uses i slot).map Edge.headIdx ↔
      (state.uses slot).write.map Prod.fst = some h ∨
        h ∈ (state.uses slot).reads.map Prod.fst := by
    intro i slot
    unfold dstEdges
    rw [map_append, mem_append, map_map]
    apply or_congr
    · cases (state.uses slot).write with
      | none => simp
      | some w =>
        simp only [map_cons, map_nil, mem_singleton, Option.map_some,
          Option.some.injEq]
        exact eq_comm
    · rfl
  have read : ∀ i slot, h ∈ (srcEdges sm instrs instr state.uses i slot).map Edge.headIdx ↔
      (state.uses slot).write.map Prod.fst = some h := by
    intro i slot
    unfold srcEdges
    cases (state.uses slot).write with
    | none => simp
    | some w =>
      simp only [map_cons, map_nil, mem_singleton, Option.map_some,
        Option.some.injEq]
      exact eq_comm
  have past : ∀ (slots : List (Nat × Slot)) (P : Slot → Prop),
      (∃ entry ∈ slots, P entry.2) ↔ ∃ slot ∈ slots.map Prod.snd, P slot := by
    intro slots P
    constructor
    · rintro ⟨entry, member, holds⟩
      exact ⟨entry.2, mem_map_of_mem member, holds⟩
    · rintro ⟨slot, member, holds⟩
      obtain ⟨entry, inSlots, rfl⟩ := mem_map.mp member
      exact ⟨entry, inSlots, holds⟩
  unfold nodeEdges
  rw [map_append, map_append, mem_append, mem_append, order, map_flatMap,
    map_flatMap, mem_flatMap, mem_flatMap, ← isWrites, ← isReads]
  simp only [write, read]
  rw [past dsts fun slot => (state.uses slot).write.map Prod.fst = some h ∨
      h ∈ (state.uses slot).reads.map Prod.fst,
    past srcs fun slot => (state.uses slot).write.map Prod.fst = some h]
  simp only [or_assoc]

/-- A register that an instruction writes starts over. -/
theorem setWrites {ip : Nat} {slot : Slot} : ∀ (dsts : List (Nat × Slot)) (uses : RegTracker RegUse),
    let uses' := dsts.foldl (fun uses (entry : Nat × Slot) =>
      update uses entry.2 ((uses entry.2).setWrite (ip, entry.1))) uses
    (slot ∈ dsts.map Prod.snd → (uses' slot).reads = [] ∧
      (uses' slot).write.map Prod.fst = some ip) ∧
    (slot ∉ dsts.map Prod.snd → uses' slot = uses slot) := by
  intro dsts
  induction dsts with
  | nil => exact fun uses => ⟨by simp, fun _ => rfl⟩
  | cons entry dsts ih =>
    intro uses
    obtain ⟨written, kept⟩ :=
      ih (update uses entry.2 ((uses entry.2).setWrite (ip, entry.1)))
    simp only [map_cons, mem_cons, not_or, foldl_cons]
    by_cases later : slot ∈ dsts.map Prod.snd
    · exact ⟨fun _ => written later, fun absent => absurd later absent.2⟩
    · rw [kept later]
      refine ⟨?_, fun absent => update_of_ne absent.1 ..⟩
      intro isWritten
      rw [isWritten.resolve_right later, update_self]
      exact ⟨rfl, rfl⟩

/-- A register that an instruction reads is noted. -/
theorem addReads {α : Type} {ip : Nat} {slot : Slot} (slotOf : α → Slot) (src : α → Option Nat) :
    ∀ (entries : List α) (uses : RegTracker RegUse),
      let uses' := entries.foldl (fun uses entry => update uses (slotOf entry)
        ((uses (slotOf entry)).addRead (ip, src entry))) uses
      (uses' slot).write = (uses slot).write ∧
      ∀ r, r ∈ (uses' slot).reads.map Prod.fst ↔
        r ∈ (uses slot).reads.map Prod.fst ∨ (r = ip ∧ slot ∈ entries.map slotOf) := by
  intro entries
  induction entries with
  | nil => exact fun uses => ⟨rfl, by simp⟩
  | cons entry entries ih =>
    intro uses
    obtain ⟨write, reads⟩ := ih (update uses (slotOf entry)
      ((uses (slotOf entry)).addRead (ip, src entry)))
    simp only [foldl_cons, map_cons, mem_cons]
    rw [write]
    by_cases same : slot = slotOf entry
    · refine ⟨by rw [same, update_self]; rfl, ?_⟩
      intro r
      rw [reads, same, update_self, RegUse.addRead, map_append, mem_append]
      simp
      tauto
    · refine ⟨by rw [update_of_ne same], ?_⟩
      intro r
      rw [reads, update_of_ne same]
      simp [same]

/-- The tracker after an instruction. -/
theorem nodeUses_spec {ip : Nat} {dsts srcs : List (Nat × Slot)}
    (isWrites : dsts.map Prod.snd = instr.writes) (isReads : srcs.map Prod.snd = instr.reads)
    (uses : RegTracker RegUse) (slot : Slot) :
    let uses' := nodeUses ip dsts srcs instr.guards uses
    (uses' slot).write.map Prod.fst =
      (if slot ∈ instr.writes then some ip else (uses slot).write.map Prod.fst) ∧
    ∀ r, r ∈ (uses' slot).reads.map Prod.fst ↔
      (slot ∉ instr.writes ∧ r ∈ (uses slot).reads.map Prod.fst) ∨
        (r = ip ∧ (slot ∈ instr.reads ∨ slot ∈ instr.guards)) := by
  obtain ⟨written, kept⟩ := @setWrites ip slot dsts uses
  obtain ⟨write₁, reads₁⟩ := @addReads Slot ip slot id (fun _ => none) instr.guards
    (dsts.foldl (fun uses entry =>
      update uses entry.2 ((uses entry.2).setWrite (ip, entry.1))) uses)
  obtain ⟨write₂, reads₂⟩ := @addReads (Nat × Slot) ip slot Prod.snd (fun entry => some entry.1) srcs
    (instr.guards.foldl (fun uses slot =>
      update uses slot ((uses slot).addRead (ip, none)))
      (dsts.foldl (fun uses entry =>
        update uses entry.2 ((uses entry.2).setWrite (ip, entry.1))) uses))
  rw [isWrites] at written kept
  rw [isReads] at reads₂
  rw [map_id] at reads₁
  refine ⟨(congrArg _ (write₂.trans write₁)).trans ?_, ?_⟩
  · split
    next isWritten => exact (written isWritten).2
    next notWritten => rw [kept notWritten]
  · intro r
    refine (reads₂ r).trans ?_
    refine (or_congr_left (reads₁ r)).trans ?_
    by_cases isWritten : slot ∈ instr.writes
    · rw [(written isWritten).1]
      simp [isWritten]
      tauto
    · rw [kept isWritten]
      simp only [isWritten, not_false_eq_true, true_and]
      tauto

theorem foldlM_addEdge {ip : Nat} : ∀ (edges : List Edge) (g : DepGraph),
    (∀ e ∈ edges, e.headIdx < g.len) → edges.foldlM (fun g edge => g.addEdge ip edge) g =
      .ok { g with
        outgoingEdges := update g.outgoingEdges ip (g.outgoingEdges ip ++ edges) } := by
  intro edges
  induction edges with
  | nil =>
    intro g _
    rw [append_nil, update_eq_self]
    rfl
  | cons e edges ih =>
    intro g inside
    have here := inside e mem_cons_self
    rw [foldlM_cons, DepGraph.addEdge, decide_eq_true here, assertThat_true, ok_bind]
    have rest := ih { g with
      outgoingEdges := update g.outgoingEdges ip (g.outgoingEdges ip ++ [e]) }
      fun e' member => inside e' (mem_cons_of_mem e member)
    dsimp only at rest
    rw [update_self, update_idem, append_assoc] at rest
    exact rest

/-- What the edges of an instruction lead to. -/
theorem Behind.linked {ip estimate : Nat} (behind : Behind instrs (ip + 1) state)
    (here : instrs[ip]? = some instr) {dsts srcs : List (Nat × Slot)}
    (isWrites : dsts.map Prod.snd = instr.writes) (isReads : srcs.map Prod.snd = instr.reads)
    {h : Nat}
    (edge : h ∈ (nodeEdges sm instrs ip instr estimate dsts srcs state).map Edge.headIdx) :
    At Instr.Linked instrs ip h := by
  rw [mem_nodeEdges isWrites isReads] at edge
  rcases edge with bar | ⟨isBarrier, above, below⟩ | ⟨isMemory, mem⟩ | ⟨slot, inWrites, next | read⟩ |
      ⟨slot, inReads, next⟩
  · obtain ⟨from_, ⟨b, there, isBarrier⟩, -⟩ := behind.barrier.some h bar
    exact ⟨from_, instr, b, here, there, .inr (.inr (.inr (.inr isBarrier)))⟩
  · have inside : h < instrs.length := by
      cases last : state.lastBarrierOp with
      | none =>
        rw [last] at below
        exact below
      | some bar =>
        rw [last] at below
        have := (behind.barrier.some bar last).2.1.lt
        exact Nat.lt_trans below this
    exact ⟨above, instr, instrs[h], here, getElem?_eq_getElem inside,
      .inr (.inr (.inr (.inl isBarrier)))⟩
  · obtain ⟨from_, ⟨b, there, isMemory'⟩, -⟩ := behind.memory.some h mem
    exact ⟨from_, instr, b, here, there, .inr (.inr (.inl ⟨isMemory, isMemory'⟩))⟩
  · obtain ⟨from_, ⟨b, there, written⟩, -⟩ := (behind.write slot).some h next
    exact ⟨from_, instr, b, here, there, .inl ⟨slot, inWrites, .inl written⟩⟩
  · obtain ⟨from_, ⟨b, there, isRead⟩, -⟩ := (behind.reads slot h).mp read
    exact ⟨from_, instr, b, here, there, .inl ⟨slot, inWrites, .inr isRead⟩⟩
  · obtain ⟨from_, ⟨b, there, written⟩, -⟩ := (behind.write slot).some h next
    exact ⟨from_, instr, b, here, there, .inr (.inl ⟨slot, written, inReads⟩)⟩

theorem Behind.step {ip : Nat} (behind : Behind instrs (ip + 1) state)
    (here : instrs[ip]? = some instr) (inFiles : instr.InFiles) {estimate : Nat}
    (estimated : estimateVariableLatency sm instr.op = .ok estimate)
    (len : state.g.len = instrs.length) :
    ∃ dsts srcs state', graphStep sm instrs ip instr state = .ok state' ∧
      dsts.map Prod.snd = instr.writes ∧ srcs.map Prod.snd = instr.reads ∧
      state'.g = { state.g with
        outgoingEdges := update state.g.outgoingEdges ip (state.g.outgoingEdges ip ++
          nodeEdges sm instrs ip instr estimate dsts srcs state)
        label := update state.g.label ip
          (nodeLabel sm instrs instr estimate (state.g.label ip)) } ∧
      Behind instrs ip state' := by
  obtain ⟨dsts, foundDsts, isWrites⟩ := Instr.dstSlots_ok inFiles
  obtain ⟨srcs, foundSrcs, isReads⟩ := Instr.srcSlots_ok inFiles
  have inside : ∀ e ∈ nodeEdges sm instrs ip instr estimate dsts srcs state,
      e.headIdx < state.g.len := by
    intro e member
    rw [len]
    exact (behind.linked here isWrites isReads (mem_map_of_mem member)).lt
  refine ⟨dsts, srcs, {
      g := { state.g with
        outgoingEdges := update state.g.outgoingEdges ip (state.g.outgoingEdges ip ++
          nodeEdges sm instrs ip instr estimate dsts srcs state)
        label := update state.g.label ip
          (nodeLabel sm instrs instr estimate (state.g.label ip)) }
      uses := nodeUses ip dsts srcs instr.guards state.uses
      lastMemoryOp := if sideEffectType instr.op = .memory then some ip else state.lastMemoryOp
      lastBarrierOp := if sideEffectType instr.op = .barrier then some ip
        else state.lastBarrierOp }, ?_, isWrites, isReads, rfl, ?_⟩
  · rw [graphStep, foundDsts, ok_bind, foundSrcs, ok_bind, Instr.predSlots_ok inFiles, ok_bind,
      estimated, ok_bind]
    dsimp only
    rw [foldlM_addEdge _ _ inside, ok_bind]
    rfl
  · have class_ : ∀ kind : SideEffect, ∀ o,
        FirstFrom (ip + 1) (Has instrs fun instr => sideEffectType instr.op = kind) o →
          FirstFrom ip (Has instrs fun instr => sideEffectType instr.op = kind)
            (if sideEffectType instr.op = kind then some ip else o) := by
      intro kind o first
      split
      next isKind => exact .here ((has_iff here).mpr isKind)
      next other => exact first.later fun has => other ((has_iff here).mp has)
    refine ⟨?_, ?_, class_ .memory _ behind.memory, class_ .barrier _ behind.barrier⟩
    · intro slot
      dsimp only
      rw [(nodeUses_spec isWrites isReads state.uses slot).1]
      split
      next isWritten => exact .here ((has_iff here).mpr isWritten)
      next notWritten => exact (behind.write slot).later fun has => notWritten ((has_iff here).mp has)
    · intro slot r
      dsimp only
      rw [(nodeUses_spec isWrites isReads state.uses slot).2]
      constructor
      · rintro (⟨notWritten, known⟩ | ⟨rfl, isRead⟩)
        · obtain ⟨from_, has, before⟩ := (behind.reads slot r).mp known
          refine ⟨by omega, has, ?_⟩
          intro i above writes
          have : i ≠ ip := by
            rintro rfl
            exact notWritten ((has_iff here).mp writes)
          exact before i (by omega) writes
        · exact ⟨Nat.le_refl r, (has_iff here).mpr isRead, fun i above _ => above⟩
      · rintro ⟨from_, has, before⟩
        by_cases isHere : r = ip
        · subst isHere
          exact .inr ⟨rfl, (has_iff here).mp has⟩
        · have notWritten : slot ∉ instr.writes := by
            intro written
            have := before ip (Nat.le_refl ip) ((has_iff here).mpr written)
            omega
          exact .inl ⟨notWritten, (behind.reads slot r).mpr
            ⟨by omega, has, fun i above writes => before i (by omega) writes⟩⟩

/-- The node of an instruction, as the loop has built it. -/
def NodeBuilt (sm : ShaderModel) (instrs : List Instr) (g : DepGraph) (i : Nat) (instr : Instr) :
    Prop :=
  ∃ estimate dsts srcs state, estimateVariableLatency sm instr.op = .ok estimate ∧
    dsts.map Prod.snd = instr.writes ∧ srcs.map Prod.snd = instr.reads ∧
    Behind instrs (i + 1) state ∧
    g.outgoingEdges i = nodeEdges sm instrs i instr estimate dsts srcs state ∧
    g.label i = nodeLabel sm instrs instr estimate {}

/-- The nodes from `k` on have been built. -/
structure Built (sm : ShaderModel) (instrs : List Instr) (k : Nat) (state : GraphState) : Prop where
  behind : Behind instrs k state
  len : state.g.len = instrs.length
  done : ∀ i instr, k ≤ i → instrs[i]? = some instr → NodeBuilt sm instrs state.g i instr
  fresh : ∀ i, i < k → state.g.outgoingEdges i = [] ∧ state.g.label i = {}
  outside : ∀ i, instrs.length ≤ i → state.g.outgoingEdges i = [] ∧ state.g.label i = {}

/-- What the scheduler needs of a block: the registers are in their files, and every instruction
that needs a scoreboard has an estimate. -/
structure Schedulable (sm : ShaderModel) (instrs : List Instr) : Prop where
  inFiles : ∀ instr ∈ instrs, instr.InFiles
  estimated : ∀ instr ∈ instrs, ∃ estimate, estimateVariableLatency sm instr.op = .ok estimate

theorem Built.step {k : Nat} (built : Built sm instrs (k + 1) state)
    (schedulable : Schedulable sm instrs) (here : instrs[k]? = some instr) :
    ∃ state', graphStep sm instrs k instr state = .ok state' ∧ Built sm instrs k state' := by
  have member := mem_of_getElem? here
  obtain ⟨estimate, estimated⟩ := schedulable.estimated instr member
  obtain ⟨dsts, srcs, state', runs, isWrites, isReads, graph, behind⟩ :=
    built.behind.step here (schedulable.inFiles instr member) estimated built.len
  obtain ⟨noEdges, noLabel⟩ := built.fresh k (Nat.lt_succ_self k)
  refine ⟨state', runs, behind, by rw [graph]; exact built.len, ?_, ?_, ?_⟩
  · intro i other from_ there
    by_cases same : i = k
    · subst same
      rw [here] at there
      cases there
      refine ⟨estimate, dsts, srcs, state, estimated, isWrites, isReads, built.behind, ?_, ?_⟩
      · rw [graph]
        dsimp only
        rw [update_self, noEdges, nil_append]
      · rw [graph]
        dsimp only
        rw [update_self, noLabel]
    · obtain ⟨estimate, dsts, srcs, earlier, facts⟩ := built.done i other (by omega) there
      refine ⟨estimate, dsts, srcs, earlier, ?_⟩
      rw [graph]
      dsimp only
      rwa [update_of_ne same, update_of_ne same]
  · intro i below
    rw [graph]
    dsimp only
    rw [update_of_ne (by omega), update_of_ne (by omega)]
    exact built.fresh i (by omega)
  · intro i outside
    have inside := (List.getElem?_eq_some_iff.mp here).1
    rw [graph]
    dsimp only
    rw [update_of_ne (by omega), update_of_ne (by omega)]
    exact built.outside i outside

/-- The graph is built, node by node. -/
theorem generateDepGraph_ok (schedulable : Schedulable sm instrs) :
    ∃ g, generateDepGraph sm instrs = .ok g ∧ g.len = instrs.length ∧
      (∀ i instr, instrs[i]? = some instr → NodeBuilt sm instrs g i instr) ∧
      ∀ i, instrs.length ≤ i → g.outgoingEdges i = [] ∧ g.label i = {} := by
  have loop : ∀ k, k ≤ instrs.length → ∀ state, Built sm instrs k state →
      ∃ state', (instrs.take k).zipIdx.reverse.foldlM
          (fun state entry => graphStep sm instrs entry.2 entry.1 state) state = .ok state' ∧
        Built sm instrs 0 state' := by
    intro k
    induction k with
    | zero => exact fun _ state built => ⟨state, rfl, built⟩
    | succ k ih =>
      intro inside state built
      have here : instrs[k]? = some instrs[k] := getElem?_eq_getElem inside
      obtain ⟨state₁, first, built₁⟩ := built.step schedulable here
      obtain ⟨state', rest, built'⟩ := ih (by omega) state₁ built₁
      refine ⟨state', ?_, built'⟩
      have next : (instrs.take (k + 1)).zipIdx.reverse =
          (instrs[k], k) :: (instrs.take k).zipIdx.reverse := by
        rw [take_add_one, here, zipIdx_append, reverse_append]
        simp [Nat.min_eq_left (Nat.le_of_lt inside)]
      rw [next, foldlM_cons]
      show (graphStep sm instrs k instrs[k] state >>= _) = _
      rw [first, ok_bind]
      exact rest
  have start : Built sm instrs instrs.length { g := { len := instrs.length } } := by
    have none : ∀ P, FirstFrom instrs.length (Has instrs P) Option.none := by
      intro P
      constructor
      · intro b same
        cases same
      · intro _ i from_ has
        have := has.lt
        omega
    refine ⟨⟨fun slot => none _, ?_, none _, none _⟩, rfl, ?_, fun _ _ => ⟨rfl, rfl⟩,
      fun _ _ => ⟨rfl, rfl⟩⟩
    · intro slot r
      constructor
      · intro known
        cases known
      · rintro ⟨from_, has, -⟩
        have := has.lt
        omega
    · intro i instr from_ there
      have := (List.getElem?_eq_some_iff.mp there).1
      omega
  obtain ⟨state', runs, built⟩ := loop instrs.length (Nat.le_refl _) _ start
  rw [take_length] at runs
  refine ⟨state'.g, ?_, built.len, fun i instr here => built.done i instr (Nat.zero_le i) here,
    built.outside⟩
  rw [generateDepGraph, runs]
  rfl

section Links

variable {g : DepGraph} (nodes : ∀ i instr, instrs[i]? = some instr → NodeBuilt sm instrs g i instr)
include nodes

/-- Edges join linked instructions. -/
theorem linked_of_edge {i h : Nat} {instr : Instr} (here : instrs[i]? = some instr)
    (edge : h ∈ g.heads i) : At Instr.Linked instrs i h := by
  obtain ⟨estimate, dsts, srcs, state, -, isWrites, isReads, behind, edges, -⟩ := nodes i instr here
  rw [DepGraph.heads, edges] at edge
  exact behind.linked here isWrites isReads edge

/-- Linked instructions are joined by a path. -/
theorem path_of_linked : ∀ {i j : Nat}, At Instr.Linked instrs i j →
    Relation.TransGen (ListSchedule.Edge g.heads) i j := by
  have down : ∀ k i j, instrs.length ≤ i + k → At Instr.Linked instrs i j →
      Relation.TransGen (ListSchedule.Edge g.heads) i j := by
    intro k
    induction k with
    | zero =>
      intro i j enough linked
      have := linked.lt
      have := linked.1
      omega
    | succ k ih =>
      rintro i j enough ⟨below, a, b, here, there, linked⟩
      obtain ⟨estimate, dsts, srcs, state, -, isWrites, isReads, behind, edges, -⟩ := nodes i a here
      have edge : ∀ h, h ∈ (nodeEdges sm instrs i a estimate dsts srcs state).map Edge.headIdx →
          ListSchedule.Edge g.heads i h := by
        intro h member
        rw [ListSchedule.Edge, DepGraph.heads, edges]
        exact member
      -- a path over an instruction in between that is linked to the last
      have past : ∀ h c, i < h → h ≤ j → instrs[h]? = some c → (h ≠ j → c.Linked b) →
          ListSchedule.Edge g.heads i h → Relation.TransGen (ListSchedule.Edge g.heads) i j := by
        intro h c above upTo between rest first
        by_cases last : h = j
        · exact last ▸ .single first
        · exact .head first (ih h j (by omega) ⟨by omega, c, b, between, there, rest last⟩)
      -- a path over the next write of a register
      have overWrite : ∀ slot, slot ∈ b.writes ∨ slot ∈ b.reads ∨ slot ∈ b.guards →
          (slot ∈ a.writes ∨ slot ∈ a.reads) → ∀ h, i < h → h ≤ j →
          (state.uses slot).write.map Prod.fst = some h →
          Relation.TransGen (ListSchedule.Edge g.heads) i j := by
        intro slot inB inA h above upTo next
        obtain ⟨-, ⟨c, between, written⟩, -⟩ := (behind.write slot).some h next
        refine past h c above upTo between (fun _ => .inl ⟨slot, written, inB⟩) (edge h ?_)
        rw [mem_nodeEdges isWrites isReads]
        rcases inA with inWrites | inReads
        · exact .inr (.inr (.inr (.inl ⟨slot, inWrites, .inl next⟩)))
        · exact .inr (.inr (.inr (.inr ⟨slot, inReads, next⟩)))
      rcases linked with ⟨slot, written, inB⟩ | ⟨slot, written, isRead⟩ |
          ⟨isMemory, isMemory'⟩ | isBarrier | isBarrier
      · by_cases early : ∃ h, i + 1 ≤ h ∧ h ≤ j ∧
            Has instrs (fun instr => slot ∈ instr.writes) h ∧ (h = j → slot ∈ b.writes)
        · obtain ⟨h, above, upTo, writes, -⟩ := early
          obtain ⟨h', next, above', -, upTo'⟩ := (behind.write slot).exists_le above writes
          exact overWrite slot inB (.inl written) h' above' (by omega) next
        · push Not at early
          have notWritten : slot ∉ b.writes := by
            intro writtenB
            exact (early j below (Nat.le_refl j) ⟨b, there, writtenB⟩).2 writtenB
          have before : ∀ h, i + 1 ≤ h → Has instrs (fun instr => slot ∈ instr.writes) h → j ≤ h := by
            intro h above writes
            by_contra less
            have := (early h above (by omega) writes).1
            omega
          refine .single (edge j ?_)
          rw [mem_nodeEdges isWrites isReads]
          exact .inr (.inr (.inr (.inl ⟨slot, written, .inr ((behind.reads slot j).mpr
            ⟨below, ⟨b, there, inB.resolve_left notWritten⟩, before⟩)⟩)))
      · obtain ⟨h, next, above, -, upTo⟩ := (behind.write slot).exists_le below ⟨b, there, written⟩
        exact overWrite slot (.inl written) (.inr isRead) h above upTo next
      · obtain ⟨h, next, above, ⟨c, between, inClass⟩, upTo⟩ :=
          behind.memory.exists_le below ⟨b, there, isMemory'⟩
        refine past h c above upTo between (fun _ => .inr (.inr (.inl ⟨inClass, isMemory'⟩))) (edge h ?_)
        rw [mem_nodeEdges isWrites isReads]
        exact .inr (.inr (.inl ⟨isMemory, next⟩))
      · have direct : j < state.lastBarrierOp.getD instrs.length →
            Relation.TransGen (ListSchedule.Edge g.heads) i j := by
          intro within
          refine .single (edge j ?_)
          rw [mem_nodeEdges isWrites isReads]
          exact .inr (.inl ⟨isBarrier, below, within⟩)
        cases last : state.lastBarrierOp with
        | none =>
          apply direct
          rw [last]
          exact (List.getElem?_eq_some_iff.mp there).1
        | some h =>
          by_cases upTo : h ≤ j
          · obtain ⟨above, ⟨c, between, inClass⟩, -⟩ := behind.barrier.some h last
            refine past h c above upTo between (fun _ => .inr (.inr (.inr (.inl inClass))))
              (edge h ?_)
            rw [mem_nodeEdges isWrites isReads]
            exact .inl last
          · apply direct
            rw [last]
            exact Nat.lt_of_not_le upTo
      · obtain ⟨h, next, above, ⟨c, between, inClass⟩, upTo⟩ :=
          behind.barrier.exists_le below ⟨b, there, isBarrier⟩
        refine past h c above upTo between (fun _ => .inr (.inr (.inr (.inr isBarrier)))) (edge h ?_)
        rw [mem_nodeEdges isWrites isReads]
        exact .inl next
  intro i j linked
  exact down instrs.length i j (by omega) linked

end Links

end CoralReef.Postpass
