import CoralReef.Codegen.OptInstrSched.Prepass.GenerateOrder
import CoralReef.Codegen.OptInstrSched.Proofs.Slots
import CoralReef.Misc.ListSchedule

/-!
# The dependency graph before register allocation

The loop knows for each value the instruction that defines it, and the last memory operation and
barrier. An edge joins instructions that are linked, and linked instructions are joined by a path.
-/

open List

namespace CoralReef

/-- The second instruction uses a value that the first one defines. -/
def Instr.Flows (a b : Instr) : Prop := ∃ x ∈ a.ssaDefs, x ∈ b.ssaUses

namespace Prepass

variable {sm : ShaderModel} {instrs : List Instr}

/-- The instructions stay in order. -/
def Linked (a b : Instr) : Prop := a.Flows b ∨ a.OrderConflict b

/-- `o` is the last number below `k` with property `P`. -/
structure LastBefore (k : Nat) (P : Nat → Prop) (o : Option Nat) : Prop where
  some : ∀ b, o = some b → b < k ∧ P b ∧ ∀ i, i < k → P i → i ≤ b
  none : o = none → ∀ i, i < k → ¬ P i

namespace LastBefore

variable {k : Nat} {P : Nat → Prop} {o : Option Nat}

theorem start : LastBefore 0 P Option.none := by
  constructor
  · intro b never
    cases never
  · intro _ i below
    omega

theorem here (holds : P k) : LastBefore (k + 1) P (Option.some k) := by
  constructor
  · intro b same
    cases same
    exact ⟨Nat.lt_succ_self k, holds, fun i below _ => Nat.le_of_lt_succ below⟩
  · intro empty
    cases empty

theorem later (last : LastBefore k P o) (fails : ¬ P k) : LastBefore (k + 1) P o := by
  have skip : ∀ i, i < k + 1 → P i → i < k := by
    intro i below holds
    have : i ≠ k := by
      rintro rfl
      exact fails holds
    omega
  constructor
  · intro b same
    obtain ⟨below, holds, greatest⟩ := last.some b same
    exact ⟨by omega, holds, fun i below holds => greatest i (skip i below holds) holds⟩
  · exact fun empty i below holds => last.none empty i (skip i below holds) holds

/-- An earlier number with the property is the last one or comes before it. -/
theorem exists_ge (last : LastBefore k P o) {i : Nat} (below : i < k) (holds : P i) :
    ∃ b, o = Option.some b ∧ b < k ∧ P b ∧ i ≤ b := by
  cases isLast : o with
  | none => exact absurd holds (last.none isLast i below)
  | some b =>
    obtain ⟨belowB, holdsB, greatest⟩ := last.some b isLast
    exact ⟨b, rfl, belowB, holdsB, greatest i below holds⟩

end LastBefore

/-- Edges from the tails with property `T` to `ip` are added, and nothing else changes. -/
structure Adds (ip : Nat) (T : Nat → Prop) (g g' : DepGraph) : Prop where
  len : g'.len = g.len
  label : g'.label = g.label
  heads : ∀ t h, h ∈ g'.heads t ↔ h ∈ g.heads t ∨ (h = ip ∧ T t)

theorem Adds.none {ip : Nat} {T : Nat → Prop} (g : DepGraph) (never : ∀ t, ¬ T t) :
    Adds ip T g g :=
  ⟨rfl, rfl, fun t h => by simp [never]⟩

theorem Adds.trans {ip : Nat} {T U V : Nat → Prop} {g₁ g₂ g₃ : DepGraph} (first : Adds ip T g₁ g₂)
    (second : Adds ip U g₂ g₃) (both : ∀ t, V t ↔ T t ∨ U t) : Adds ip V g₁ g₃ := by
  refine ⟨second.len.trans first.len, second.label.trans first.label, ?_⟩
  intro t h
  rw [second.heads, first.heads, both]
  tauto

theorem addEdge_adds {g : DepGraph} {ip tail latency : Nat} (inside : ip < g.len) :
    ∃ g', g.addEdge tail ⟨latency, ip⟩ = .ok g' ∧ Adds ip (· = tail) g g' := by
  let outgoingEdges := Function.update g.outgoingEdges tail (g.outgoingEdges tail ++ [⟨latency, ip⟩])
  refine ⟨{ g with outgoingEdges }, ?_, rfl, rfl, ?_⟩
  · rw [DepGraph.addEdge, decide_eq_true inside, assertThat_true]
    rfl
  · intro t h
    by_cases same : t = tail
    · subst same
      simp [DepGraph.heads, outgoingEdges]
    · simp [DepGraph.heads, outgoingEdges, same]

/-- Adding edges one by one. -/
theorem foldlM_adds {α : Type} {ip n : Nat} {step : DepGraph → α → Except Fault DepGraph}
    {T : α → Nat → Prop} : ∀ (items : List α) (g : DepGraph), g.len = n →
      (∀ a ∈ items, ∀ g, g.len = n → ∃ g', step g a = .ok g' ∧ Adds ip (T a) g g') →
      ∃ g', items.foldlM step g = .ok g' ∧ Adds ip (fun t => ∃ a ∈ items, T a t) g g' := by
  intro items
  induction items with
  | nil => exact fun g _ _ => ⟨g, rfl, .none g (by simp)⟩
  | cons a items ih =>
    intro g len each
    obtain ⟨g₁, first, adds₁⟩ := each a mem_cons_self g len
    obtain ⟨g₂, rest, adds₂⟩ := ih g₁ (adds₁.len.trans len)
      fun b member => each b (mem_cons_of_mem a member)
    refine ⟨g₂, ?_, adds₁.trans adds₂ (by simp)⟩
    rw [foldlM_cons, first, ok_bind]
    exact rest

/-- Every op that is defined by hardware and needs a scoreboard has an estimate. -/
def Estimated (sm : ShaderModel) (instrs : List Instr) : Prop :=
  ∀ instr ∈ instrs, isVirtual instr.op = false →
    ∃ estimate, estimateVariableLatency sm instr.op = .ok estimate

theorem readLatency_ok {instr : Instr} {defOp : Op} {defIdx : Nat} {srcIdx : Option Nat}
    (estimated : isVirtual defOp = false → ∃ e, estimateVariableLatency sm defOp = .ok e) :
    ∃ latency, readLatency sm instr defOp defIdx srcIdx = .ok latency := by
  unfold readLatency
  cases srcIdx with
  | some i =>
    by_cases skip : (isVirtual defOp || isVirtual instr.op) = true
    · exact ⟨0, by simp [skip]; rfl⟩
    · obtain ⟨e, isE⟩ := estimated (by simp_all)
      exact ⟨_, by simp only [skip, isE]; rfl⟩
  | none =>
    by_cases skip : isVirtual defOp = true
    · exact ⟨0, by simp [skip]; rfl⟩
    · obtain ⟨e, isE⟩ := estimated (by simpa using skip)
      exact ⟨_, by simp only [skip, isE]; rfl⟩

/-- What the loop knows when the first `k` instructions have been visited. -/
structure Ahead (instrs : List Instr) (k : Nat) (state : GraphState) : Prop where
  defs : ∀ x, LastBefore k (Has instrs fun instr => x ∈ instr.ssaDefs)
    ((state.defs x).map Prod.fst)
  memory : LastBefore k (Has instrs fun instr => sideEffectType instr.op = .memory)
    state.lastMemoryOp
  barrier : LastBefore k (Has instrs fun instr => sideEffectType instr.op = .barrier)
    state.lastBarrierOp

/-- The tails of the edges to an instruction. -/
def IsTail (instr : Instr) (ip : Nat) (state : GraphState) (t : Nat) : Prop :=
  t ∈ orderTails ip instr state ∨ ∃ x ∈ instr.ssaUses, (state.defs x).map Prod.fst = some t

theorem mem_ssaReads {instr : Instr} {x : SSAValue} :
    x ∈ instr.ssaUses ↔ ∃ read ∈ ssaReads instr, read.1 = x := by
  have srcs : (∃ src ∈ instr.srcs, x ∈ src.iterSsa) ↔
      ∃ read ∈ instr.srcs.zipIdx.flatMap fun entry =>
        entry.1.iterSsa.map fun ssa => (ssa, some entry.2), read.1 = x := by
    constructor
    · rintro ⟨src, isSrc, inSrc⟩
      obtain ⟨i, here⟩ := mem_iff_getElem?.mp isSrc
      refine ⟨(x, some i), mem_flatMap.mpr ⟨(src, i), ?_, mem_map_of_mem inSrc⟩, rfl⟩
      exact mem_zipIdx_iff_getElem?.mpr here
    · rintro ⟨read, isRead, rfl⟩
      obtain ⟨⟨src, i⟩, inZip, isRead⟩ := mem_flatMap.mp isRead
      obtain ⟨ssa, inSrc, rfl⟩ := mem_map.mp isRead
      exact ⟨src, mem_of_getElem? (mem_zipIdx_iff_getElem?.mp inZip), inSrc⟩
  have guard : x ∈ instr.pred.iterSsa ↔
      ∃ read ∈ instr.pred.iterSsa.map fun ssa => (ssa, (none : Option Nat)), read.1 = x := by
    simp
  rw [Instr.ssaUses, mem_append, mem_flatMap, srcs, guard, ssaReads]
  simp only [mem_append, or_and_right, exists_or]
  exact or_comm

/-- One instruction of the loop. -/
theorem graphStep_ok {ip : Nat} {instr : Instr} {state : GraphState}
    (estimated : Estimated sm instrs) (inside : ip < state.g.len)
    (known : ∀ x d, state.defs x = some d → d.1 < instrs.length) :
    ∃ state', graphStep sm instrs ip instr state = .ok state' ∧
      Adds ip (IsTail instr ip state) state.g state'.g ∧
      state'.defs = instr.dsts.zipIdx.foldl (fun defs (dst, i) =>
        dst.iterSsa.foldl (fun defs ssa => Function.update defs ssa (some (ip, i))) defs) state.defs ∧
      state'.lastMemoryOp =
        (if sideEffectType instr.op = .memory then some ip else state.lastMemoryOp) ∧
      state'.lastBarrierOp =
        (if sideEffectType instr.op = .barrier then some ip else state.lastBarrierOp) := by
  obtain ⟨g₁, orders, adds₁⟩ := @foldlM_adds _ ip state.g.len
    (fun g tail => g.addEdge tail ⟨0, ip⟩) (fun tail t => t = tail) (orderTails ip instr state)
    state.g rfl fun tail _ g len => addEdge_adds (len ▸ inside)
  obtain ⟨g₂, reads, adds₂⟩ := @foldlM_adds _ ip state.g.len (addRead sm instrs ip instr state.defs)
    (fun read t => (state.defs read.1).map Prod.fst = some t) (ssaReads instr) g₁ adds₁.len (by
      intro read _ g len
      unfold addRead
      cases isDef : state.defs read.1 with
      | none => exact ⟨g, rfl, .none g (by simp)⟩
      | some d =>
        have below := known read.1 d isDef
        have here : instrs[d.1]? = some instrs[d.1] := List.getElem?_eq_getElem below
        obtain ⟨latency, isLatency⟩ := @readLatency_ok sm instr instrs[d.1].op d.2 read.2
          (estimated _ (getElem_mem below))
        obtain ⟨g', added, adds⟩ := @addEdge_adds g ip d.1 latency (len ▸ inside)
        refine ⟨g', ?_, adds.len, adds.label, ?_⟩
        · dsimp only
          rw [here, expect_some, ok_bind, isLatency, ok_bind, added]
        · intro t h
          rw [adds.heads, Option.map_some, Option.some.injEq, @eq_comm _ t])
  refine ⟨{
      g := g₂
      defs := instr.dsts.zipIdx.foldl (fun defs (dst, i) =>
        dst.iterSsa.foldl (fun defs ssa => Function.update defs ssa (some (ip, i))) defs) state.defs
      lastMemoryOp := if sideEffectType instr.op = .memory then some ip else state.lastMemoryOp
      lastBarrierOp := if sideEffectType instr.op = .barrier then some ip else state.lastBarrierOp },
    ?_, adds₁.trans adds₂ ?_, rfl, rfl, rfl⟩
  · rw [graphStep, orders, ok_bind, reads]
    rfl
  · intro t
    rw [IsTail]
    apply or_congr
    · simp
    · constructor
      · rintro ⟨x, used, isDef⟩
        obtain ⟨read, isRead, rfl⟩ := mem_ssaReads.mp used
        exact ⟨read, isRead, isDef⟩
      · rintro ⟨read, isRead, isDef⟩
        exact ⟨read.1, mem_ssaReads.mpr ⟨read, isRead, rfl⟩, isDef⟩

/-- The definitions of an instruction are entered. -/
theorem defs_enter {ip : Nat} {x : SSAValue} : ∀ (dsts : List (Dst × Nat))
    (defs : SSAValue → Option (Nat × Nat)),
    ((dsts.foldl (fun defs (dst, i) => dst.iterSsa.foldl (fun defs ssa =>
        Function.update defs ssa (some (ip, i))) defs) defs) x).map Prod.fst =
      if x ∈ dsts.flatMap (fun entry => entry.1.iterSsa) then some ip
        else (defs x).map Prod.fst := by
  have one : ∀ (i : Nat) (vals : List SSAValue) (defs : SSAValue → Option (Nat × Nat)),
      ((vals.foldl (fun defs ssa => Function.update defs ssa (some (ip, i))) defs) x).map Prod.fst =
        if x ∈ vals then some ip else (defs x).map Prod.fst := by
    intro i vals
    induction vals with
    | nil => exact fun _ => rfl
    | cons v vals ih =>
      intro defs
      rw [foldl_cons, ih]
      by_cases same : x = v
      · subst same
        simp
      · simp [same]
  intro dsts
  induction dsts with
  | nil => exact fun _ => rfl
  | cons entry dsts ih =>
    intro defs
    rw [foldl_cons, ih, one]
    simp only [flatMap_cons, mem_append]
    by_cases later : x ∈ dsts.flatMap fun entry => entry.1.iterSsa
    · rw [if_pos later, if_pos (.inr later)]
    · simp [later]

/-- A value is defined by one instruction. -/
theorem defines_unique (unique : (instrs.flatMap Instr.ssaDefs).Nodup) {i j : Nat} {a b : Instr}
    (here : instrs[i]? = some a) (there : instrs[j]? = some b) {x : SSAValue} (inA : x ∈ a.ssaDefs)
    (inB : x ∈ b.ssaDefs) : i = j := by
  have apart := (nodup_flatMap.mp unique).2
  have below : ∀ {i j : Nat} {a b : Instr}, instrs[i]? = some a → instrs[j]? = some b →
      x ∈ a.ssaDefs → x ∈ b.ssaDefs → ¬ i < j := by
    intro i j a b here there inA inB less
    obtain ⟨inside, rfl⟩ := List.getElem?_eq_some_iff.mp here
    obtain ⟨inside', rfl⟩ := List.getElem?_eq_some_iff.mp there
    exact pairwise_iff_getElem.mp apart i j inside inside' less inA inB
  have := below here there inA inB
  have := below there here inB inA
  omega

/-- What the loop has built when the first `k` instructions have been visited. -/
structure Built (instrs : List Instr) (k : Nat) (state : GraphState) : Prop where
  ahead : Ahead instrs k state
  len : state.g.len = instrs.length
  label : state.g.label = fun _ => {}
  sound : ∀ t h, h ∈ state.g.heads t → At Linked instrs t h
  complete : ∀ i j, j < k → At Linked instrs i j →
    Relation.TransGen (ListSchedule.Edge state.g.heads) i j

theorem Ahead.step {k : Nat} {state state' : GraphState} (ahead : Ahead instrs k state)
    {instr : Instr} (here : instrs[k]? = some instr)
    (defs : state'.defs = instr.dsts.zipIdx.foldl (fun defs (dst, i) =>
      dst.iterSsa.foldl (fun defs ssa => Function.update defs ssa (some (k, i))) defs) state.defs)
    (memory : state'.lastMemoryOp =
      (if sideEffectType instr.op = .memory then some k else state.lastMemoryOp))
    (barrier : state'.lastBarrierOp =
      (if sideEffectType instr.op = .barrier then some k else state.lastBarrierOp)) :
    Ahead instrs (k + 1) state' := by
  constructor
  · intro x
    rw [defs, defs_enter]
    have isDefs : instr.dsts.zipIdx.flatMap (fun entry => entry.1.iterSsa) = instr.ssaDefs := by
      rw [Instr.ssaDefs, ← flatMap_map, zipIdx_map_fst]
    rw [isDefs]
    split
    next defines => exact .here ((has_iff here).mpr defines)
    next other => exact (ahead.defs x).later fun has => other ((has_iff here).mp has)
  · rw [memory]
    split
    next isMemory => exact .here ((has_iff here).mpr isMemory)
    next other => exact ahead.memory.later fun has => other ((has_iff here).mp has)
  · rw [barrier]
    split
    next isBarrier => exact .here ((has_iff here).mpr isBarrier)
    next other => exact ahead.barrier.later fun has => other ((has_iff here).mp has)

/-- The tails of an instruction's edges are linked to it. -/
theorem Ahead.linked {k : Nat} {state : GraphState} (ahead : Ahead instrs k state) {instr : Instr}
    (here : instrs[k]? = some instr) {t : Nat} (isTail : IsTail instr k state t) :
    At Linked instrs t k := by
  have before : ∀ {P : Instr → Prop} {o : Option Nat}, LastBefore k (Has instrs P) o →
      o = some t → (∀ a, P a → Linked a instr) → At Linked instrs t k := by
    intro P o last isLast links
    obtain ⟨below, ⟨a, there, holds⟩, -⟩ := last.some t isLast
    exact ⟨below, a, instr, there, here, links a holds⟩
  rcases isTail with order | ⟨x, used, isDef⟩
  · rw [orderTails, mem_append, Option.mem_toList] at order
    rcases order with isLast | order
    · exact before ahead.barrier isLast fun a isBarrier => .inr (.inr (.inl isBarrier))
    · cases class_ : sideEffectType instr.op with
      | none => simp [class_] at order
      | barrier =>
        simp only [class_, mem_range'_1] at order
        have below : t < k := by omega
        have inside : t < instrs.length :=
          Nat.lt_trans below (List.getElem?_eq_some_iff.mp here).1
        exact ⟨below, instrs[t], instr, List.getElem?_eq_getElem inside, here,
          .inr (.inr (.inr class_))⟩
      | memory =>
        simp only [class_, Option.mem_toList] at order
        exact before ahead.memory order fun a isMemory => .inr (.inl ⟨isMemory, class_⟩)
  · exact before (ahead.defs x) isDef fun a defines => .inl ⟨x, defines, used⟩

/-- Instructions linked to the one at hand are joined to it by a path. -/
theorem Ahead.path {k : Nat} {state : GraphState} (ahead : Ahead instrs k state) {instr : Instr}
    (here : instrs[k]? = some instr) (unique : (instrs.flatMap Instr.ssaDefs).Nodup)
    {R : Nat → Nat → Prop} (edge : ∀ t, IsTail instr k state t → R t k)
    (earlier : ∀ i j, j < k → At Linked instrs i j → Relation.TransGen R i j) {i : Nat}
    (linked : At Linked instrs i k) : Relation.TransGen R i k := by
  obtain ⟨below, a, b, there, here', links⟩ := linked
  rw [here] at here'
  cases here'
  -- over an instruction in between that is linked to the first
  have past : ∀ h c, i ≤ h → h < k → instrs[h]? = some c → (i ≠ h → Linked a c) →
      IsTail instr k state h → Relation.TransGen R i k := by
    intro h c from_ belowH between links isTail
    by_cases same : i = h
    · exact .single (edge i (same ▸ isTail))
    · exact .tail (earlier i h belowH ⟨by omega, a, c, there, between, links same⟩) (edge h isTail)
  rcases links with ⟨x, defines, used⟩ | ⟨isMemory, isMemory'⟩ | isBarrier | isBarrier
  · obtain ⟨h, isLast, belowH, ⟨c, between, defines'⟩, from_⟩ :=
      (ahead.defs x).exists_ge below ⟨a, there, defines⟩
    have same := defines_unique unique there between defines defines'
    exact .single (edge i (.inr ⟨x, used, same ▸ isLast⟩))
  · obtain ⟨h, isLast, belowH, ⟨c, between, inClass⟩, from_⟩ :=
      ahead.memory.exists_ge below ⟨a, there, isMemory⟩
    apply past h c from_ belowH between fun _ => .inr (.inl ⟨isMemory, inClass⟩)
    left
    simp [orderTails, isMemory', isLast]
  · obtain ⟨h, isLast, belowH, ⟨c, between, inClass⟩, from_⟩ :=
      ahead.barrier.exists_ge below ⟨a, there, isBarrier⟩
    apply past h c from_ belowH between fun _ => .inr (.inr (.inl isBarrier))
    left
    simp [orderTails, isLast]
  · by_cases near : state.lastBarrierOp.getD 0 ≤ i
    · refine .single (edge i (.inl ?_))
      rw [orderTails, isBarrier, mem_append, mem_range'_1]
      right
      omega
    · cases isLast : state.lastBarrierOp with
      | none => simp [isLast] at near
      | some h =>
        rw [isLast, Option.getD_some] at near
        obtain ⟨belowH, ⟨c, between, inClass⟩, -⟩ := ahead.barrier.some h isLast
        apply past h c (by omega) belowH between fun _ => .inr (.inr (.inr inClass))
        left
        simp [orderTails, isLast]

theorem Built.step {k : Nat} {state : GraphState} (built : Built instrs k state)
    (estimated : Estimated sm instrs) (unique : (instrs.flatMap Instr.ssaDefs).Nodup)
    {instr : Instr} (here : instrs[k]? = some instr) :
    ∃ state', graphStep sm instrs k instr state = .ok state' ∧ Built instrs (k + 1) state' := by
  have inside := (List.getElem?_eq_some_iff.mp here).1
  obtain ⟨state', runs, adds, defs, memory, barrier⟩ := @graphStep_ok sm instrs k instr state
    estimated (built.len ▸ inside) (by
      intro x d isDef
      obtain ⟨-, has, -⟩ := (built.ahead.defs x).some d.1 (by rw [isDef]; rfl)
      exact has.lt)
  refine ⟨state', runs, built.ahead.step here defs memory barrier, adds.len.trans built.len,
    adds.label.trans built.label, ?_, ?_⟩
  · intro t h member
    rcases (adds.heads t h).mp member with old | ⟨rfl, isTail⟩
    · exact built.sound t h old
    · exact built.ahead.linked here isTail
  · have kept : ∀ i j, j < k → At Linked instrs i j →
        Relation.TransGen (ListSchedule.Edge state'.g.heads) i j := by
      intro i j below linked
      refine Relation.TransGen.mono ?_ _ _ (built.complete i j below linked)
      exact fun t h edge => (adds.heads t h).mpr (.inl edge)
    intro i j below linked
    rcases Nat.lt_succ_iff_lt_or_eq.mp below with earlier | rfl
    · exact kept i j earlier linked
    · exact built.ahead.path here unique (fun t isTail => (adds.heads t j).mpr (.inr ⟨rfl, isTail⟩))
        kept linked

/-- The graph is built, and its paths are those that keep linked instructions in order. -/
theorem generateDepGraph_ok (estimated : Estimated sm instrs)
    (unique : (instrs.flatMap Instr.ssaDefs).Nodup) : ∃ g, generateDepGraph sm instrs = .ok g ∧
      g.len = instrs.length ∧ g.label = (fun _ => {}) ∧
      (∀ t h, h ∈ g.heads t → At Linked instrs t h) ∧
      ∀ i j, At Linked instrs i j → Relation.TransGen (ListSchedule.Edge g.heads) i j := by
  have loop : ∀ k, k ≤ instrs.length → ∃ state, (instrs.take k).zipIdx.foldlM
      (fun state entry => graphStep sm instrs entry.2 entry.1 state)
      { g := { len := instrs.length } } = .ok state ∧ Built instrs k state := by
    intro k
    induction k with
    | zero =>
      intro _
      refine ⟨_, rfl, ⟨fun _ => .start, .start, .start⟩, rfl, rfl, ?_, ?_⟩
      · intro t h never
        cases never
      · intro i j never
        omega
    | succ k ih =>
      intro inside
      obtain ⟨state, earlier, built⟩ := ih (by omega)
      have here : instrs[k]? = some instrs[k] := List.getElem?_eq_getElem inside
      obtain ⟨state', last, built'⟩ := built.step estimated unique here
      refine ⟨state', ?_, built'⟩
      rw [take_add_one, here, Option.toList_some, zipIdx_append, foldlM_append, earlier,
        ok_bind]
      simp only [length_take, Nat.min_eq_left (Nat.le_of_lt inside), zipIdx_singleton,
        Nat.zero_add, foldlM_cons, last, ok_bind, foldlM_nil]
      rfl
  obtain ⟨state, runs, built⟩ := loop instrs.length (Nat.le_refl _)
  rw [take_length] at runs
  refine ⟨state.g, ?_, built.len, built.label, built.sound, ?_⟩
  · rw [generateDepGraph, runs]
    rfl
  · intro i j linked
    exact built.complete i j linked.lt linked

end Prepass

end CoralReef
