import CoralReef.Codegen.CalcInstrDeps.Proofs.Waits

/-!
# The accesses of an instruction

Which dependencies an instruction waits on, and which ones stay in use.
-/

open List
open Function (update update_of_ne update_self)

namespace CoralReef.AssignBarriers

/-- The uses before and after the accesses of an instruction, the dependencies it waits on, and
those of its own. -/
structure Visits (guards srcs dsts : List Slot) (Own : Nat → Prop)
    (uses uses' : RegTracker (RegUse Nat)) (waits : List Nat) : Prop where
  old : ∀ dep ∈ waits, ∃ slot, dep ∈ (uses slot).deps
  fresh : ∀ slot, ∀ dep ∈ (uses' slot).deps, dep ∈ (uses slot).deps ∨ Own dep
  write : ∀ slot dep, uses slot = .write dep → uses' slot = .write dep ∨ dep ∈ waits
  kept : ∀ slot, ∀ dep ∈ (uses slot).deps, dep ∈ (uses' slot).deps ∨ dep ∈ waits
  access : ∀ slot, slot ∈ guards ∨ slot ∈ srcs ∨ slot ∈ dsts → ∀ dep,
    uses slot = .write dep → dep ∈ waits
  overwrite : ∀ slot ∈ dsts, ∀ dep ∈ (uses slot).deps, dep ∈ waits

/-- A read waits on a write, and drops nothing. -/
structure ReadsUse (Reads : Nat → Prop) (update : RegUse Nat → RegUse Nat × RegUse Nat) : Prop where
  returns : ∀ dep, dep ∈ (update (.write dep)).2.deps
  keeps : ∀ use, ∀ dep ∈ use.deps, dep ∈ (update use).1.deps ∨ dep ∈ (update use).2.deps
  fresh : ∀ use, ∀ dep ∈ (update use).1.deps, dep ∈ use.deps ∨ Reads dep
  writes : ∀ use, ∀ dep ∈ (update use).2.deps, use = .write dep
  stays : ∀ use dep, (update use).1 = .write dep → use = .write dep

/-- A write waits on everything. -/
structure WritesUse (Writes : Nat → Prop) (update : RegUse Nat → RegUse Nat × RegUse Nat) : Prop
    where
  returns : ∀ use, (update use).2 = use
  fresh : ∀ use, ∀ dep ∈ (update use).1.deps, Writes dep

theorem clearWrite_reads : ReadsUse (fun _ => False) RegUse.clearWrite := by
  constructor
  · exact fun _ => mem_cons_self
  · intro use dep member
    cases use with
    | write _ => exact .inr member
    | none => exact .inl member
    | reads _ => exact .inl member
  · intro use dep member
    cases use with
    | write _ => cases member
    | none => cases member
    | reads _ => exact .inl member
  · intro use dep member
    cases use with
    | write _ => rw [mem_singleton.mp member]
    | none => cases member
    | reads _ => cases member
  · intro use dep stays
    cases use with
    | write _ | none | reads _ => cases stays

theorem addRead_reads (rd : Nat) : ReadsUse (fun dep => dep = rd) (RegUse.addRead rd) := by
  constructor
  · exact fun _ => mem_cons_self
  · intro use dep member
    cases use with
    | write _ => exact .inr member
    | none => cases member
    | reads _ => exact .inl (mem_append_left _ member)
  · intro use dep member
    cases use with
    | write _ | none => exact .inr (mem_singleton.mp member)
    | reads _ => exact (mem_append.mp member).imp_right mem_singleton.mp
  · intro use dep member
    cases use with
    | write _ => rw [mem_singleton.mp member]
    | none => cases member
    | reads _ => cases member
  · intro use dep stays
    cases use with
    | write _ | none | reads _ => cases stays

theorem clear_writes : WritesUse (fun _ => False) RegUse.clear :=
  ⟨fun _ => rfl, fun _ _ never => nomatch never⟩

theorem setWrite_writes (wr : Nat) : WritesUse (fun dep => dep = wr) (RegUse.setWrite wr) :=
  ⟨fun _ => rfl, fun _ _ member => mem_singleton.mp member⟩

section Reads

variable {Reads : Nat → Prop} {read : RegUse Nat → RegUse Nat × RegUse Nat} {slots : List Slot}
  {uses : RegTracker (RegUse Nat)} {slot : Slot} {dep : Nat}

theorem ReadsUse.visit_fresh (reads : ReadsUse Reads read)
    (member : dep ∈ ((visitUses read slots uses).1 slot).deps) :
    dep ∈ (uses slot).deps ∨ Reads dep ∧ slots ≠ [] := by
  by_cases visited : slot ∈ slots
  · have sub : ∀ d ∈ ((visitUses read slots uses).1 slot).deps,
        d ∈ (uses slot).deps ∨ Reads d := by
      apply visitUses_keeps (R := fun use => ∀ d ∈ use.deps, d ∈ (uses slot).deps ∨ Reads d)
      · intro use holds d isDep
        exact (reads.fresh use d isDep).elim (holds d) .inr
      · exact fun d isDep => .inl isDep
    exact (sub dep member).imp_right fun own => ⟨own, ne_nil_of_mem visited⟩
  · rw [visitUses_other visited] at member
    exact .inl member

theorem ReadsUse.visit_stays (reads : ReadsUse Reads read)
    (stays : (visitUses read slots uses).1 slot = .write dep) : uses slot = .write dep := by
  have sub : ∀ d, (visitUses read slots uses).1 slot = .write d → uses slot = .write d := by
    apply visitUses_keeps (R := fun use => ∀ d, use = .write d → uses slot = .write d)
    · intro use holds d isWrite
      exact holds d (reads.stays use d isWrite)
    · exact fun d isWrite => isWrite
  exact sub dep stays

theorem ReadsUse.visit_returned (reads : ReadsUse Reads read)
    (member : dep ∈ (visitUses read slots uses).2) : ∃ slot, uses slot = .write dep := by
  have all : ∀ d ∈ (visitUses read slots uses).2, ∃ slot, uses slot = .write d := by
    apply visitUses_all (R := fun use => ∀ d, use = .write d → ∃ slot, uses slot = .write d)
      (Q := fun d => ∃ slot, uses slot = .write d)
    · intro use holds d isWrite
      exact holds d (reads.stays use d isWrite)
    · intro use holds d isDep
      exact holds d (reads.writes use d isDep)
    · exact fun slot d isWrite => ⟨slot, isWrite⟩
  exact all dep member

theorem ReadsUse.visit_write (reads : ReadsUse Reads read) (isWrite : uses slot = .write dep) :
    (visitUses read slots uses).1 slot = .write dep ∨ dep ∈ (visitUses read slots uses).2 := by
  apply visitUses_kept (R := fun use => use = .write dep)
  · rintro _ rfl
    exact .inr (reads.returns dep)
  · exact isWrite

theorem ReadsUse.visit_kept (reads : ReadsUse Reads read) (member : dep ∈ (uses slot).deps) :
    dep ∈ ((visitUses read slots uses).1 slot).deps ∨ dep ∈ (visitUses read slots uses).2 := by
  apply visitUses_kept (R := fun use => dep ∈ use.deps)
  · intro use holds
    exact reads.keeps use dep holds
  · exact member

theorem ReadsUse.visit_access (reads : ReadsUse Reads read) (visited : slot ∈ slots)
    (isWrite : uses slot = .write dep) : dep ∈ (visitUses read slots uses).2 := by
  apply visitUses_returns visited
  rw [isWrite]
  exact reads.returns dep

end Reads

section

variable {guards srcs dsts : List Slot} {uses : RegTracker (RegUse Nat)} {Reads Writes : Nat → Prop}
  {read write : RegUse Nat → RegUse Nat × RegUse Nat} {dstWaits : List Nat}

/-- The guard, the sources and the destinations of an instruction, one after the other. Its own
reads are not waited on. -/
theorem visits_of (reads : ReadsUse Reads read) (writes : WritesUse Writes write)
    (once : dsts.Nodup) (apart : ∀ slot, ∀ dep ∈ (uses slot).deps, ¬Reads dep)
    (others : ∀ dep, dep ∈ dstWaits ↔
      dep ∈ (visitUses write dsts (visitUses read srcs
        (visitUses RegUse.clearWrite guards uses).1).1).2 ∧ ¬Reads dep) :
    Visits guards srcs dsts (fun dep => Reads dep ∧ srcs ≠ [] ∨ Writes dep ∧ dsts ≠ []) uses
      (visitUses write dsts (visitUses read srcs
        (visitUses RegUse.clearWrite guards uses).1).1).1
      ((visitUses RegUse.clearWrite guards uses).2 ++
        (visitUses read srcs (visitUses RegUse.clearWrite guards uses).1).2 ++ dstWaits) := by
  let guarded := visitUses RegUse.clearWrite guards uses
  let visited := visitUses read srcs guarded.1
  have old : ∀ slot, ∀ dep ∈ (visited.1 slot).deps,
      dep ∈ (uses slot).deps ∨ Reads dep ∧ srcs ≠ [] := by
    intro slot dep member
    rcases reads.visit_fresh member with before | own
    · rcases clearWrite_reads.visit_fresh before with before | ⟨never, _⟩
      · exact .inl before
      · exact never.elim
    · exact .inr own
  have returned : ∀ slot ∈ dsts, ∀ dep ∈ (visited.1 slot).deps, ¬Reads dep → dep ∈ dstWaits := by
    intro slot isDst dep member foreign
    refine (others dep).mpr ⟨visitUses_returns isDst ?_, foreign⟩
    rw [writes.returns]
    exact member
  have kept : ∀ slot, ∀ dep ∈ (uses slot).deps,
      dep ∈ (visited.1 slot).deps ∨ dep ∈ guarded.2 ++ visited.2 := by
    intro slot dep member
    rw [mem_append]
    rcases clearWrite_reads.visit_kept member with still | isGuard
    · exact (reads.visit_kept still).imp_right .inr
    · exact .inr (.inl isGuard)
  have stays : ∀ slot dep, uses slot = .write dep →
      visited.1 slot = .write dep ∨ dep ∈ guarded.2 ++ visited.2 := by
    intro slot dep isWrite
    rw [mem_append]
    rcases clearWrite_reads.visit_write isWrite with still | isGuard
    · exact (reads.visit_write still).imp_right .inr
    · exact .inr (.inl isGuard)
  have inUse : ∀ {slot dep}, uses slot = .write dep → dep ∈ (uses slot).deps := by
    intro slot dep isWrite
    rw [isWrite]
    exact mem_cons_self
  have overwrite : ∀ slot ∈ dsts, ∀ dep ∈ (uses slot).deps,
      dep ∈ guarded.2 ++ visited.2 ++ dstWaits := by
    intro slot isDst dep member
    rw [mem_append]
    rcases kept slot dep member with still | waited
    · exact .inr (returned slot isDst dep still (apart slot dep member))
    · exact .inl waited
  constructor
  · intro dep member
    rw [mem_append, mem_append] at member
    rcases member with (isGuard | isSrc) | isDst
    · rcases clearWrite_reads.visit_returned isGuard with ⟨slot, isWrite⟩
      exact ⟨slot, inUse isWrite⟩
    · rcases reads.visit_returned isSrc with ⟨slot, isWrite⟩
      exact ⟨slot, inUse (clearWrite_reads.visit_stays isWrite)⟩
    · rcases (others dep).mp isDst with ⟨isDst, foreign⟩
      rcases visitUses_nodup once isDst with ⟨slot, _, member⟩
      rw [writes.returns] at member
      exact ⟨slot, (old slot dep member).resolve_right fun own => foreign own.1⟩
  · intro slot dep member
    by_cases isDst : slot ∈ dsts
    · refine .inr (.inr ⟨?_, ne_nil_of_mem isDst⟩)
      have all : ∀ d ∈ ((visitUses write dsts visited.1).1 slot).deps, Writes d := by
        apply visitUses_establishes (R := fun use => ∀ d ∈ use.deps, Writes d) writes.fresh isDst
      exact all dep member
    · rw [visitUses_other isDst] at member
      exact (old slot dep member).imp_right .inl
  · intro slot dep isWrite
    by_cases isDst : slot ∈ dsts
    · exact .inr (overwrite slot isDst dep (inUse isWrite))
    · rw [visitUses_other isDst]
      exact (stays slot dep isWrite).imp_right (mem_append_left _)
  · intro slot dep member
    by_cases isDst : slot ∈ dsts
    · exact .inr (overwrite slot isDst dep member)
    · rw [visitUses_other isDst]
      exact (kept slot dep member).imp_right (mem_append_left _)
  · intro slot accessed dep isWrite
    rcases accessed with isGuard | isSrc | isDst
    · exact mem_append_left _
        (mem_append_left _ (clearWrite_reads.visit_access isGuard isWrite))
    · rcases clearWrite_reads.visit_write isWrite with still | waited
      · exact mem_append_left _ (mem_append_right _ (reads.visit_access isSrc still))
      · exact mem_append_left _ (mem_append_left _ waited)
    · exact overwrite slot isDst dep (inUse isWrite)
  · exact overwrite

end

section

variable {guards srcs dsts : List Slot} {p : Point} {state : Tracked}

theorem trackFixed_visits (once : dsts.Nodup) :
    ∃ waits, Visits guards srcs dsts (fun _ => False) state.uses
        (trackFixed p guards srcs dsts state).uses waits ∧
      (trackFixed p guards srcs dsts state).deps = state.deps.addWaits p waits := by
  let visited := visitUses RegUse.clearWrite srcs (visitUses RegUse.clearWrite guards state.uses).1
  have all : ∀ dep, dep ∈ (visitUses RegUse.clear dsts visited.1).2 ↔
      dep ∈ (visitUses RegUse.clear dsts visited.1).2 ∧ ¬False :=
    fun _ => (and_iff_left not_false).symm
  have visits := visits_of clearWrite_reads clear_writes once (fun _ _ _ never => never) all
  refine ⟨_, ⟨visits.old, ?_, visits.write, visits.kept, visits.access, visits.overwrite⟩, rfl⟩
  intro slot dep member
  exact (visits.fresh slot dep member).imp_right
    fun own => own.elim (fun never => never.1) fun never => never.1

/-- The graph with the dependencies of one more instruction. -/
def withInstr (graph : DepGraph) (p : Point) (srcs dsts : List Slot) : DepGraph :=
  ((graph.addInstr p).2.addSignals graph.count srcs).addSignals (graph.count + 1) dsts

theorem trackScoreboard_visits (once : dsts.Nodup)
    (below : ∀ slot, ∀ dep ∈ (state.uses slot).deps, dep < state.deps.count) :
    ∃ waits, Visits guards srcs dsts
        (fun dep => dep = state.deps.count ∧ srcs ≠ [] ∨ dep = state.deps.count + 1 ∧ dsts ≠ [])
        state.uses (trackScoreboard p guards srcs dsts state).uses waits ∧
      (trackScoreboard p guards srcs dsts state).deps =
        (withInstr state.deps p srcs dsts).addWaits p waits := by
  refine ⟨_, visits_of (addRead_reads state.deps.count) (setWrite_writes (state.deps.count + 1))
    once ?_ ?_, rfl⟩
  · intro slot dep member
    exact Nat.ne_of_lt (below slot dep member)
  · intro dep
    rw [mem_filter, decide_eq_true_eq]

/-- The instruction's own dependencies are in use. -/
theorem trackScoreboard_own {slot : Slot} :
    (slot ∈ dsts →
      (trackScoreboard p guards srcs dsts state).uses slot = .write (state.deps.count + 1)) ∧
    (slot ∈ srcs →
      state.deps.count ∈ ((trackScoreboard p guards srcs dsts state).uses slot).deps ∨
      (trackScoreboard p guards srcs dsts state).uses slot = .write (state.deps.count + 1)) := by
  have written : slot ∈ dsts →
      (trackScoreboard p guards srcs dsts state).uses slot = .write (state.deps.count + 1) := by
    intro isDst
    exact visitUses_establishes (R := fun use => use = .write (state.deps.count + 1))
      (fun _ => rfl) isDst
  refine ⟨written, ?_⟩
  intro isSrc
  by_cases isDst : slot ∈ dsts
  · exact .inr (written isDst)
  · left
    have adds : ∀ use : RegUse Nat, state.deps.count ∈ (use.addRead state.deps.count).1.deps := by
      intro use
      cases use with
      | none | write _ => exact mem_cons_self
      | reads earlier => exact mem_append_right earlier mem_cons_self
    change state.deps.count ∈ ((visitUses _ dsts _).1 slot).deps
    rw [visitUses_other isDst]
    exact visitUses_establishes (R := fun use => state.deps.count ∈ use.deps) adds isSrc

end

/-!
## The numbers of the dependencies

An instruction that needs the scoreboard has two dependencies, for its reads and for its writes.
Later instructions have larger ones, and only later instructions wait on them.
-/

namespace DepGraph

variable {dep : Nat}

/-- The dependency is one of the instruction at the point. -/
def Owns (graph : DepGraph) (p : Point) (dep : Nat) : Prop :=
  ∃ rd wr, graph.instrDeps p = some (rd, wr) ∧ (dep = rd ∨ dep = wr)

/-- The dependencies after the instructions at some points. -/
structure Numbered (graph : DepGraph) (points : List Point) : Prop where
  pair : ∀ p rd wr, graph.instrDeps p = some (rd, wr) → rd < wr ∧ wr < graph.count ∧
    graph.readDep rd = none ∧ graph.readDep wr = some rd
  point : ∀ p dep, graph.Owns p dep → p ∈ points
  reader : ∀ w r, graph.readDep w = some r → ∃ p, graph.instrDeps p = some (r, w)
  owner : ∀ dep < graph.count, ∃ p, graph.Owns p dep
  ordered : ∀ p q d d', graph.Owns p d → graph.Owns q d' → p.Before q → d < d'
  fresh : ∀ dep, graph.count ≤ dep → graph.firstWait dep = none ∧ graph.readDep dep = none
  waits : ∀ dep q, graph.firstWait dep = some q ↔ dep ∈ graph.instrWaits q
  later : ∀ dep q, graph.firstWait dep = some q →
    q ∈ points ∧ ∀ p, graph.Owns p dep → p.Before q

variable {graph : DepGraph} {points : List Point} {p : Point}

theorem numbered_nil : ({} : DepGraph).Numbered [] := by
  constructor
  · intro _ _ _ never
    cases never
  · rintro _ _ ⟨_, _, never, _⟩
    cases never
  · intro _ _ never
    cases never
  · intro _ never
    cases never
  · rintro _ _ _ _ ⟨_, _, never, _⟩
    cases never
  · exact fun _ _ => ⟨rfl, rfl⟩
  · intro _ _
    constructor
    · intro never
      cases never
    · intro never
      cases never
  · intro _ _ never
    cases never

theorem Numbered.paired (numbered : graph.Numbered points) : graph.Paired := by
  intro w r reads v reads'
  rcases numbered.reader v w reads' with ⟨q, owns⟩
  have none := (numbered.pair q w v owns).2.2.1
  rw [reads] at none
  cases none

/-- A dependency belongs to one instruction. -/
theorem Numbered.below (numbered : graph.Numbered points) (owns : graph.Owns p dep) :
    dep < graph.count := by
  rcases owns with ⟨rd, wr, isPair, rfl | rfl⟩
  · exact Nat.lt_trans (numbered.pair p _ _ isPair).1 (numbered.pair p _ _ isPair).2.1
  · exact (numbered.pair p _ _ isPair).2.1

theorem Numbered.mono (numbered : graph.Numbered points) {more : List Point}
    (sub : ∀ q ∈ points, q ∈ more) : graph.Numbered more where
  pair := numbered.pair
  point q dep owns := sub q (numbered.point q dep owns)
  reader := numbered.reader
  owner := numbered.owner
  ordered := numbered.ordered
  fresh := numbered.fresh
  waits := numbered.waits
  later dep q waited := ⟨sub q (numbered.later dep q waited).1, (numbered.later dep q waited).2⟩

/-- No one waited at the next point. -/
theorem Numbered.firstWait_ne (numbered : graph.Numbered points)
    (next : ∀ q ∈ points, q.Before p) (dep : Nat) : graph.firstWait dep ≠ some p := by
  intro waited
  exact Point.Before.irrefl p (next p (numbered.later dep p waited).1)

theorem Numbered.instrDeps_next (numbered : graph.Numbered points)
    (next : ∀ q ∈ points, q.Before p) : graph.instrDeps p = none := by
  rw [Option.eq_none_iff_forall_ne_some]
  rintro ⟨rd, wr⟩ isPair
  exact Point.Before.irrefl p (next p (numbered.point p rd ⟨rd, wr, isPair, .inl rfl⟩))

/-! ## One more wait -/

@[simp] theorem addWaits_owns {waits : List Nat} {q : Point} :
    (graph.addWaits p waits).Owns q dep ↔ graph.Owns q dep := by
  rw [Owns, Owns, addWaits_instrDeps]

theorem Numbered.addWaits (numbered : graph.Numbered points) {waits : List Nat} (isPoint : p ∈ points)
    (new : ∀ dep, graph.firstWait dep ≠ some p)
    (earlier : ∀ dep ∈ waits, ∀ q, graph.Owns q dep → q.Before p)
    (known : ∀ dep ∈ graph.active, dep < graph.count) : (graph.addWaits p waits).Numbered points := by
  constructor
  · simpa using numbered.pair
  · simpa using numbered.point
  · simpa using numbered.reader
  · simpa using numbered.owner
  · simpa using numbered.ordered
  · intro dep large
    rw [addWaits_count] at large
    rw [addWaits_readDep, (addWaits_firstWait dep).2 ?_]
    · exact numbered.fresh dep large
    · rintro ⟨_, _, isActive, _⟩
      exact absurd (known dep isActive) (Nat.not_lt.mpr large)
  · intro dep q
    by_cases here : WaitedHere graph waits dep
    · rw [(addWaits_firstWait dep).1 here]
      by_cases same : q = p
      · subst same
        exact ⟨fun _ => mem_addWaits_instrWaits.mpr here, fun _ => rfl⟩
      · rw [addWaits_instrWaits same, ← numbered.waits, here.2.1]
        constructor
        · intro equal
          cases equal
          exact absurd rfl same
        · intro never
          cases never
    · rw [(addWaits_firstWait dep).2 here]
      by_cases same : q = p
      · subst same
        constructor
        · intro waited
          exact absurd waited (new dep)
        · intro member
          exact absurd (mem_addWaits_instrWaits.mp member) here
      · rw [addWaits_instrWaits same, numbered.waits]
  · intro dep q waited
    simp only [addWaits_owns]
    by_cases here : WaitedHere graph waits dep
    · rw [(addWaits_firstWait dep).1 here] at waited
      cases waited
      exact ⟨isPoint, earlier dep here.1⟩
    · rw [(addWaits_firstWait dep).2 here] at waited
      exact numbered.later dep q waited

/-! ## One more instruction -/

variable {srcs dsts : List Slot}

theorem withInstr_instrDeps :
    (withInstr graph p srcs dsts).instrDeps =
      update graph.instrDeps p (some (graph.count, graph.count + 1)) := by
  rw [withInstr, (addSignals_rest _ _ _).2.2.1, (addSignals_rest _ _ _).2.2.1]
  rfl

@[simp] theorem withInstr_count : (withInstr graph p srcs dsts).count = graph.count + 2 := by
  rw [withInstr, (addSignals_rest _ _ _).1, (addSignals_rest _ _ _).1]
  rfl

@[simp] theorem withInstr_instrWaits :
    (withInstr graph p srcs dsts).instrWaits = graph.instrWaits := by
  rw [withInstr, (addSignals_rest _ _ _).2.2.2, (addSignals_rest _ _ _).2.2.2]
  rfl

theorem withInstr_nodes :
    (withInstr graph p srcs dsts).nodes =
      update (update graph.nodes graph.count {}) (graph.count + 1)
        { readDep := some graph.count } := by
  rw [withInstr, (addSignals_rest _ _ _).2.1, (addSignals_rest _ _ _).2.1]
  rfl

theorem mem_withInstr_active :
    dep ∈ (withInstr graph p srcs dsts).active ↔ dep ∈ graph.active ∨
      dep = graph.count ∧ srcs ≠ [] ∨ dep = graph.count + 1 ∧ dsts ≠ [] := by
  rw [withInstr, mem_addSignals, mem_addSignals, or_assoc]
  rfl

theorem withInstr_firstWait (numbered : graph.Numbered points) (dep : Nat) :
    (withInstr graph p srcs dsts).firstWait dep = graph.firstWait dep := by
  rw [firstWait, withInstr_nodes]
  by_cases isWrite : dep = graph.count + 1
  · subst isWrite
    rw [update_self, (numbered.fresh _ (Nat.le_succ _)).1]
  · rw [update_of_ne isWrite]
    by_cases isRead : dep = graph.count
    · subst isRead
      rw [update_self, (numbered.fresh _ Nat.le.refl).1]
    · rw [update_of_ne isRead]
      rfl

theorem withInstr_readDep (numbered : graph.Numbered points) (dep : Nat) :
    (withInstr graph p srcs dsts).readDep dep =
      if dep = graph.count + 1 then some graph.count else graph.readDep dep := by
  rw [readDep, withInstr_nodes]
  by_cases isWrite : dep = graph.count + 1
  · subst isWrite
    rw [update_self, if_pos rfl]
  · rw [update_of_ne isWrite, if_neg isWrite]
    by_cases isRead : dep = graph.count
    · subst isRead
      rw [update_self, (numbered.fresh _ Nat.le.refl).2]
    · rw [update_of_ne isRead]
      rfl

theorem withInstr_owns {q : Point} (other : q ≠ p) :
    (withInstr graph p srcs dsts).Owns q dep ↔ graph.Owns q dep := by
  rw [Owns, Owns, withInstr_instrDeps, update_of_ne other]

theorem withInstr_owns_self :
    (withInstr graph p srcs dsts).Owns p dep ↔ dep = graph.count ∨ dep = graph.count + 1 := by
  rw [Owns, withInstr_instrDeps, update_self]
  constructor
  · rintro ⟨_, _, equal, isDep⟩
    cases equal
    exact isDep
  · exact fun isDep => ⟨_, _, rfl, isDep⟩

theorem Numbered.withInstr (numbered : graph.Numbered points) (next : ∀ q ∈ points, q.Before p) :
    (withInstr graph p srcs dsts).Numbered (points ++ [p]) := by
  have apart : ∀ {q : Point} {dep : Nat}, graph.Owns q dep → q ≠ p := by
    rintro q dep owns rfl
    exact Point.Before.irrefl q (next q (numbered.point q dep owns))
  have cases_owns : ∀ {q : Point} {dep : Nat}, (AssignBarriers.withInstr graph p srcs dsts).Owns q dep →
      q ≠ p ∧ graph.Owns q dep ∨ q = p ∧ (dep = graph.count ∨ dep = graph.count + 1) := by
    intro q dep owns
    by_cases same : q = p
    · subst same
      exact .inr ⟨rfl, withInstr_owns_self.mp owns⟩
    · exact .inl ⟨same, (withInstr_owns same).mp owns⟩
  constructor
  · intro q rd wr isPair
    rw [withInstr_instrDeps] at isPair
    rw [withInstr_count, withInstr_readDep numbered, withInstr_readDep numbered]
    by_cases same : q = p
    · subst same
      rw [update_self] at isPair
      cases isPair
      refine ⟨Nat.lt_succ_self _, Nat.lt_succ_self _, ?_, if_pos rfl⟩
      rw [if_neg (Nat.ne_of_lt (Nat.lt_succ_self _))]
      exact (numbered.fresh _ Nat.le.refl).2
    · rw [update_of_ne same] at isPair
      rcases numbered.pair q rd wr isPair with ⟨less, known, unread, read⟩
      refine ⟨less, by omega, ?_, ?_⟩
      · rw [if_neg (by omega), unread]
      · rw [if_neg (by omega), read]
  · intro q dep owns
    rw [mem_append, mem_singleton]
    rcases cases_owns owns with ⟨_, old⟩ | ⟨same, _⟩
    · exact .inl (numbered.point q dep old)
    · exact .inr same
  · intro w r reads
    rw [withInstr_readDep numbered] at reads
    rw [withInstr_instrDeps]
    by_cases isWrite : w = graph.count + 1
    · rw [if_pos isWrite] at reads
      cases reads
      subst isWrite
      exact ⟨p, update_self ..⟩
    · rw [if_neg isWrite] at reads
      rcases numbered.reader w r reads with ⟨q, isPair⟩
      refine ⟨q, ?_⟩
      rw [update_of_ne (apart ⟨r, w, isPair, .inl rfl⟩), isPair]
  · intro dep known
    rw [withInstr_count] at known
    by_cases old : dep < graph.count
    · rcases numbered.owner dep old with ⟨q, owns⟩
      exact ⟨q, (withInstr_owns (apart owns)).mpr owns⟩
    · exact ⟨p, withInstr_owns_self.mpr (by omega)⟩
  · intro q q' d d' owns owns' before
    rcases cases_owns owns with ⟨_, old⟩ | ⟨rfl, isDep⟩
    · rcases cases_owns owns' with ⟨_, old'⟩ | ⟨rfl, isDep'⟩
      · exact numbered.ordered q q' d d' old old' before
      · have below := numbered.below old
        omega
    · rcases cases_owns owns' with ⟨_, old'⟩ | ⟨rfl, _⟩
      · exact absurd before (next q' (numbered.point q' d' old')).asymm
      · exact absurd before (Point.Before.irrefl q')
  · intro dep large
    rw [withInstr_count] at large
    rw [withInstr_firstWait numbered, withInstr_readDep numbered, if_neg (by omega)]
    exact numbered.fresh dep (by omega)
  · intro dep q
    rw [withInstr_firstWait numbered, withInstr_instrWaits]
    exact numbered.waits dep q
  · intro dep q waited
    rw [withInstr_firstWait numbered] at waited
    rcases numbered.later dep q waited with ⟨isPoint, before⟩
    refine ⟨mem_append_left _ isPoint, ?_⟩
    intro q' owns
    rcases cases_owns owns with ⟨_, old⟩ | ⟨rfl, isDep⟩
    · exact before q' old
    · rw [(numbered.fresh dep (by omega)).1] at waited
      cases waited

theorem Done.withInstr (numbered : graph.Numbered points) (done : graph.Done dep) :
    (withInstr graph p srcs dsts).Done dep := by
  rcases done with ⟨q, waited⟩ | ⟨w, q, reads, waited⟩
  · exact .inl ⟨q, (withInstr_firstWait numbered dep).trans waited⟩
  · refine .inr ⟨w, q, ?_, (withInstr_firstWait numbered w).trans waited⟩
    rw [withInstr_readDep numbered, if_neg, reads]
    rintro rfl
    rw [(numbered.fresh _ (Nat.le_succ _)).2] at reads
    cases reads

theorem Live.withInstr (numbered : graph.Numbered points) (live : graph.Live dep) :
    (withInstr graph p srcs dsts).Live dep :=
  live.imp (fun isActive => mem_withInstr_active.mpr (.inl isActive)) (Done.withInstr numbered)

end DepGraph

end CoralReef.AssignBarriers
