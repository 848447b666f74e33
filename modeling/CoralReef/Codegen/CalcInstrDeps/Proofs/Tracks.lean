import CoralReef.Codegen.CalcInstrDeps.Proofs.Visits

/-!
# Every hazard is waited on

In the order of the blocks, whoever accesses a register that an instruction of variable latency
still has to write or to read comes after the first wait on that instruction, or is this wait.
-/

open List

namespace CoralReef

theorem RegTracker.index_eq {reg : RegRef} {slots : List Slot} (indexed : index reg = .ok slots) :
    slots = reg.slots := by
  unfold index at indexed
  unfold RegRef.slots
  cases isFile : reg.file with
  | bar =>
      rw [isFile] at indexed
      cases indexed
      rfl
  | mem =>
      rw [isFile] at indexed
      cases indexed
  | _ =>
      simp only [isFile, bind_eq_ok] at indexed
      rcases indexed with ⟨_, _, returned⟩
      cases returned
      simp

theorem RegTracker.operandSlots_eq {α : Type} {ref : α → Option RegRef} {operands : List α}
    {slots : List (Nat × Slot)} (found : operandSlots ref operands = .ok slots) :
    slots.map Prod.snd = operands.flatMap fun a => ((ref a).map RegRef.slots).getD [] := by
  have each : ∀ (step : α × Nat → Except Fault (List (Nat × Slot))),
      (∀ entry out, step entry = .ok out →
        out.map Prod.snd = ((ref entry.1).map RegRef.slots).getD []) →
      ∀ (entries : List (α × Nat)) (out : List (List (Nat × Slot))),
        entries.mapM step = .ok out → out.flatten.map Prod.snd =
          (entries.map Prod.fst).flatMap fun a => ((ref a).map RegRef.slots).getD [] := by
    intro step one entries
    induction entries with
    | nil =>
        intro out mapped
        cases mapped
        rfl
    | cons entry entries hind =>
        intro out mapped
        rw [mapM_cons] at mapped
        rcases bind_eq_ok.mp mapped with ⟨first, isFirst, mapped⟩
        rcases bind_eq_ok.mp mapped with ⟨rest, isRest, returned⟩
        cases returned
        rw [flatten_cons, map_append, hind rest isRest, map_cons, flatMap_cons,
          one entry first isFirst]
  rcases bind_eq_ok.mp found with ⟨out, mapped, returned⟩
  cases returned
  rw [each _ ?_ _ out mapped, zipIdx_map_fst]
  rintro ⟨operand, i⟩ first isFirst
  cases isReg : ref operand with
  | none =>
      simp only [isReg] at isFirst
      cases isFirst
      rfl
  | some reg =>
      simp only [isReg] at isFirst
      rcases bind_eq_ok.mp isFirst with ⟨slots, indexed, returned⟩
      cases returned
      rw [index_eq indexed]
      simp [Function.comp_def]

/-- The second instruction overwrites a register that an operand of the first one reads. -/
def Instr.SourceHazard (a b : Instr) : Prop := ∃ slot ∈ b.writes, slot ∈ a.reads

namespace AssignBarriers

open CoralReef.AssignBarriers.DepGraph

/-- The dependency is waited on at the point or before, by itself or with the writes of its
instruction. -/
def DepGraph.DoneBy (graph : DepGraph) (q : Point) (dep : Nat) : Prop :=
  (∃ w, graph.firstWait dep = some w ∧ ¬q.Before w) ∨
    ∃ v w, graph.readDep v = some dep ∧ graph.firstWait v = some w ∧ ¬q.Before w

theorem DepGraph.DoneBy.addWaits {graph : DepGraph} {p q : Point} {waits : List Nat} {dep : Nat}
    (done : graph.DoneBy q dep) : (graph.addWaits p waits).DoneBy q dep := by
  rcases done with ⟨w, waited, notLater⟩ | ⟨v, w, reads, waited, notLater⟩
  · exact .inl ⟨w, addWaits_waited waited, notLater⟩
  · exact .inr ⟨v, w, by rw [addWaits_readDep, reads], addWaits_waited waited, notLater⟩

/-- What is done is done by the last point. -/
theorem DepGraph.Numbered.doneBy {graph : DepGraph} {points : List Point} {p : Point} {dep : Nat}
    (numbered : graph.Numbered points) (last : ∀ q ∈ points, ¬p.Before q) (done : graph.Done dep) :
    graph.DoneBy p dep := by
  rcases done with ⟨q, waited⟩ | ⟨w, q, reads, waited⟩
  · exact .inl ⟨q, waited, last q (numbered.later dep q waited).1⟩
  · exact .inr ⟨w, q, reads, waited, last q (numbered.later w q waited).1⟩

/-- The instruction `b` comes after the waits on the hazards with `a`. -/
def Apart (graph : DepGraph) (rd wr : Nat) (q : Point) (a b : Instr) : Prop :=
  (b.isBranch = false →
    (a.WriteHazard b → graph.DoneBy q wr) ∧ (a.SourceHazard b → graph.DoneBy q rd)) ∧
  (b.isBranch = true →
    (a.writes ≠ [] → graph.DoneBy q wr) ∧ (a.reads ≠ [] → graph.DoneBy q rd))

theorem Apart.addWaits {graph : DepGraph} {rd wr : Nat} {p q : Point} {a b : Instr}
    {waits : List Nat} (apart : Apart graph rd wr q a b) :
    Apart (graph.addWaits p waits) rd wr q a b := by
  constructor
  · intro passes
    exact ⟨fun hazard => ((apart.1 passes).1 hazard).addWaits,
      fun hazard => ((apart.1 passes).2 hazard).addWaits⟩
  · intro isBranch
    exact ⟨fun some_dst => ((apart.2 isBranch).1 some_dst).addWaits,
      fun some_src => ((apart.2 isBranch).2 some_src).addWaits⟩

/-- What the tracker knows of an instruction with the dependencies `rd` and `wr`. -/
structure Known (state : Tracked) (rd wr : Nat) (a : Instr) : Prop where
  write : ∀ slot ∈ a.writes, state.uses slot = .write wr ∨ state.deps.Done wr
  read : ∀ slot ∈ a.reads,
    rd ∈ (state.uses slot).deps ∨ state.uses slot = .write wr ∨ state.deps.Done rd
  signalled : (a.writes ≠ [] → state.deps.Live wr) ∧ (a.reads ≠ [] → state.deps.Live rd)

/-- The tracker after some instructions. -/
structure Tracks (sm : ShaderModel) (entries : List (Point × Instr)) (state : Tracked) : Prop where
  numbered : state.deps.Numbered (entries.map Prod.fst)
  inUse : ∀ slot, ∀ dep ∈ (state.uses slot).deps, dep < state.deps.count ∧ state.deps.Live dep
  active : ∀ dep ∈ state.deps.active, dep < state.deps.count
  owners : ∀ p a rd wr, (p, a) ∈ entries → state.deps.instrDeps p = some (rd, wr) →
    a.isBranch = false ∧ sm.opNeedsScoreboard a.op = true
  known : ∀ p a rd wr, (p, a) ∈ entries → state.deps.instrDeps p = some (rd, wr) →
    Known state rd wr a
  apart : ∀ p a rd wr q b, (p, a) ∈ entries → (q, b) ∈ entries → p.Before q →
    state.deps.instrDeps p = some (rd, wr) → Apart state.deps rd wr q a b

theorem tracks_nil (sm : ShaderModel) : Tracks sm [] {} := by
  constructor
  · exact numbered_nil
  · intro _ _ never
    cases never
  · intro _ never
    cases never
  · intro _ _ _ _ never
    cases never
  · intro _ _ _ _ never
    cases never
  · intro _ _ _ _ _ _ never
    cases never

section

variable {sm : ShaderModel} {entries : List (Point × Instr)} {state : Tracked} {p : Point}
  {instr : Instr}

theorem Tracks.branch (tracks : Tracks sm entries state) (next : ∀ q ∈ entries.map Prod.fst, q.Before p)
    (isBranch : instr.isBranch = true) :
    Tracks sm (entries ++ [(p, instr)]) { state with deps := state.deps.addBarrier p } := by
  have live : ∀ dep ∈ state.deps.active, state.deps.Live dep := fun _ isActive => .inl isActive
  have paired := tracks.numbered.paired
  have done : ∀ dep, state.deps.Live dep → (state.deps.addBarrier p).Done dep := by
    intro dep isLive
    rcases isLive with isActive | done
    · exact addWaits_done paired live isActive
    · exact done.addWaits
  have numbered : (state.deps.addBarrier p).Numbered ((entries ++ [(p, instr)]).map Prod.fst) := by
    apply Numbered.addWaits
    · apply tracks.numbered.mono
      intro q isPoint
      rw [map_append]
      exact mem_append_left _ isPoint
    · simp
    · exact tracks.numbered.firstWait_ne next
    · intro dep _ q owns
      exact next q (tracks.numbered.point q dep owns)
    · exact tracks.active
  have last : ∀ q ∈ (entries ++ [(p, instr)]).map Prod.fst, ¬p.Before q := by
    intro q isPoint
    rw [map_append, mem_append] at isPoint
    rcases isPoint with old | new
    · exact (next q old).asymm
    · rw [mem_singleton.mp new]
      exact Point.Before.irrefl p
  have old : ∀ {q : Point} {a : Instr} {rd wr : Nat}, (q, a) ∈ entries ++ [(p, instr)] →
      (state.deps.addBarrier p).instrDeps q = some (rd, wr) →
      (q, a) ∈ entries ∧ state.deps.instrDeps q = some (rd, wr) := by
    intro q a rd wr member isPair
    rw [addBarrier, addWaits_instrDeps] at isPair
    rcases mem_append.mp member with isOld | isNew
    · exact ⟨isOld, isPair⟩
    · cases mem_singleton.mp isNew
      rw [tracks.numbered.instrDeps_next next] at isPair
      cases isPair
  constructor
  · exact numbered
  · intro slot dep member
    rcases tracks.inUse slot dep member with ⟨below, isLive⟩
    exact ⟨by simpa [addBarrier] using below, .inr (done dep isLive)⟩
  · intro dep isActive
    rw [addBarrier, mem_addWaits_active] at isActive
    simpa [addBarrier] using tracks.active dep isActive.1
  · intro q a rd wr member isPair
    rcases old member isPair with ⟨isOld, isPair⟩
    exact tracks.owners q a rd wr isOld isPair
  · intro q a rd wr member isPair
    rcases old member isPair with ⟨isOld, isPair⟩
    have known := tracks.known q a rd wr isOld isPair
    constructor
    · intro slot written
      exact (known.write slot written).imp_right Done.addWaits
    · intro slot read
      exact (known.read slot read).imp_right fun rest => rest.imp_right Done.addWaits
    · exact ⟨fun some_dst => .inr (done wr (known.signalled.1 some_dst)),
        fun some_src => .inr (done rd (known.signalled.2 some_src))⟩
  · intro q a rd wr q' b member member' before isPair
    rcases old member isPair with ⟨isOld, isPair⟩
    rcases mem_append.mp member' with isOld' | isNew'
    · exact (tracks.apart q a rd wr q' b isOld isOld' before isPair).addWaits
    · cases mem_singleton.mp isNew'
      have known := tracks.known q a rd wr isOld isPair
      constructor
      · intro passes
        rw [isBranch] at passes
        cases passes
      · intro _
        exact ⟨fun some_dst => numbered.doneBy last (done wr (known.signalled.1 some_dst)),
          fun some_src => numbered.doneBy last (done rd (known.signalled.2 some_src))⟩

/-- One more instruction that is no branch, over a graph that has its dependencies. -/
theorem Tracks.access {graph : DepGraph} {Own : Nat → Prop} {uses : RegTracker (RegUse Nat)}
    {waits : List Nat} (tracks : Tracks sm entries state)
    (next : ∀ q ∈ entries.map Prod.fst, q.Before p) (passes : instr.isBranch = false)
    (numbered : graph.Numbered ((entries ++ [(p, instr)]).map Prod.fst))
    (grows : state.deps.count ≤ graph.count)
    (keepsLive : ∀ dep, state.deps.Live dep → graph.Live dep)
    (keepsDone : ∀ dep, state.deps.Done dep → graph.Done dep)
    (keepsFirst : ∀ dep, graph.firstWait dep = state.deps.firstWait dep)
    (keepsBy : ∀ q dep, state.deps.DoneBy q dep → graph.DoneBy q dep)
    (keepsOwn : ∀ q ≠ p, graph.instrDeps q = state.deps.instrDeps q)
    (active : ∀ dep ∈ graph.active, dep < graph.count)
    (visits : Visits instr.guards instr.reads instr.writes Own state.uses uses waits)
    (ownLive : ∀ dep, Own dep → dep < graph.count ∧ graph.Live dep)
    (own : ∀ rd wr, graph.instrDeps p = some (rd, wr) →
      sm.opNeedsScoreboard instr.op = true ∧ Known ⟨uses, graph⟩ rd wr instr) :
    Tracks sm (entries ++ [(p, instr)]) ⟨uses, graph.addWaits p waits⟩ := by
  have live : ∀ dep ∈ waits, graph.Live dep := by
    intro dep member
    rcases visits.old dep member with ⟨slot, inUse⟩
    exact keepsLive dep (tracks.inUse slot dep inUse).2
  have done : ∀ dep ∈ waits, (graph.addWaits p waits).Done dep :=
    fun dep member => addWaits_done numbered.paired live member
  have last : ∀ q ∈ (entries ++ [(p, instr)]).map Prod.fst, ¬p.Before q := by
    intro q isPoint
    rw [map_append, mem_append] at isPoint
    rcases isPoint with old | new
    · exact (next q old).asymm
    · rw [mem_singleton.mp new]
      exact Point.Before.irrefl p
  have other : ∀ {q : Point} {a : Instr}, (q, a) ∈ entries → q ≠ p := by
    rintro q a isOld rfl
    exact Point.Before.irrefl q (next q (mem_map_of_mem isOld))
  have numbered' : (graph.addWaits p waits).Numbered ((entries ++ [(p, instr)]).map Prod.fst) := by
    apply numbered.addWaits
    · simp
    · intro dep
      rw [keepsFirst]
      exact tracks.numbered.firstWait_ne next dep
    · intro dep member q owns
      rcases visits.old dep member with ⟨slot, inUse⟩
      rcases tracks.numbered.owner dep (tracks.inUse slot dep inUse).1 with ⟨q', owns'⟩
      have isOld := tracks.numbered.point q' dep owns'
      have apart : q' ≠ p := by
        rintro rfl
        exact Point.Before.irrefl q' (next q' isOld)
      have owns' : graph.Owns q' dep := by
        rw [Owns, keepsOwn q' apart]
        exact owns'
      -- a dependency has one owner
      by_cases same : q = q'
      · subst same
        exact next q isOld
      · exfalso
        have order : q.Before q' ∨ q'.Before q := by
          have differ : q.block ≠ q'.block ∨ q.ip ≠ q'.ip := by
            by_contra equal
            push Not at equal
            exact same (by cases q; cases q'; simp_all)
          unfold Point.Before
          omega
        rcases order with before | before
        · exact Nat.lt_irrefl dep (numbered.ordered q q' dep dep owns owns' before)
        · exact Nat.lt_irrefl dep (numbered.ordered q' q dep dep owns' owns before)
    · exact active
  have known : ∀ q a rd wr, (q, a) ∈ entries → graph.instrDeps q = some (rd, wr) →
      Known state rd wr a := by
    intro q a rd wr isOld isPair
    rw [keepsOwn q (other isOld)] at isPair
    exact tracks.known q a rd wr isOld isPair
  have writer : ∀ {q rd wr}, graph.instrDeps q = some (rd, wr) →
      (graph.addWaits p waits).Done wr → (graph.addWaits p waits).Done rd := by
    intro q rd wr isPair done
    have reads := (numbered'.pair q rd wr (by rw [addWaits_instrDeps, isPair])).2.2.2
    rcases done.own (fun v => numbered'.paired wr rd reads v) with ⟨w, waited⟩
    exact .inr ⟨wr, w, reads, waited⟩
  constructor
  · exact numbered'
  · intro slot dep member
    rw [addWaits_count]
    rcases visits.fresh slot dep member with old | new
    · rcases tracks.inUse slot dep old with ⟨below, isLive⟩
      exact ⟨Nat.lt_of_lt_of_le below grows, (keepsLive dep isLive).addWaits numbered.paired live⟩
    · exact ⟨(ownLive dep new).1, (ownLive dep new).2.addWaits numbered.paired live⟩
  · intro dep isActive
    rw [addWaits_count]
    exact active dep (mem_addWaits_active.mp isActive).1
  · intro q a rd wr member isPair
    rw [addWaits_instrDeps] at isPair
    rcases mem_append.mp member with isOld | isNew
    · rw [keepsOwn q (other isOld)] at isPair
      exact tracks.owners q a rd wr isOld isPair
    · cases mem_singleton.mp isNew
      exact ⟨passes, (own rd wr isPair).1⟩
  · intro q a rd wr member isPair
    rw [addWaits_instrDeps] at isPair
    rcases mem_append.mp member with isOld | isNew
    · have before := known q a rd wr isOld isPair
      constructor
      · intro slot written
        rcases before.write slot written with inUse | isDone
        · exact (visits.write slot wr inUse).imp_right (done wr)
        · exact .inr (keepsDone wr isDone).addWaits
      · intro slot read
        rcases before.read slot read with inUse | inUse | isDone
        · rcases visits.kept slot rd inUse with still | waited
          · exact .inl still
          · exact .inr (.inr (done rd waited))
        · rcases visits.write slot wr inUse with still | waited
          · exact .inr (.inl still)
          · exact .inr (.inr (writer isPair (done wr waited)))
        · exact .inr (.inr (keepsDone rd isDone).addWaits)
      · exact ⟨fun some_dst =>
            (keepsLive wr (before.signalled.1 some_dst)).addWaits numbered.paired live,
          fun some_src =>
            (keepsLive rd (before.signalled.2 some_src)).addWaits numbered.paired live⟩
    · cases mem_singleton.mp isNew
      have new := (own rd wr isPair).2
      constructor
      · intro slot written
        exact (new.write slot written).imp_right Done.addWaits
      · intro slot read
        exact (new.read slot read).imp_right fun rest => rest.imp_right Done.addWaits
      · exact ⟨fun some_dst => (new.signalled.1 some_dst).addWaits numbered.paired live,
          fun some_src => (new.signalled.2 some_src).addWaits numbered.paired live⟩
  · intro q a rd wr q' b member member' before isPair
    rw [addWaits_instrDeps] at isPair
    rcases mem_append.mp member' with isOld' | isNew'
    · have isOld : (q, a) ∈ entries := by
        rcases mem_append.mp member with isOld | isNew
        · exact isOld
        · cases mem_singleton.mp isNew
          exact absurd before (next q' (mem_map_of_mem isOld')).asymm
      have isPair' : state.deps.instrDeps q = some (rd, wr) := by
        rw [← keepsOwn q (other isOld), isPair]
      have apart := tracks.apart q a rd wr q' b isOld isOld' before isPair'
      apply Apart.addWaits
      exact ⟨fun passes => ⟨fun hazard => keepsBy q' wr ((apart.1 passes).1 hazard),
          fun hazard => keepsBy q' rd ((apart.1 passes).2 hazard)⟩,
        fun isBranch => ⟨fun some_dst => keepsBy q' wr ((apart.2 isBranch).1 some_dst),
          fun some_src => keepsBy q' rd ((apart.2 isBranch).2 some_src)⟩⟩
    · cases mem_singleton.mp isNew'
      have isOld : (q, a) ∈ entries := by
        rcases mem_append.mp member with isOld | isNew
        · exact isOld
        · cases mem_singleton.mp isNew
          exact absurd before (Point.Before.irrefl _)
      have facts := known q a rd wr isOld isPair
      constructor
      · intro _
        constructor
        · rintro ⟨slot, written, accessed⟩
          apply numbered'.doneBy last
          rcases facts.write slot written with inUse | isDone
          · apply done wr (visits.access slot ?_ wr inUse)
            rcases accessed with writes | reads | guards
            · exact .inr (.inr writes)
            · exact .inr (.inl reads)
            · exact .inl guards
          · exact (keepsDone wr isDone).addWaits
        · rintro ⟨slot, overwritten, read⟩
          apply numbered'.doneBy last
          rcases facts.read slot read with inUse | inUse | isDone
          · exact done rd (visits.overwrite slot overwritten rd inUse)
          · exact writer isPair (done wr (visits.access slot (.inr (.inr overwritten)) wr inUse))
          · exact (keepsDone rd isDone).addWaits
      · intro isBranch
        rw [passes] at isBranch
        cases isBranch

theorem Tracks.fixed (tracks : Tracks sm entries state)
    (next : ∀ q ∈ entries.map Prod.fst, q.Before p) (passes : instr.isBranch = false)
    (once : instr.writes.Nodup) :
    Tracks sm (entries ++ [(p, instr)])
      (trackFixed p instr.guards instr.reads instr.writes state) := by
  rcases trackFixed_visits (p := p) once with ⟨waits, visits, isDeps⟩
  have noDeps := tracks.numbered.instrDeps_next next
  have stepped : Tracks sm (entries ++ [(p, instr)])
      ⟨(trackFixed p instr.guards instr.reads instr.writes state).uses,
        state.deps.addWaits p waits⟩ := by
    apply tracks.access next passes
    · apply tracks.numbered.mono
      intro q isPoint
      rw [map_append]
      exact mem_append_left _ isPoint
    · exact Nat.le_refl _
    · exact fun _ live => live
    · exact fun _ done => done
    · exact fun _ => rfl
    · exact fun _ _ done => done
    · exact fun _ _ => rfl
    · exact tracks.active
    · exact visits
    · intro _ never
      exact never.elim
    · intro rd wr isPair
      rw [noDeps] at isPair
      cases isPair
  rw [← isDeps] at stepped
  exact stepped

theorem Tracks.scoreboard (tracks : Tracks sm entries state)
    (next : ∀ q ∈ entries.map Prod.fst, q.Before p) (passes : instr.isBranch = false)
    (needs : sm.opNeedsScoreboard instr.op = true) (once : instr.writes.Nodup) :
    Tracks sm (entries ++ [(p, instr)])
      (trackScoreboard p instr.guards instr.reads instr.writes state) := by
  have numbered := tracks.numbered
  rcases trackScoreboard_visits (p := p) once fun slot dep member =>
    (tracks.inUse slot dep member).1 with ⟨waits, visits, isDeps⟩
  have ownActive : ∀ dep, dep = state.deps.count ∧ instr.reads ≠ [] ∨
      dep = state.deps.count + 1 ∧ instr.writes ≠ [] →
      dep ∈ (withInstr state.deps p instr.reads instr.writes).active :=
    fun _ isOwn => mem_withInstr_active.mpr (.inr isOwn)
  have stepped : Tracks sm (entries ++ [(p, instr)])
      ⟨(trackScoreboard p instr.guards instr.reads instr.writes state).uses,
        (withInstr state.deps p instr.reads instr.writes).addWaits p waits⟩ := by
    apply tracks.access next passes
    · rw [map_append]
      exact numbered.withInstr next
    · rw [withInstr_count]
      omega
    · exact fun _ live => live.withInstr numbered
    · exact fun _ done => done.withInstr numbered
    · exact withInstr_firstWait numbered
    · rintro q dep (⟨w, waited, notLater⟩ | ⟨v, w, reads, waited, notLater⟩)
      · exact .inl ⟨w, (withInstr_firstWait numbered dep).trans waited, notLater⟩
      · refine .inr ⟨v, w, ?_, (withInstr_firstWait numbered v).trans waited, notLater⟩
        rw [withInstr_readDep numbered, if_neg, reads]
        rintro rfl
        rw [(numbered.fresh _ (Nat.le_succ _)).2] at reads
        cases reads
    · intro q other
      rw [withInstr_instrDeps, Function.update_of_ne other]
    · intro dep isActive
      rw [withInstr_count]
      rcases mem_withInstr_active.mp isActive with old | ⟨isRead, _⟩ | ⟨isWrite, _⟩
      · have below := tracks.active dep old
        omega
      · omega
      · omega
    · exact visits
    · intro dep isOwn
      refine ⟨?_, .inl (ownActive dep isOwn)⟩
      rw [withInstr_count]
      omega
    · intro rd wr isPair
      rw [withInstr_instrDeps, Function.update_self] at isPair
      cases isPair
      refine ⟨needs, ?_⟩
      constructor
      · intro slot written
        exact .inl ((trackScoreboard_own (p := p)).1 written)
      · intro slot read
        exact ((trackScoreboard_own (p := p)).2 read).imp_right .inl
      · exact ⟨fun some_dst => .inl (ownActive _ (.inr ⟨rfl, some_dst⟩)),
          fun some_src => .inl (ownActive _ (.inl ⟨rfl, some_src⟩))⟩
  rw [← isDeps] at stepped
  exact stepped

theorem Tracks.step {state' : Tracked} (tracks : Tracks sm entries state)
    (next : ∀ q ∈ entries.map Prod.fst, q.Before p) (once : instr.writes.Nodup)
    (tracked : trackInstr sm state (p, instr) = .ok state') :
    Tracks sm (entries ++ [(p, instr)]) state' := by
  rw [trackInstr] at tracked
  by_cases isBranch : instr.isBranch = true
  · rw [if_pos isBranch] at tracked
    cases tracked
    exact tracks.branch next isBranch
  · rw [if_neg isBranch] at tracked
    have passes : instr.isBranch = false := by simpa using isBranch
    rcases bind_eq_ok.mp tracked with ⟨guards, isGuards, tracked⟩
    rcases bind_eq_ok.mp tracked with ⟨srcs, isSrcs, tracked⟩
    rcases bind_eq_ok.mp tracked with ⟨dsts, isDsts, tracked⟩
    have reads : srcs.map Prod.snd = instr.reads := RegTracker.operandSlots_eq isSrcs
    have writes : dsts.map Prod.snd = instr.writes := RegTracker.operandSlots_eq isDsts
    have guarded : guards = instr.guards := by
      rw [Instr.predSlots] at isGuards
      rw [Instr.guards]
      cases isPred : instr.pred.predicate with
      | reg reg =>
          rw [isPred] at isGuards
          exact RegTracker.index_eq isGuards
      | none | ssa value =>
          rw [isPred] at isGuards
          cases isGuards
          rfl
    rw [reads, writes, guarded] at tracked
    by_cases needs : sm.opNeedsScoreboard instr.op = true
    · rw [if_pos needs] at tracked
      cases tracked
      exact tracks.scoreboard next passes needs once
    · rw [if_neg needs] at tracked
      cases tracked
      exact tracks.fixed next passes once

end

/-- After the first loop everything is tracked. -/
theorem tracks_all {sm : ShaderModel} : ∀ (rest entries : List (Point × Instr)) {state final : Tracked},
    Tracks sm entries state → (entries ++ rest).Pairwise (fun a b => a.1.Before b.1) →
    (∀ entry ∈ rest, entry.2.writes.Nodup) → rest.foldlM (trackInstr sm) state = .ok final →
    Tracks sm (entries ++ rest) final := by
  intro rest
  induction rest with
  | nil =>
      intro entries state final tracks _ _ folded
      cases folded
      rwa [append_nil]
  | cons entry rest hind =>
      intro entries state final tracks sorted once folded
      rw [foldlM_cons] at folded
      rcases bind_eq_ok.mp folded with ⟨state', tracked, folded⟩
      have next : ∀ q ∈ entries.map Prod.fst, q.Before entry.1 := by
        intro q isPoint
        rcases mem_map.mp isPoint with ⟨earlier, member, rfl⟩
        exact (pairwise_append.mp sorted).2.2 earlier member entry mem_cons_self
      have stepped : Tracks sm (entries ++ [entry]) state' :=
        tracks.step next (once entry mem_cons_self) tracked
      have both : entries ++ entry :: rest = entries ++ [entry] ++ rest := by simp
      rw [both] at sorted ⊢
      exact hind (entries ++ [entry]) stepped sorted
        (fun later member => once later (mem_cons_of_mem _ member)) folded

end AssignBarriers

end CoralReef
