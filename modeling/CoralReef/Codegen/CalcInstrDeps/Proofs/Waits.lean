import CoralReef.Codegen.CalcInstrDeps.AssignBarriers

/-!
# Waits and uses

What `add_waits` makes of the dependency graph, and what the visits of an instruction make of the
uses of the registers.
-/

open List

namespace CoralReef

theorem Point.Before.trans {p q r : Point} (first : p.Before q) (second : q.Before r) :
    p.Before r := by
  unfold Before at *
  omega

theorem Point.Before.irrefl (p : Point) : ¬p.Before p := by
  unfold Before
  omega

theorem Point.Before.asymm {p q : Point} (first : p.Before q) : ¬q.Before p := by
  unfold Before at *
  omega

namespace AssignBarriers

namespace DepGraph

/-- The first wait on a dependency. -/
def firstWait (graph : DepGraph) (dep : Nat) : Option Point := (graph.nodes dep).firstWait

/-- The dependency of the reads of the instruction that writes. -/
def readDep (graph : DepGraph) (dep : Nat) : Option Nat := (graph.nodes dep).readDep

theorem mem_dropReads {graph : DepGraph} {waits : List Nat} {dep : Nat} :
    dep ∈ (graph.dropReads waits).active ↔
      dep ∈ graph.active ∧ ∀ w ∈ waits, graph.readDep w ≠ some dep := by
  dsimp only [dropReads]
  generalize graph.active = active
  induction waits generalizing active with
  | nil => simp
  | cons w waits hind =>
      rw [foldl_cons, hind, forall_mem_cons]
      cases reads : (graph.nodes w).readDep with
      | none => simp [readDep, reads]
      | some rd =>
          have reader : graph.readDep w ≠ some dep ↔ dep ≠ rd := by
            rw [readDep, reads, ne_eq, Option.some_inj]
            exact not_congr eq_comm
          rw [reader, mem_filter, decide_eq_true_eq]
          exact and_assoc

theorem retainWaits_spec (p : Point) : ∀ (waits : List Nat) (graph : DepGraph),
    (∀ dep, dep ∈ (retainWaits p waits graph).1 ↔
      dep ∈ waits ∧ graph.firstWait dep = none ∧ dep ∈ graph.active) ∧
    (∀ dep, (retainWaits p waits graph).2.firstWait dep =
      if dep ∈ waits ∧ graph.firstWait dep = none ∧ dep ∈ graph.active then some p
      else graph.firstWait dep) ∧
    (∀ dep, dep ∈ (retainWaits p waits graph).2.active ↔
      dep ∈ graph.active ∧ ¬(dep ∈ waits ∧ graph.firstWait dep = none)) ∧
    (∀ dep, (retainWaits p waits graph).2.readDep dep = graph.readDep dep) ∧
    (retainWaits p waits graph).2.count = graph.count ∧
    (retainWaits p waits graph).2.instrDeps = graph.instrDeps ∧
    (retainWaits p waits graph).2.instrWaits = graph.instrWaits := by
  intro waits
  induction waits with
  | nil => simp [retainWaits]
  | cons w waits hind =>
      intro graph
      rw [retainWaits]
      by_cases skip : (graph.nodes w).firstWait.isSome ∨ w ∉ graph.active
      · rw [if_pos skip]
        rcases hind graph with ⟨kept, waited, active, rest⟩
        have never : ¬(graph.firstWait w = none ∧ w ∈ graph.active) := by
          rintro ⟨fresh, isActive⟩
          rcases skip with some_wait | inactive
          · rw [firstWait] at fresh
            rw [fresh] at some_wait
            cases some_wait
          · exact inactive isActive
        refine ⟨?_, ?_, ?_, rest⟩
        · intro dep
          rw [kept]
          by_cases same : dep = w
          · subst same
            simp only [mem_cons_self, true_and]
            exact ⟨fun here => here.2, fun here => absurd here never⟩
          · simp [same]
        · intro dep
          rw [waited]
          by_cases same : dep = w
          · subst same
            rw [if_neg (fun here => never here.2), if_neg (fun here => never here.2)]
          · simp [same]
        · intro dep
          rw [active]
          by_cases same : dep = w
          · subst same
            simp only [mem_cons_self, true_and]
            constructor
            · rintro ⟨isActive, _⟩
              exact ⟨isActive, fun fresh => never ⟨fresh, isActive⟩⟩
            · rintro ⟨isActive, waited⟩
              exact ⟨isActive, fun here => waited here.2⟩
          · simp [same]
      · rw [if_neg skip]
        have fresh : graph.firstWait w = none := by
          rw [firstWait, Option.eq_none_iff_forall_ne_some]
          intro q some_wait
          exact skip (.inl (by rw [some_wait]; rfl))
        have isActive : w ∈ graph.active := by
          by_contra inactive
          exact skip (.inr inactive)
        rcases hind { graph with
          nodes := Function.update graph.nodes w { graph.nodes w with firstWait := some p }
          active := graph.active.filter (· ≠ w) } with
          ⟨kept, waited, active, reads, count, instrDeps, instrWaits⟩
        have inner : ∀ dep, firstWait { graph with
            nodes := Function.update graph.nodes w { graph.nodes w with firstWait := some p }
            active := graph.active.filter (· ≠ w) } dep =
              if dep = w then some p else graph.firstWait dep := by
          intro dep
          rw [firstWait]
          by_cases same : dep = w
          · subst same
            simp
          · simp [same, firstWait]
        refine ⟨?_, ?_, ?_, ?_, count, instrDeps, instrWaits⟩
        · intro dep
          rw [mem_cons, kept, inner]
          by_cases same : dep = w
          · subst same
            simp [fresh, isActive]
          · simp [same]
        · intro dep
          rw [waited, inner]
          by_cases same : dep = w
          · subst same
            simp [fresh, isActive]
          · simp [same]
        · intro dep
          rw [active, inner]
          by_cases same : dep = w
          · subst same
            simp [fresh]
          · simp [same]
        · intro dep
          rw [reads]
          by_cases same : dep = w
          · subst same
            simp [readDep]
          · simp [same, readDep]

section

variable {graph : DepGraph} {p : Point} {waits : List Nat}
variable {dep : Nat}

/-- A dependency is waited on first here when it is active and its reads are not waited on with
its writes. -/
def WaitedHere (graph : DepGraph) (waits : List Nat) (dep : Nat) : Prop :=
  dep ∈ waits ∧ graph.firstWait dep = none ∧ dep ∈ graph.active ∧
    ∀ w ∈ waits, graph.readDep w ≠ some dep

theorem addWaits_firstWait (dep : Nat) :
    (WaitedHere graph waits dep → (graph.addWaits p waits).firstWait dep = some p) ∧
    (¬WaitedHere graph waits dep →
      (graph.addWaits p waits).firstWait dep = graph.firstWait dep) := by
  have spec := (retainWaits_spec p waits (graph.dropReads waits)).2.1 dep
  simp only [mem_dropReads] at spec
  constructor
  · intro here
    exact spec.trans (if_pos here)
  · intro elsewhere
    exact spec.trans (if_neg elsewhere)

theorem mem_addWaits_active :
    dep ∈ (graph.addWaits p waits).active ↔
      dep ∈ graph.active ∧ (∀ w ∈ waits, graph.readDep w ≠ some dep) ∧
        ¬(dep ∈ waits ∧ graph.firstWait dep = none) := by
  have spec := (retainWaits_spec p waits (graph.dropReads waits)).2.2.1 dep
  rw [mem_dropReads] at spec
  exact spec.trans and_assoc

theorem mem_addWaits_instrWaits :
    dep ∈ (graph.addWaits p waits).instrWaits p ↔ WaitedHere graph waits dep := by
  have spec := (retainWaits_spec p waits (graph.dropReads waits)).1 dep
  rw [mem_dropReads] at spec
  rw [addWaits]
  dsimp only
  rw [Function.update_self, mem_mergeSort, spec]
  rfl

theorem addWaits_instrWaits {q : Point} (other : q ≠ p) :
    (graph.addWaits p waits).instrWaits q = graph.instrWaits q := by
  have spec := (retainWaits_spec p waits (graph.dropReads waits)).2.2.2.2.2.2
  rw [addWaits]
  dsimp only
  rw [Function.update_of_ne other, spec]
  rfl

@[simp] theorem addWaits_readDep (dep : Nat) :
    (graph.addWaits p waits).readDep dep = graph.readDep dep :=
  (retainWaits_spec p waits (graph.dropReads waits)).2.2.2.1 dep

@[simp] theorem addWaits_count : (graph.addWaits p waits).count = graph.count :=
  (retainWaits_spec p waits (graph.dropReads waits)).2.2.2.2.1

@[simp] theorem addWaits_instrDeps : (graph.addWaits p waits).instrDeps = graph.instrDeps :=
  (retainWaits_spec p waits (graph.dropReads waits)).2.2.2.2.2.1

/-- The dependency is waited on, by itself or with the writes of its instruction. -/
def Done (graph : DepGraph) (dep : Nat) : Prop :=
  (∃ q, graph.firstWait dep = some q) ∨
    ∃ w q, graph.readDep w = some dep ∧ graph.firstWait w = some q

def Live (graph : DepGraph) (dep : Nat) : Prop := dep ∈ graph.active ∨ graph.Done dep

/-- Only the reads of an instruction are waited on with other dependencies. -/
def Paired (graph : DepGraph) : Prop :=
  ∀ w r, graph.readDep w = some r → ∀ v, graph.readDep v ≠ some w

theorem addWaits_waited {q : Point} (waited : graph.firstWait dep = some q) :
    (graph.addWaits p waits).firstWait dep = some q := by
  rw [(addWaits_firstWait dep).2 ?_, waited]
  rintro ⟨_, fresh, _⟩
  rw [waited] at fresh
  cases fresh

theorem Done.addWaits (done : graph.Done dep) : (graph.addWaits p waits).Done dep := by
  rcases done with ⟨q, waited⟩ | ⟨w, q, reads, waited⟩
  · exact .inl ⟨q, addWaits_waited waited⟩
  · exact .inr ⟨w, q, by rw [addWaits_readDep, reads], addWaits_waited waited⟩

theorem Paired.addWaits (paired : graph.Paired) : (graph.addWaits p waits).Paired := by
  intro w r reads v
  rw [addWaits_readDep] at reads ⊢
  exact paired w r reads v

/-- A dependency that is no instruction's reads is waited on by itself. -/
theorem Done.own (done : graph.Done dep) (own : ∀ w, graph.readDep w ≠ some dep) :
    ∃ q, graph.firstWait dep = some q := by
  rcases done with waited | ⟨w, _, reads, _⟩
  · exact waited
  · exact absurd reads (own w)

/-- Whatever is live and waited on is done. -/
theorem addWaits_done (paired : graph.Paired) (live : ∀ dep ∈ waits, graph.Live dep)
    (member : dep ∈ waits) : (graph.addWaits p waits).Done dep := by
  have direct : ∀ w ∈ waits, (∀ v ∈ waits, graph.readDep v ≠ some w) →
      (graph.addWaits p waits).Done w := by
    intro w isWait apart
    rcases live w isWait with isActive | done
    · by_cases fresh : graph.firstWait w = none
      · exact .inl ⟨p, (addWaits_firstWait w).1 ⟨isWait, fresh, isActive, apart⟩⟩
      · rcases Option.ne_none_iff_exists'.mp fresh with ⟨q, waited⟩
        exact .inl ⟨q, addWaits_waited waited⟩
    · exact done.addWaits
  by_cases apart : ∀ v ∈ waits, graph.readDep v ≠ some dep
  · exact direct dep member apart
  · -- the writes of the same instruction are waited on
    push Not at apart
    rcases apart with ⟨w, isWait, reads⟩
    have done := direct w isWait fun v _ => paired w dep reads v
    rcases done.own (fun v => paired.addWaits w dep (by rw [addWaits_readDep, reads]) v) with
      ⟨q, waited⟩
    exact .inr ⟨w, q, by rw [addWaits_readDep, reads], waited⟩

theorem Live.addWaits (paired : graph.Paired) (live : ∀ dep ∈ waits, graph.Live dep)
    (isLive : graph.Live dep) : (graph.addWaits p waits).Live dep := by
  rcases isLive with isActive | done
  · by_cases member : dep ∈ waits
    · exact .inr (addWaits_done paired live member)
    · by_cases apart : ∀ v ∈ waits, graph.readDep v ≠ some dep
      · exact .inl (mem_addWaits_active.mpr ⟨isActive, apart, fun here => member here.1⟩)
      · push Not at apart
        rcases apart with ⟨w, isWait, reads⟩
        have done := addWaits_done (p := p) paired live isWait
        rcases done.own (fun v => paired.addWaits w dep (by rw [addWaits_readDep, reads]) v) with
          ⟨q, waited⟩
        exact .inr (.inr ⟨w, q, by rw [addWaits_readDep, reads], waited⟩)
  · exact .inr done.addWaits

theorem mem_addSignals {dep d : Nat} {slots : List Slot} :
    d ∈ (graph.addSignals dep slots).active ↔ d ∈ graph.active ∨ d = dep ∧ slots ≠ [] := by
  induction slots generalizing graph with
  | nil => simp [addSignals]
  | cons slot slots hind =>
      rw [addSignals, foldl_cons]
      refine hind.trans ?_
      rw [addSignal, mem_insert_iff]
      constructor
      · rintro ((rfl | old) | ⟨rfl, _⟩)
        · exact .inr ⟨rfl, cons_ne_nil _ _⟩
        · exact .inl old
        · exact .inr ⟨rfl, cons_ne_nil _ _⟩
      · rintro (old | ⟨rfl, _⟩)
        · exact .inl (.inr old)
        · exact .inl (.inl rfl)

/-- Signals change the active dependencies only. -/
theorem addSignals_rest (graph : DepGraph) (dep : Nat) (slots : List Slot) :
    (graph.addSignals dep slots).count = graph.count ∧
      (graph.addSignals dep slots).nodes = graph.nodes ∧
      (graph.addSignals dep slots).instrDeps = graph.instrDeps ∧
      (graph.addSignals dep slots).instrWaits = graph.instrWaits := by
  induction slots generalizing graph with
  | nil => exact ⟨rfl, rfl, rfl, rfl⟩
  | cons slot slots hind => exact hind (graph.addSignal dep)

end

end DepGraph

/-! ## Visits -/

section

variable {update : RegUse Nat → RegUse Nat × RegUse Nat}
variable {slot : Slot} {R : RegUse Nat → Prop}

/-- An entry is visited before the others. -/
theorem visitUses_cons (head : Slot) (slots : List Slot) (uses : RegTracker (RegUse Nat)) :
    visitUses update (head :: slots) uses =
      ((visitUses update slots (Function.update uses head (update (uses head)).1)).1,
        (update (uses head)).2.deps ++
          (visitUses update slots (Function.update uses head (update (uses head)).1)).2) := rfl

theorem visitUses_other : ∀ {slots : List Slot} {uses : RegTracker (RegUse Nat)},
    slot ∉ slots → (visitUses update slots uses).1 slot = uses slot
  | [], _, _ => rfl
  | head :: slots, uses, apart => by
      rw [mem_cons, not_or] at apart
      rw [visitUses_cons, visitUses_other apart.2, Function.update_of_ne apart.1]

/-- What the first visit of an entry returns is returned. -/
theorem visitUses_returns {dep : Nat} :
    ∀ {slots : List Slot} {uses : RegTracker (RegUse Nat)}, slot ∈ slots →
      dep ∈ (update (uses slot)).2.deps → dep ∈ (visitUses update slots uses).2
  | head :: slots, uses, member, returned => by
      rw [visitUses_cons, mem_append]
      by_cases same : slot = head
      · subst same
        exact .inl returned
      · rcases mem_cons.mp member with equal | member
        · exact absurd equal same
        · refine .inr (visitUses_returns member ?_)
          rw [Function.update_of_ne same]
          exact returned

/-- What every update establishes holds of the entries that are visited. -/
theorem visitUses_establishes (establishes : ∀ use, R (update use).1) :
    ∀ {slots : List Slot} {uses : RegTracker (RegUse Nat)}, slot ∈ slots →
      R ((visitUses update slots uses).1 slot)
  | head :: slots, uses, member => by
      rw [visitUses_cons]
      by_cases later : slot ∈ slots
      · exact visitUses_establishes establishes later
      · rcases mem_cons.mp member with rfl | member
        · rw [visitUses_other later, Function.update_self]
          exact establishes _
        · exact absurd member later

/-- What every update keeps is kept. -/
theorem visitUses_keeps (keeps : ∀ use, R use → R (update use).1) :
    ∀ {slots : List Slot} {uses : RegTracker (RegUse Nat)}, R (uses slot) →
      R ((visitUses update slots uses).1 slot)
  | [], _, holds => holds
  | head :: slots, uses, holds => by
      rw [visitUses_cons]
      apply visitUses_keeps keeps
      by_cases same : slot = head
      · subst same
        rw [Function.update_self]
        exact keeps _ holds
      · rw [Function.update_of_ne same]
        exact holds

/-- What every update keeps or returns is kept or returned. -/
theorem visitUses_kept {dep : Nat}
    (kept : ∀ use, R use → R (update use).1 ∨ dep ∈ (update use).2.deps) :
    ∀ {slots : List Slot} {uses : RegTracker (RegUse Nat)}, R (uses slot) →
      R ((visitUses update slots uses).1 slot) ∨ dep ∈ (visitUses update slots uses).2
  | [], _, holds => .inl holds
  | head :: slots, uses, holds => by
      rw [visitUses_cons, mem_append]
      by_cases same : slot = head
      · subst same
        rcases kept _ holds with stays | returned
        · have next : R (Function.update uses slot (update (uses slot)).1 slot) := by
            rw [Function.update_self]
            exact stays
          rcases visitUses_kept kept next with still | later
          · exact .inl still
          · exact .inr (.inr later)
        · exact .inr (.inl returned)
      · have next : R (Function.update uses head (update (uses head)).1 slot) := by
          rw [Function.update_of_ne same]
          exact holds
        rcases visitUses_kept kept next with still | later
        · exact .inl still
        · exact .inr (.inr later)

/-- What every update returns of uses with a property. -/
theorem visitUses_all {Q : Nat → Prop} (keeps : ∀ use, R use → R (update use).1)
    (returns : ∀ use, R use → ∀ dep ∈ (update use).2.deps, Q dep) :
    ∀ {slots : List Slot} {uses : RegTracker (RegUse Nat)}, (∀ slot, R (uses slot)) →
      ∀ dep ∈ (visitUses update slots uses).2, Q dep
  | [], _, _, _, never => by cases never
  | head :: slots, uses, holds, dep, member => by
      rw [visitUses_cons] at member
      rcases mem_append.mp member with here | later
      · exact returns _ (holds head) dep here
      · refine visitUses_all keeps returns ?_ dep later
        intro slot
        by_cases same : slot = head
        · subst same
          rw [Function.update_self]
          exact keeps _ (holds slot)
        · rw [Function.update_of_ne same]
          exact holds slot

/-- Entries that are visited once return what they held. -/
theorem visitUses_nodup {dep : Nat} :
    ∀ {slots : List Slot} {uses : RegTracker (RegUse Nat)}, slots.Nodup →
      dep ∈ (visitUses update slots uses).2 →
        ∃ slot ∈ slots, dep ∈ (update (uses slot)).2.deps
  | head :: slots, uses, once, member => by
      rw [nodup_cons] at once
      rw [visitUses_cons] at member
      rcases mem_append.mp member with here | later
      · exact ⟨head, mem_cons_self, here⟩
      · rcases visitUses_nodup once.2 later with ⟨slot, isLater, returned⟩
        have apart : slot ≠ head := fun same => once.1 (same ▸ isLater)
        rw [Function.update_of_ne apart] at returned
        exact ⟨slot, mem_cons_of_mem _ isLater, returned⟩

end

end AssignBarriers

end CoralReef
